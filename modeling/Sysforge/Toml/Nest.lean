import Sysforge.Toml.Section

/-!
# Sections with subsections

An entry of a state file may be a header with pairs and, right after it, one further header for
each of its own tables. `Nest` is such an entry; the sections of a list of nests below one key
build the table of their tables (`applyAll_nests`).
-/

namespace Sysforge.Toml

/-- A table header with its pairs and, below it, its own tables. -/
structure Nest where
  name : String
  pairs : List (String × Value)
  subs : List (String × List (String × Value))

namespace Nest

/-- The sections of a nest, its header below `pre`. -/
def sections (pre : Key) (x : Nest) : List Section :=
  ⟨pre ++ [x.name], x.pairs⟩ :: x.subs.map (Section.under (pre ++ [x.name]))

/-- The table a nest becomes. -/
def table (x : Nest) : Table := x.pairs ++ x.subs.map entry

/-- The keys of a nest are distinct at every level. -/
structure Ok (x : Nest) : Prop where
  keys : (Assoc.keys x.table).Nodup
  subs : ∀ p ∈ x.subs, (Assoc.keys p.2).Nodup

theorem sections_prefixed (pre : Key) (x : Nest) :
    x.sections pre = (x.sections []).map (Section.prefixed pre) := by
  simp [sections, Section.prefixed, Section.under, Function.comp_def]

theorem applyAll_sections {x : Nest} (hx : x.Ok) {t : Table} (hk : x.name ∉ Assoc.keys t) :
    Section.applyAll (x.sections []) t = some (t ++ [(x.name, .table x.table)]) := by
  have hkeys := hx.keys
  rw [table, Assoc.keys_append, keys_map_entry, List.nodup_append'] at hkeys
  have hhead : Section.apply ⟨[x.name], x.pairs⟩ t = some (t ++ [(x.name, .table x.pairs)]) := by
    rw [Section.apply, updateNest_new hk, putAll_append (by simpa using hkeys.1)]
    rfl
  rw [sections, List.nil_append, Section.applyAll_cons, hhead, Option.bind_some]
  by_cases hs : x.subs = []
  · simp [hs, table]
  · have hsubs : Section.applyAll (x.subs.map (Section.under [])) x.pairs = some x.table :=
      applyAll_new hkeys.2.1 (fun k hk hk' => hkeys.2.2 hk' hk) hx.subs
    have hlook : (t ++ [(x.name, Value.table x.pairs)]).lookup x.name = some (.table x.pairs) := by
      rw [List.lookup_append, Assoc.lookup_eq_none.2 hk]
      simp
    have hset : ∀ u : Table, Assoc.set x.name (.table u) (t ++ [(x.name, Value.table x.pairs)]) =
        t ++ [(x.name, .table u)] := fun u => by
      rw [← Assoc.set_of_notMem hk, set_set, Assoc.set_of_notMem hk]
    rw [map_under, applyAll_prefixed _ (by simpa using hs)]
    simp only [updateNest, hlook, hsubs, Option.map_some, hset]

/-- The entry a nest becomes below its parent. -/
def item (x : Nest) : String × Value := (x.name, .table x.table)

theorem applyAll_flatMap {xs : List Nest} (hx : ∀ x ∈ xs, x.Ok) (hn : (xs.map name).Nodup)
    {t : Table} (ht : ∀ x ∈ xs, x.name ∉ Assoc.keys t) :
    Section.applyAll (xs.flatMap (sections [])) t = some (t ++ xs.map item) := by
  induction xs generalizing t with
  | nil => simp
  | cons x xs ih =>
    rw [List.map_cons, List.nodup_cons] at hn
    have hhead := applyAll_sections (hx x List.mem_cons_self) (ht x List.mem_cons_self)
    rw [List.flatMap_cons, Section.applyAll_append hhead,
      ih (fun y hy => hx y (List.mem_cons_of_mem _ hy)) hn.2 fun y hy hm => ?_]
    · simp [item]
    · rw [Assoc.keys_append, List.mem_append] at hm
      rcases hm with hm | hm
      · exact ht y (List.mem_cons_of_mem _ hy) hm
      · have hname : y.name = x.name := List.mem_singleton.1 hm
        exact hn.1 (hname ▸ List.mem_map_of_mem hy)

/-- The table of the nests below one key, absent when there are none. -/
def spaceTable (k : String) (xs : List Nest) : Table :=
  if xs = [] then [] else [(k, .table (xs.map item))]

/-- **The sections of nests below one new key append the table of their tables.** -/
theorem applyAll_nests {k : String} {xs : List Nest} (hx : ∀ x ∈ xs, x.Ok)
    (hn : (xs.map name).Nodup) {t : Table} (hk : k ∉ Assoc.keys t) :
    Section.applyAll (xs.flatMap (sections [k])) t = some (t ++ spaceTable k xs) := by
  by_cases hxs : xs = []
  · simp [hxs, spaceTable]
  · have hmap : xs.flatMap (sections [k]) =
        (xs.flatMap (sections [])).map (Section.prefixed [k]) := by
      rw [List.map_flatMap]
      exact List.flatMap_congr fun x _ => sections_prefixed [k] x
    have hne : xs.flatMap (sections []) ≠ [] := by
      obtain ⟨x, xs, rfl⟩ := List.exists_cons_of_ne_nil hxs
      simp [sections]
    rw [hmap, applyAll_prefixed _ hne, updateNest_new hk,
      applyAll_flatMap hx hn (by simp), spaceTable, if_neg hxs]
    rfl

/-- The headers of nests with distinct names are distinct. -/
theorem nodup_key_nests (pre : Key) {xs : List Nest} (hx : ∀ x ∈ xs, x.Ok)
    (hn : (xs.map name).Nodup) : ((xs.flatMap (sections pre)).map Section.key).Nodup := by
  have hkeys : ∀ x : Nest, (x.sections pre).map Section.key =
      (pre ++ [x.name]) :: (Assoc.keys x.subs).map fun k => pre ++ [x.name] ++ [k] := fun x => by
    simp [sections, Section.under, Assoc.keys, Function.comp_def]
  have hmem : ∀ {x : Nest} {k : Key}, k ∈ (x.sections pre).map Section.key →
      ∃ ks, k = pre ++ x.name :: ks := by
    intro x k hk
    rw [hkeys] at hk
    rcases List.mem_cons.1 hk with rfl | hk
    · exact ⟨[], rfl⟩
    · obtain ⟨n, -, rfl⟩ := List.mem_map.1 hk
      exact ⟨[n], by simp⟩
  rw [List.map_flatMap, List.nodup_flatMap]
  refine ⟨fun x hxs => ?_, (List.pairwise_map.1 hn).imp fun hne => ?_⟩
  · have hsub := (hx x hxs).keys
    rw [table, Assoc.keys_append, keys_map_entry, List.nodup_append'] at hsub
    rw [hkeys, List.nodup_cons]
    refine ⟨by simp, hsub.2.1.map fun m n hmn => by simpa using hmn⟩
  · intro k hk hk'
    obtain ⟨ks, rfl⟩ := hmem hk
    obtain ⟨ks', h⟩ := hmem hk'
    exact hne (List.cons.inj (List.append_cancel_left h)).1

end Nest

end Sysforge.Toml
