import Mathlib.Data.List.TakeWhile
import Sysforge.Foundations.Occurrences
import Sysforge.Pkgbuild.VarExpansion

/-!
# Arrays of an architecture

`_merge_arch_arrays` adds the entries of `depends_x86_64` and its like to `depends`, for seven
families of arrays. It gathers the entries of a family in one pass over the globals, in which the
canonical array has no other place than its own: the arrays that are defined before it come first.
`mergeArchArrays_iff` says for which globals the canonical entries nevertheless come first.
-/

namespace Sysforge.Pkgbuild

open Occurrences

/-! ## The code -/

/-- `"depends"`. -/
def dependsFamily : Text := ['d', 'e', 'p', 'e', 'n', 'd', 's']

/-- `_ARCH_ARRAY_FAMILIES`. -/
def archArrayFamilies : List Text :=
  [dependsFamily, ['m', 'a', 'k', 'e'] ++ dependsFamily, ['c', 'h', 'e', 'c', 'k'] ++ dependsFamily,
    ['o', 'p', 't'] ++ dependsFamily, ['p', 'r', 'o', 'v', 'i', 'd', 'e', 's'],
    ['c', 'o', 'n', 'f', 'l', 'i', 'c', 't', 's'], ['r', 'e', 'p', 'l', 'a', 'c', 'e', 's']]

/-- `k.startswith(family + "_")`. -/
def isArchKey (family k : Text) : Bool := (family ++ ['_']).isPrefixOf k

/-- The key is the family's own or that of an architecture. -/
def inFamily (family k : Text) : Bool := k = family || isArchKey family k

/-- The items of an array; a scalar has none. -/
def itemsOf : Global → List Text
  | .scalar _ => []
  | .array items => items

/-- The inner loop of `_merge_arch_arrays`: `merged`, which holds what `seen` does. -/
def gatherFamily (family : Text) (g : Globals) : List Text :=
  g.items.foldl (fun merged p => if inFamily family p.1 then addNew merged (itemsOf p.2) else merged) []

/-- The outer loop of `_merge_arch_arrays`, for one family. -/
def mergeFamily (g : Globals) (family : Text) : Globals :=
  if gatherFamily family g ≠ [] then g.set family (.array (gatherFamily family g)) else g

/-- `_merge_arch_arrays`. -/
def mergeArchArrays (g : Globals) : Globals := archArrayFamilies.foldl mergeFamily g

/-! ## The entries of a family -/

/-- The entries of the family's own array. -/
def canonicalEntries (family : Text) (g : Globals) : List Text :=
  ((g.get family).map itemsOf).getD []

/-- The entries of the family's arrays for an architecture. -/
def archEntries (family : Text) (items : List (Text × Global)) : List Text :=
  (items.filter fun p => isArchKey family p.1).flatMap fun p => itemsOf p.2

/-- The entries of the arrays for an architecture that are defined before the family's own. -/
def earlierEntries (family : Text) (g : Globals) : List Text :=
  archEntries family (g.items.takeWhile fun p => p.1 ≠ family)

/-- The entries of all arrays of the family. -/
def familyEntries (family : Text) (items : List (Text × Global)) : List Text :=
  (items.filter fun p => inFamily family p.1).flatMap fun p => itemsOf p.2

section Entries

variable {family k : Text} {g : Globals} {v w : Global} {items l₁ l₂ : List (Text × Global)}

theorem familyEntries_cons_of_pos {p : Text × Global} (h : inFamily family p.1 = true) :
    familyEntries family (p :: items) = itemsOf p.2 ++ familyEntries family items := by
  rw [familyEntries, List.filter_cons, if_pos h, List.flatMap_cons]
  rfl

theorem familyEntries_cons_of_neg {p : Text × Global} (h : ¬inFamily family p.1 = true) :
    familyEntries family (p :: items) = familyEntries family items := by
  rw [familyEntries, List.filter_cons, if_neg h]
  rfl

theorem gatherFamily_eq (family : Text) (g : Globals) :
    gatherFamily family g = (familyEntries family g.items).eraseDups := by
  have hfold : ∀ (items : List (Text × Global)) (acc : List Text),
      items.foldl (fun merged p =>
        if inFamily family p.1 then addNew merged (itemsOf p.2) else merged) acc =
        addNew acc (familyEntries family items) := by
    intro items
    induction items with
    | nil => exact fun acc => rfl
    | cons p items ih =>
      intro acc
      rw [List.foldl_cons, ih]
      by_cases hp : inFamily family p.1 = true
      · rw [if_pos hp, familyEntries_cons_of_pos hp, addNew_append]
      · rw [if_neg hp, familyEntries_cons_of_neg hp]
  rw [gatherFamily, hfold, addNew_nil]

theorem familyEntries_append :
    familyEntries family (l₁ ++ l₂) = familyEntries family l₁ ++ familyEntries family l₂ := by
  rw [familyEntries, List.filter_append, List.flatMap_append]
  rfl

theorem archEntries_append :
    archEntries family (l₁ ++ l₂) = archEntries family l₁ ++ archEntries family l₂ := by
  rw [archEntries, List.filter_append, List.flatMap_append]
  rfl

/-- The own key is no key of an architecture. -/
theorem isArchKey_self : isArchKey family family = false := by
  rw [isArchKey, Bool.eq_false_iff, Ne, List.isPrefixOf_iff_prefix]
  intro h
  have hlen := h.length_le
  rw [List.length_append, List.length_singleton] at hlen
  omega

theorem familyEntries_cons_self :
    familyEntries family ((family, v) :: items) = itemsOf v ++ familyEntries family items :=
  familyEntries_cons_of_pos (by simp [inFamily])

theorem archEntries_cons_self :
    archEntries family ((family, v) :: items) = archEntries family items := by
  rw [archEntries, List.filter_cons, if_neg (ne_true_of_eq_false isArchKey_self)]
  rfl

/-- Without the own key all entries are of an architecture. -/
theorem familyEntries_of_notMem (h : family ∉ Assoc.keys items) :
    familyEntries family items = archEntries family items := by
  rw [familyEntries, archEntries]
  refine congrArg _ (List.filter_congr fun p hp => ?_)
  have hne : p.1 ≠ family := fun he => h (List.mem_map.mpr ⟨p, hp, he⟩)
  rw [inFamily, decide_eq_false hne, Bool.false_or]

theorem takeWhile_of_notMem (h : family ∉ Assoc.keys l₁) :
    (l₁ ++ l₂).takeWhile (fun p => decide (p.1 ≠ family)) =
      l₁ ++ l₂.takeWhile fun p => decide (p.1 ≠ family) := by
  refine List.takeWhile_append_of_pos fun p hp => decide_eq_true ?_
  exact fun he => h (List.mem_map.mpr ⟨p, hp, he⟩)

/-- **The entries of a family**: those before the own array, its own, and those after it. Another
value at the own key stands where the first did, or at the end. -/
theorem exists_later (family : Text) (g : Globals) :
    ∃ later, archEntries family g.items = earlierEntries family g ++ later ∧
      familyEntries family g.items =
        earlierEntries family g ++ (canonicalEntries family g ++ later) ∧
      ∀ v, familyEntries family (g.set family v).items =
        earlierEntries family g ++ (itemsOf v ++ later) := by
  by_cases hmem : family ∈ g.keys
  · obtain ⟨⟨f, w⟩, hp, rfl⟩ := List.mem_map.mp hmem
    obtain ⟨l₁, l₂, hitems⟩ := List.append_of_mem hp
    have hnodup := g.nodup
    rw [hitems, Assoc.keys_append, Assoc.keys_cons] at hnodup
    obtain ⟨-, hcons, hdisj⟩ := List.nodup_append.mp hnodup
    have h₁ : f ∉ Assoc.keys l₁ := fun h => hdisj f h f List.mem_cons_self rfl
    have h₂ : f ∉ Assoc.keys l₂ := (List.nodup_cons.mp hcons).1
    have hget : g.get f = some w := Dict.mem_items.mp hp
    have hearlier : earlierEntries f g = archEntries f l₁ := by
      rw [earlierEntries, hitems, takeWhile_of_notMem h₁, List.takeWhile_cons_of_neg (by simp),
        List.append_nil]
    refine ⟨archEntries f l₂, ?_, ?_, fun v => ?_⟩
    · rw [hearlier, hitems, archEntries_append, archEntries_cons_self]
    · rw [hearlier, canonicalEntries, hget, hitems, familyEntries_append, familyEntries_cons_self,
        familyEntries_of_notMem h₁, familyEntries_of_notMem h₂]
      rfl
    · have hset : (g.set f v).items = l₁ ++ (f, v) :: l₂ := by
        change Assoc.set f v g.items = _
        rw [hitems, Assoc.set_append_cons h₁]
      rw [hearlier, hset, familyEntries_append, familyEntries_cons_self,
        familyEntries_of_notMem h₁, familyEntries_of_notMem h₂]
  · have hearlier : earlierEntries family g = archEntries family g.items := by
      have htake := @takeWhile_of_notMem family g.items [] hmem
      rw [List.append_nil, List.takeWhile_nil, List.append_nil] at htake
      rw [earlierEntries, htake]
    refine ⟨[], ?_, ?_, fun v => ?_⟩
    · rw [hearlier, List.append_nil]
    · rw [hearlier, canonicalEntries, Dict.get_eq_none.mpr hmem, familyEntries_of_notMem hmem]
      exact (List.append_nil _).symm
    · have hset : (g.set family v).items = g.items ++ [(family, v)] := Assoc.set_of_notMem hmem
      rw [hearlier, hset, familyEntries_append, familyEntries_of_notMem hmem,
        familyEntries_cons_self]
      rfl

/-- A value at a key outside the family leaves its entries. -/
theorem familyEntries_set (h : inFamily family k = false) :
    familyEntries family (g.set k v).items = familyEntries family g.items := by
  have hassoc : ∀ items : List (Text × Global),
      familyEntries family (Assoc.set k v items) = familyEntries family items := by
    intro items
    have hneg : ∀ (w : Global) (l : List (Text × Global)),
        familyEntries family ((k, w) :: l) = familyEntries family l :=
      fun w l => familyEntries_cons_of_neg (ne_true_of_eq_false h)
    induction items with
    | nil => exact hneg v []
    | cons p items ih =>
      obtain ⟨k', w⟩ := p
      rw [Assoc.set]
      split_ifs with hk
      · rw [hneg, hk, hneg]
      · rw [← List.singleton_append, familyEntries_append, ih, ← familyEntries_append,
          List.singleton_append]
  exact hassoc g.items

end Entries

/-! ## One family after the other -/

section Merge

variable {family f k : Text} {g : Globals} {fs : List Text}

/-- The entries of a family's own array, in a dictionary where another is merged. -/
theorem get_mergeFamily_of_ne (h : k ≠ f) : (mergeFamily g f).get k = g.get k := by
  rw [mergeFamily]
  split_ifs
  · rw [Dict.get_set, if_neg h]
  · rfl

theorem familyEntries_mergeFamily (h : inFamily family f = false) :
    familyEntries family (mergeFamily g f).items = familyEntries family g.items := by
  rw [mergeFamily]
  split_ifs
  · exact familyEntries_set h
  · rfl

theorem get_foldl_of_notMem (h : k ∉ fs) : (fs.foldl mergeFamily g).get k = g.get k := by
  induction fs generalizing g with
  | nil => rfl
  | cons f fs ih =>
    rw [List.mem_cons, not_or] at h
    rw [List.foldl_cons, ih h.2, get_mergeFamily_of_ne h.1]

theorem familyEntries_foldl (h : ∀ f ∈ fs, inFamily family f = false) :
    familyEntries family (fs.foldl mergeFamily g).items = familyEntries family g.items := by
  induction fs generalizing g with
  | nil => rfl
  | cons f fs ih =>
    rw [List.foldl_cons, ih fun f' hf' => h f' (List.mem_cons_of_mem _ hf'),
      familyEntries_mergeFamily (h f List.mem_cons_self)]

/-- Merging a family once more finds what its own array holds. -/
theorem familyEntries_mergeFamily_self (family : Text) (g : Globals) :
    (familyEntries family (mergeFamily g family).items).eraseDups =
      (familyEntries family g.items).eraseDups := by
  rw [mergeFamily]
  split_ifs with h
  · obtain ⟨later, -, hall, hset⟩ := exists_later family g
    rw [hset, gatherFamily_eq, itemsOf]
    refine eraseDups_of_starts nodup_eraseDups ?_ fun a ha => ?_
    · rw [hall, eraseDups_append]
      exact starts_addNew
    · rw [List.mem_eraseDups, hall]
      exact List.mem_append_right _ (List.mem_append_right _ ha)
  · rfl

/-- No family's own key belongs to another family. -/
theorem inFamily_eq_false (hf : f ∈ archArrayFamilies) (hk : k ∈ archArrayFamilies) (h : k ≠ f) :
    inFamily f k = false := by
  have hall : (archArrayFamilies.all fun f => archArrayFamilies.all fun k =>
      k = f || !inFamily f k) = true := by decide
  have hfk := List.all_eq_true.mp (List.all_eq_true.mp hall f hf) k hk
  rw [decide_eq_false h, Bool.false_or, Bool.not_eq_true'] at hfk
  exact hfk

/-- The families before and after one of them. -/
theorem exists_append (hf : family ∈ archArrayFamilies) :
    ∃ fs fs', archArrayFamilies = fs ++ family :: fs' ∧ family ∉ fs' ∧ family ∉ fs ∧
      ∀ f ∈ fs ++ fs', inFamily family f = false := by
  have hnodup : archArrayFamilies.Nodup := by decide
  obtain ⟨fs, fs', happ⟩ := List.append_of_mem hf
  rw [happ] at hnodup
  obtain ⟨-, hcons, hdisj⟩ := List.nodup_append.mp hnodup
  have hfs : family ∉ fs := fun h => hdisj family h family List.mem_cons_self rfl
  have hfs' : family ∉ fs' := (List.nodup_cons.mp hcons).1
  refine ⟨fs, fs', happ, hfs', hfs, fun f hmem => inFamily_eq_false hf ?_ ?_⟩
  · rw [happ]
    rcases List.mem_append.mp hmem with h | h
    · exact List.mem_append_left _ h
    · exact List.mem_append_right _ (List.mem_cons_of_mem _ h)
  · rintro rfl
    exact (List.mem_append.mp hmem).elim hfs hfs'

/-- **What a family holds in the end**: its entries, each once, or what it held where it has none. -/
theorem get_mergeArchArrays (hf : family ∈ archArrayFamilies) (g : Globals) :
    (mergeArchArrays g).get family =
        (if (familyEntries family g.items).eraseDups ≠ [] then
          some (.array (familyEntries family g.items).eraseDups) else g.get family) ∧
      (familyEntries family (mergeArchArrays g).items).eraseDups =
        (familyEntries family g.items).eraseDups := by
  obtain ⟨fs, fs', happ, hfs', hfs, hout⟩ := exists_append hf
  have hbefore : familyEntries family (fs.foldl mergeFamily g).items =
      familyEntries family g.items :=
    familyEntries_foldl fun f h => hout f (List.mem_append_left _ h)
  constructor
  · rw [mergeArchArrays, happ, List.foldl_append, List.foldl_cons, get_foldl_of_notMem hfs',
      mergeFamily, gatherFamily_eq, hbefore]
    split_ifs
    · rw [Dict.get_set, if_pos rfl]
    · exact get_foldl_of_notMem hfs
  · rw [mergeArchArrays, happ, List.foldl_append, List.foldl_cons,
      familyEntries_foldl fun f h => hout f (List.mem_append_right _ h),
      familyEntries_mergeFamily_self, hbefore]

/-- Merged globals stay as they are. -/
theorem mergeFamily_of_merged (hf : family ∈ archArrayFamilies) (g : Globals) :
    mergeFamily (mergeArchArrays g) family = mergeArchArrays g := by
  obtain ⟨hget, hentries⟩ := get_mergeArchArrays hf g
  rw [mergeFamily, gatherFamily_eq, hentries]
  split_ifs with h
  · rw [if_pos h] at hget
    exact Dict.set_of_get hget
  · rfl

/-- **A second application changes nothing.** -/
theorem mergeArchArrays_merged (g : Globals) :
    mergeArchArrays (mergeArchArrays g) = mergeArchArrays g := by
  have hfold : ∀ fs : List Text, fs ⊆ archArrayFamilies →
      fs.foldl mergeFamily (mergeArchArrays g) = mergeArchArrays g := by
    intro fs
    induction fs with
    | nil => exact fun _ => List.foldl_nil
    | cons f fs ih =>
      intro h
      rw [List.foldl_cons, mergeFamily_of_merged (h List.mem_cons_self)]
      exact ih fun f' hf' => h (List.mem_cons_of_mem _ hf')
  exact hfold archArrayFamilies (List.Subset.refl _)

/-- The own keys of the families are all that is touched. -/
theorem get_mergeArchArrays_of_notMem (h : k ∉ archArrayFamilies) :
    (mergeArchArrays g).get k = g.get k := by
  rw [mergeArchArrays]
  exact get_foldl_of_notMem h

end Merge

/-! ## The order of the entries -/

section Order

variable {family : Text} {g : Globals}

/-- The family's own array holds its entries first and then those of its arrays for an architecture
in the order of the dictionary, each value once; merging again changes nothing, and no key but the
own ones of the families is touched. -/
def Merges (family : Text) (g : Globals) : Prop :=
  canonicalEntries family (mergeArchArrays g) =
      (canonicalEntries family g ++ archEntries family g.items).eraseDups ∧
    mergeArchArrays (mergeArchArrays g) = mergeArchArrays g ∧
    (∀ k ∉ archArrayFamilies, (mergeArchArrays g).get k = g.get k)

theorem canonicalEntries_mergeArchArrays (hf : family ∈ archArrayFamilies) :
    canonicalEntries family (mergeArchArrays g) = (familyEntries family g.items).eraseDups := by
  rw [canonicalEntries, (get_mergeArchArrays hf g).1]
  split_ifs with h
  · rfl
  · obtain ⟨later, -, hall, -⟩ := exists_later family g
    rw [not_not] at h
    have hnone : canonicalEntries family g = [] := by
      refine List.eq_nil_iff_forall_not_mem.mpr fun a ha => ?_
      have hmem : a ∈ (familyEntries family g.items).eraseDups := by
        rw [List.mem_eraseDups, hall]
        exact List.mem_append_right _ (List.mem_append_left _ ha)
      rw [h] at hmem
      exact absurd hmem List.not_mem_nil
    rw [h]
    exact hnone

/-- **The canonical entries come first** exactly where the distinct entries of the family's own
array and of the arrays that are defined before it begin with each other. -/
theorem mergeArchArrays_iff (hf : family ∈ archArrayFamilies) :
    Merges family g ↔
      (earlierEntries family g).eraseDups <+: (canonicalEntries family g).eraseDups ∨
        (canonicalEntries family g).eraseDups <+: (earlierEntries family g).eraseDups := by
  obtain ⟨later, harch, hall, -⟩ := exists_later family g
  have hiff := @eraseDups_append_comm_iff _ _ (earlierEntries family g) (canonicalEntries family g)
    later _
  rw [← hiff, ← hall, ← harch, ← canonicalEntries_mergeArchArrays hf]
  exact ⟨And.left, fun h => ⟨h, mergeArchArrays_merged g, fun k => get_mergeArchArrays_of_notMem⟩⟩

/-- `depends=(b)` -/
def dependsB : Text × Global := (dependsFamily, .array [['b']])

/-- `depends_any=(a)` -/
def dependsAnyA : Text × Global := (dependsFamily ++ ['_', 'a', 'n', 'y'], .array [['a']])

theorem merges_depends : Merges dependsFamily (.ofItems [dependsB, dependsAnyA]) :=
  (mergeArchArrays_iff List.mem_cons_self).mpr (.inl (by decide))

/-- The same two arrays the other way round: the entry of the architecture comes first. -/
theorem not_merges_depends : ¬Merges dependsFamily (.ofItems [dependsAnyA, dependsB]) := by
  rintro ⟨h, -⟩
  exact absurd h (by decide)

end Order

end Sysforge.Pkgbuild
