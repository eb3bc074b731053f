import Sysforge.Aur.Resolve
import Sysforge.Foundations.TopologicalSorter
import Sysforge.Install.BuildAndInstall

/-!
# The order of a batch

`orderTargets` follows `_order_targets_by_intra_deps`: a name that targets list as `pkgname` or
`provides` belongs to the first of them, a target depends on the owners of the names in its
dependency arrays, and `graphlib` sorts the batch by that relation. A target may own, by a
`provides`, the name that a later target has as its `pkgname`; the batch is then ordered by the
wrong member. `orderTargets_ordered` says exactly when the order is the right one.
-/

namespace Sysforge.Install.BatchOrder

open TopologicalSorter
open Aur (looksUnresolved stripVersion)

/-! ## The batch -/

/-- The arrays of a PKGBUILD that order a batch. -/
structure Globals where
  depends : List String := []
  makedepends : List String := []
  checkdepends : List String := []
  provides : List String := []

/-- A target with the globals of its PKGBUILD, `none` where `parse_pkgbuild` raises. -/
structure Member extends Target where
  globals : Option Globals

/-- The names of some specs; one that still carries shell syntax has none. -/
def specNames (specs : List String) : List String :=
  (specs.filter fun s => !looksUnresolved s).map stripVersion

namespace Member

/-- The names in the dependency arrays. -/
def needs (t : Member) : List String :=
  let g := t.globals.getD {}
  specNames (g.depends ++ g.makedepends ++ g.checkdepends)

/-- The names in `provides`. -/
def provides (t : Member) : List String := specNames (t.globals.getD {}).provides

end Member

/-- `provider_of`. -/
def providerOf (targets : List Member) : Dict String String :=
  targets.foldl (fun d t =>
    (t.pkgnames ++ t.provides).foldl (fun d n => d.setdefault n t.pkgbase) d) Dict.empty

/-- `dep_bases` of a target, a set. -/
def depBases (targets : List Member) (t : Member) : List String :=
  ((t.needs.filterMap (providerOf targets).get).filter fun b => b ≠ t.pkgbase).dedup

/-- `intra_deps`. -/
def intraDeps (targets : List Member) : Dict String (List String) :=
  targets.foldl (fun d t => let bases := depBases targets t
    if bases = [] then d else d.set t.pkgbase bases) Dict.empty

/-- The members that `intra_deps` records for a target. -/
def recorded (d : Dict String (List String)) (b : String) : List String := (d.get b).getD []

/-- `by_pkgbase`. -/
def byPkgbase (targets : List Member) : Dict String Member :=
  .ofItems (targets.map fun t => (t.pkgbase, t))

/-- The arguments of `sorter.add`. -/
def additions (targets : List Member) (d : Dict String (List String)) :
    List (String × List String) :=
  targets.map fun t => (t.pkgbase, (recorded d t.pkgbase).insertionSort fun a b => a ≤ b)

/-- `_order_targets_by_intra_deps`. -/
def orderTargets (targets : List Member) : List Member × Dict String (List String) :=
  if targets.length < 2 then (targets, Dict.empty) else
  let intra := intraDeps targets
  if intra.keys = [] then (targets, Dict.empty) else
  match staticOrder (additions targets intra) with
  | none => (targets, intra)
  | some names => (names.filterMap (byPkgbase targets).get, intra)

/-! ## What depends on what -/

/-- One of the names `t` needs is a `pkgname` of `u`, or `u` provides it and it is the `pkgname`
of no member besides `t`. -/
def Needs (targets : List Member) (t u : Member) : Prop :=
  u.pkgbase ≠ t.pkgbase ∧ ∃ n ∈ t.needs, n ∈ u.pkgnames ∨
    n ∈ u.provides ∧ ∀ v ∈ targets, v.pkgbase ≠ t.pkgbase → n ∉ v.pkgnames

instance (targets : List Member) (t u : Member) : Decidable (Needs targets t u) :=
  inferInstanceAs (Decidable (u.pkgbase ≠ t.pkgbase ∧ ∃ n ∈ t.needs, n ∈ u.pkgnames ∨
    n ∈ u.provides ∧ ∀ v ∈ targets, v.pkgbase ≠ t.pkgbase → n ∉ v.pkgnames))

/-- Of the members that have or provide one of the names `t` needs, `u` is the first. -/
def Reaches (targets : List Member) (t u : Member) : Prop :=
  u.pkgbase ≠ t.pkgbase ∧ ∃ n ∈ t.needs,
    targets.find? (fun v => n ∈ v.pkgnames ++ v.provides) = some u

/-- A relation of members as one of their pkgbases. -/
def Between (targets : List Member) (r : Member → Member → Prop) (b c : String) : Prop :=
  ∃ t ∈ targets, ∃ u ∈ targets, t.pkgbase = b ∧ u.pkgbase = c ∧ r t u

/-- The batch members that a member depends on. -/
def DependsOn (targets : List Member) : String → String → Prop := Between targets (Needs targets)

/-- The batch members that the names of a member reach first. -/
def Reached (targets : List Member) : String → String → Prop := Between targets (Reaches targets)

/-- What an order and the recorded members should be. -/
structure Ordered (targets : List Member) (r : List Member × Dict String (List String)) : Prop where
  perm : r.1.Perm targets
  /-- No member stands before one it depends on. -/
  respects : Acyclic (DependsOn targets) →
    r.1.Pairwise fun t u => ¬ DependsOn targets t.pkgbase u.pkgbase
  records : Acyclic (DependsOn targets) →
    ∀ t ∈ targets, ∀ c, c ∈ recorded r.2 t.pkgbase ↔ DependsOn targets t.pkgbase c
  cyclic : ¬ Acyclic (DependsOn targets) → r.1 = targets

/-- The last member that a target reaches stands no later than that of a later target: any first
part of the list that holds the ones holds the others. -/
def InOrder (targets : List Member) : Prop :=
  ∀ k, (targets.map fun t => t.pkgbase).Pairwise fun b c =>
    (∀ d, Reached targets c d → d ∈ (targets.map fun t => t.pkgbase).take k) →
      ∀ d, Reached targets b d → d ∈ (targets.map fun t => t.pkgbase).take k

/-- The members that the names reach are those the targets depend on; with a cycle of those, they
have a cycle too, or the list is in their order already. -/
structure Agrees (targets : List Member) : Prop where
  acyclic : Acyclic (DependsOn targets) →
    ∀ b c, Reached targets b c ↔ DependsOn targets b c
  cyclic : ¬ Acyclic (DependsOn targets) → Acyclic (Reached targets) → InOrder targets

/-! ## The recorded members -/

section Recorded

variable {targets : List Member} {t u : Member} {n b c : String}

theorem get_setdefaults (ns : List String) (v : String) (d : Dict String String) :
    (ns.foldl (fun d n => d.setdefault n v) d).get n =
      (d.get n).or (if n ∈ ns then some v else none) := by
  induction ns generalizing d with
  | nil => rw [List.foldl_nil, if_neg List.not_mem_nil, Option.or_none]
  | cons m ns ih =>
    rw [List.foldl_cons, ih, Dict.get_setdefault, Option.or_assoc]
    congr 1
    by_cases h : n = m
    · rw [if_pos h, Option.some_or, if_pos (h ▸ List.mem_cons_self)]
    · rw [if_neg h, Option.none_or]
      refine if_congr ?_ rfl rfl
      rw [List.mem_cons, or_iff_right h]

/-- A name belongs to the first member that has or provides it. -/
theorem get_providerOf : (providerOf targets).get n =
    (targets.find? fun v => n ∈ v.pkgnames ++ v.provides).map fun v => v.pkgbase := by
  have h : ∀ (l : List Member) (d : Dict String String),
      (l.foldl (fun d t => (t.pkgnames ++ t.provides).foldl
        (fun d n => d.setdefault n t.pkgbase) d) d).get n =
      (d.get n).or ((l.find? fun v => n ∈ v.pkgnames ++ v.provides).map fun v => v.pkgbase) := by
    intro l
    induction l with
    | nil => exact fun d => (Option.or_none).symm
    | cons t l ih =>
      intro d
      rw [List.foldl_cons, ih, get_setdefaults, Option.or_assoc, List.find?_cons]
      congr 1
      by_cases hn : n ∈ t.pkgnames ++ t.provides
      · rw [if_pos hn, decide_eq_true hn, Option.some_or, Option.map_some]
      · rw [if_neg hn, decide_eq_false hn, Option.none_or]
  exact (h targets Dict.empty).trans Option.none_or

theorem mem_depBases : c ∈ depBases targets t ↔ ∃ u, Reaches targets t u ∧ u.pkgbase = c := by
  simp only [depBases, List.mem_dedup, List.mem_filter, List.mem_filterMap, get_providerOf,
    decide_eq_true_iff, Option.map_eq_some_iff, Reaches]
  constructor
  · rintro ⟨⟨n, hn, u, hu, rfl⟩, hne⟩
    exact ⟨u, ⟨hne, n, hn, hu⟩, rfl⟩
  · rintro ⟨u, ⟨hne, n, hn, hu⟩, rfl⟩
    exact ⟨⟨n, hn, u, hu, rfl⟩, hne⟩

/-- What one target adds to `intra_deps`. -/
theorem get_intraStep (d : Dict String (List String)) (f : Member → List String) :
    (if f t = [] then d else d.set t.pkgbase (f t)).get b =
      if b = t.pkgbase ∧ f t ≠ [] then some (f t) else d.get b := by
  by_cases h : f t = []
  · rw [if_pos h, if_neg fun hb => hb.2 h]
  · rw [if_neg h, Dict.get_set]
    exact if_congr (and_iff_left h).symm rfl rfl

theorem get_intraFold {l : List Member} (f : Member → List String)
    (hl : (l.map fun t => t.pkgbase).Nodup) (d : Dict String (List String)) :
    (b ∉ l.map (fun t => t.pkgbase) →
      (l.foldl (fun d t => if f t = [] then d else d.set t.pkgbase (f t)) d).get b = d.get b) ∧
    ((∀ t ∈ l, d.get t.pkgbase = none) → ∀ t ∈ l, recorded
      (l.foldl (fun d t => if f t = [] then d else d.set t.pkgbase (f t)) d) t.pkgbase = f t) := by
  induction l generalizing b d with
  | nil => exact ⟨fun _ => rfl, fun _ t ht => absurd ht List.not_mem_nil⟩
  | cons s l ih =>
    rw [List.map_cons, List.nodup_cons] at hl
    rw [List.map_cons, List.mem_cons, not_or, List.foldl_cons]
    refine ⟨fun hb => ?_, fun hd t ht => ?_⟩
    · rw [(ih hl.2 _).1 hb.2, get_intraStep, if_neg fun h => hb.1 h.1]
    · rcases List.mem_cons.mp ht with rfl | ht
      · rw [recorded, (ih hl.2 _).1 hl.1, get_intraStep, hd t ht]
        by_cases hf : f t = []
        · rw [if_neg fun h => h.2 hf, hf]
          rfl
        · rw [if_pos ⟨rfl, hf⟩]
          rfl
      · refine (@ih b hl.2 _).2 (fun t ht => ?_) t ht
        have hne : t.pkgbase ≠ s.pkgbase := fun h =>
          hl.1 (h ▸ List.mem_map_of_mem (f := fun t => t.pkgbase) ht)
        rw [get_intraStep, if_neg fun h => hne h.1, hd t (List.mem_cons_of_mem _ ht)]

theorem recorded_intraDeps (hn : (targets.map fun t => t.pkgbase).Nodup) (ht : t ∈ targets) :
    recorded (intraDeps targets) t.pkgbase = depBases targets t :=
  (@get_intraFold t.pkgbase _ _ hn Dict.empty).2 (fun _ _ => rfl) t ht

theorem reached_iff (hn : (targets.map fun t => t.pkgbase).Nodup) (ht : t ∈ targets) :
    Reached targets t.pkgbase c ↔ c ∈ depBases targets t := by
  rw [mem_depBases]
  constructor
  · rintro ⟨s, hs, u, -, he, rfl, hr⟩
    exact ⟨u, List.inj_on_of_nodup_map hn hs ht he ▸ hr, rfl⟩
  · rintro ⟨u, hr, rfl⟩
    obtain ⟨-, n, -, hu⟩ := id hr
    exact ⟨t, ht, u, List.mem_of_find?_eq_some hu, rfl, rfl, hr⟩

theorem mem_recorded (hn : (targets.map fun t => t.pkgbase).Nodup) (ht : t ∈ targets) :
    c ∈ recorded (intraDeps targets) t.pkgbase ↔ Reached targets t.pkgbase c := by
  rw [recorded_intraDeps hn ht, reached_iff hn ht]

/-- A single target reaches no other. -/
theorem not_reached_of_length (h : targets.length < 2) : ¬ Reached targets b c := by
  rintro ⟨t, ht, u, hu, -, -, hne, -⟩
  match targets, h with
  | [], _ => cases ht
  | [v], _ =>
    rw [List.mem_singleton] at ht hu
    exact hne (by rw [ht, hu])

theorem not_reached_of_keys (hn : (targets.map fun t => t.pkgbase).Nodup)
    (h : (intraDeps targets).keys = []) : ¬ Reached targets b c := by
  intro hr
  obtain ⟨t, ht, -, -, rfl, -⟩ := id hr
  rw [← mem_recorded hn ht, recorded, Dict.get_eq_none.mpr (by simp [h])] at hr
  cases hr

end Recorded

/-! ## The order -/

section Order

variable {targets : List Member} {t u : Member} {n b c : String}

/-- The additions to the sorter. -/
def batch (targets : List Member) (hn : (targets.map fun t => t.pkgbase).Nodup) :
    Additions String where
  items := additions targets (intraDeps targets)
  nodup := by
    rw [additions, Assoc.keys, List.map_map]
    exact hn
  nodup_preds p hp := by
    obtain ⟨t, ht, rfl⟩ := List.mem_map.mp hp
    rw [recorded_intraDeps hn ht]
    exact (List.perm_insertionSort _ _).nodup_iff.mpr (List.nodup_dedup _)
  closed p hp q hq := by
    obtain ⟨t, ht, rfl⟩ := List.mem_map.mp hp
    obtain ⟨-, -, u, hu, -, rfl, -⟩ := (mem_recorded hn ht).mp ((List.mem_insertionSort _).mp hq)
    exact List.mem_map_of_mem (f := Prod.fst) (List.mem_map_of_mem hu)

theorem nodes_batch (hn : (targets.map fun t => t.pkgbase).Nodup) :
    (batch targets hn).nodes = targets.map fun t => t.pkgbase := by
  show List.map Prod.fst (List.map _ targets) = _
  rw [List.map_map]
  rfl

theorem edge_batch (hn : (targets.map fun t => t.pkgbase).Nodup) :
    (batch targets hn).Edge = Function.swap (Reached targets) := by
  funext c b
  refine propext ⟨fun h => ?_, fun h => ?_⟩
  · obtain ⟨t, ht, rfl⟩ := List.mem_map.mp (nodes_batch hn ▸ (Additions.mem_nodes_of_edge h).2)
    have hp : _ ∈ (batch targets hn).items := List.mem_map_of_mem ht
    rw [Additions.Edge, Additions.preds_of_mem hp] at h
    exact (mem_recorded hn ht).mp ((List.mem_insertionSort _).mp h)
  · obtain ⟨t, ht, -, -, rfl, -⟩ := id h
    have hp : _ ∈ (batch targets hn).items := List.mem_map_of_mem ht
    rw [Additions.Edge, Additions.preds_of_mem hp]
    exact (List.mem_insertionSort _).mpr ((mem_recorded hn ht).mpr h)

theorem acyclic_batch (hn : (targets.map fun t => t.pkgbase).Nodup) :
    Acyclic (batch targets hn).Edge ↔ Acyclic (Reached targets) := by
  rw [edge_batch]
  exact forall_congr' fun b => not_congr Relation.transGen_swap

theorem settled_batch (hn : (targets.map fun t => t.pkgbase).Nodup) :
    (batch targets hn).Settled ↔ InOrder targets := by
  have he (d b : String) : d ∈ (batch targets hn).preds b ↔ Reached targets b d :=
    iff_of_eq (congrFun (congrFun (edge_batch hn) d) b)
  simp only [Additions.Settled, Additions.Released, InOrder, nodes_batch, he]

theorem get_byPkgbase (hn : (targets.map fun t => t.pkgbase).Nodup) (ht : t ∈ targets) :
    (byPkgbase targets).get t.pkgbase = some t := by
  have hk : (Assoc.keys (targets.map fun t => (t.pkgbase, t))).Nodup := by
    rw [Assoc.keys, List.map_map]
    exact hn
  refine Dict.mem_items.mp ?_
  rw [byPkgbase, Dict.items_ofItems hk]
  exact List.mem_map_of_mem ht

/-- The targets of a list of their pkgbases. -/
theorem map_targets (hn : (targets.map fun t => t.pkgbase).Nodup) {names : List String}
    (h : ∀ n ∈ names, n ∈ targets.map fun t => t.pkgbase) :
    (names.filterMap (byPkgbase targets).get).map (fun t => t.pkgbase) = names := by
  induction names with
  | nil => rfl
  | cons n names ih =>
    obtain ⟨hb, hnames⟩ := List.forall_mem_cons.mp h
    obtain ⟨t, ht, rfl⟩ := List.mem_map.mp hb
    rw [List.filterMap_cons_some (get_byPkgbase hn ht), List.map_cons, ih hnames]

theorem targets_of_pkgbases (hn : (targets.map fun t => t.pkgbase).Nodup) :
    (targets.map fun t => t.pkgbase).filterMap (byPkgbase targets).get = targets := by
  have h : ∀ l : List Member, (∀ t ∈ l, t ∈ targets) →
      (l.map fun t => t.pkgbase).filterMap (byPkgbase targets).get = l := by
    intro l hl
    induction l with
    | nil => rfl
    | cons t l ih =>
      obtain ⟨ht, hl⟩ := List.forall_mem_cons.mp hl
      rw [List.map_cons, List.filterMap_cons_some (get_byPkgbase hn ht), ih hl]
  exact h targets fun _ ht => ht

/-- What `_order_targets_by_intra_deps` returns. -/
theorem orderTargets_cases (hn : (targets.map fun t => t.pkgbase).Nodup) :
    (∀ t ∈ targets, ∀ c,
      c ∈ recorded (orderTargets targets).2 t.pkgbase ↔ Reached targets t.pkgbase c) ∧
    ((∀ b c, ¬ Reached targets b c) ∧ (orderTargets targets).1 = targets ∨
      staticOrder (batch targets hn).items = none ∧ (orderTargets targets).1 = targets ∨
      ∃ names, staticOrder (batch targets hn).items = some names ∧
        (orderTargets targets).1 = names.filterMap (byPkgbase targets).get) := by
  rw [orderTargets]
  by_cases hlen : targets.length < 2
  · rw [if_pos hlen]
    exact ⟨fun t _ c => iff_of_false List.not_mem_nil (not_reached_of_length hlen),
      .inl ⟨fun b c => not_reached_of_length hlen, rfl⟩⟩
  rw [if_neg hlen]
  dsimp only
  by_cases hkeys : (intraDeps targets).keys = []
  · rw [if_pos hkeys]
    exact ⟨fun t _ c => iff_of_false List.not_mem_nil (not_reached_of_keys hn hkeys),
      .inl ⟨fun b c => not_reached_of_keys hn hkeys, rfl⟩⟩
  rw [if_neg hkeys]
  cases h : staticOrder (additions targets (intraDeps targets)) with
  | none => exact ⟨fun t ht c => mem_recorded hn ht, .inr (.inl ⟨h, rfl⟩)⟩
  | some names => exact ⟨fun t ht c => mem_recorded hn ht, .inr (.inr ⟨names, h, rfl⟩)⟩

/-- With a cycle the list is returned as it is. -/
theorem orderTargets_cyclic (hn : (targets.map fun t => t.pkgbase).Nodup)
    (hc : ¬ Acyclic (Reached targets)) : (orderTargets targets).1 = targets := by
  rcases (orderTargets_cases hn).2 with ⟨-, h⟩ | ⟨-, h⟩ | ⟨names, h, -⟩
  · exact h
  · exact h
  · rw [Additions.staticOrder_eq_none.mpr ((acyclic_batch hn).not.mpr hc)] at h
    cases h

/-- Without a cycle no target stands before one that it reaches, and the list is returned as it is
only if it is in order. -/
theorem orderTargets_acyclic (hn : (targets.map fun t => t.pkgbase).Nodup)
    (ha : Acyclic (Reached targets)) : (orderTargets targets).1.Perm targets ∧
      ((orderTargets targets).1.Pairwise fun t u => ¬ Reached targets t.pkgbase u.pkgbase) ∧
      ((orderTargets targets).1 = targets ↔ InOrder targets) := by
  have hb := (acyclic_batch hn).mpr ha
  rcases (orderTargets_cases hn).2 with ⟨hno, h⟩ | ⟨h, -⟩ | ⟨names, hs, h⟩
  · rw [h]
    refine ⟨.refl _, List.pairwise_of_forall_mem_list fun _ _ _ _ => hno _ _, ?_⟩
    refine iff_of_true rfl fun k => List.pairwise_of_forall_mem_list fun b _ _ _ _ d hd => ?_
    exact absurd hd (hno b d)
  · exact absurd hb (Additions.staticOrder_eq_none.mp h)
  · obtain ⟨hperm, hpair⟩ := Additions.staticOrder_perm hs
    rw [nodes_batch] at hperm
    have hmap := map_targets hn fun n hm => hperm.mem_iff.mp hm
    rw [h]
    refine ⟨?_, ?_, ?_⟩
    · have hp := hperm.filterMap (byPkgbase targets).get
      rwa [targets_of_pkgbases hn] at hp
    · rw [← hmap, edge_batch] at hpair
      exact List.pairwise_map.mp hpair
    · rw [← settled_batch hn, ← Additions.staticOrder_nodes_iff hb, nodes_batch, hs,
        Option.some_inj]
      constructor
      · intro he
        rw [← hmap, he]
      · intro he
        rw [he, targets_of_pkgbases hn]

/-- **The order of a batch** is a permutation that respects the dependencies of its members, which
are recorded, and keeps a cyclic batch as it is, if and only if each name that decides belongs to
the member the target depends on. -/
theorem orderTargets_ordered (targets : List Member)
    (hn : (targets.map fun t => t.pkgbase).Nodup) :
    Ordered targets (orderTargets targets) ↔ Agrees targets := by
  have hrec := (orderTargets_cases hn).1
  constructor
  · intro h
    refine ⟨fun ha b c => ?_, fun hc ha => ?_⟩
    · have hb (t : Member) (ht : t ∈ targets) :
          Reached targets t.pkgbase c ↔ DependsOn targets t.pkgbase c :=
        (hrec t ht c).symm.trans (h.records ha t ht c)
      constructor
      · intro hr
        obtain ⟨t, ht, -, -, rfl, -⟩ := id hr
        exact (hb t ht).mp hr
      · intro hr
        obtain ⟨t, ht, -, -, rfl, -⟩ := id hr
        exact (hb t ht).mpr hr
    · exact (orderTargets_acyclic hn ha).2.2.mp (h.cyclic hc)
  · intro h
    have heq (ha : Acyclic (DependsOn targets)) : Reached targets = DependsOn targets :=
      funext fun b => funext fun c => propext (h.acyclic ha b c)
    refine ⟨?_, fun ha => ?_, fun ha t ht c => ?_, fun hc => ?_⟩
    · by_cases ha : Acyclic (Reached targets)
      · exact (orderTargets_acyclic hn ha).1
      · rw [orderTargets_cyclic hn ha]
    · have hr := heq ha
      rw [← hr] at ha ⊢
      exact (orderTargets_acyclic hn ha).2.1
    · rw [hrec t ht, heq ha]
    · by_cases ha : Acyclic (Reached targets)
      · exact (orderTargets_acyclic hn ha).2.2.mpr (h.cyclic hc ha)
      · exact orderTargets_cyclic hn ha

end Order

/-- Two members, the first of which needs the second. -/
theorem orderTargets_ordered_two :
    Ordered [{ pkgbase := "vulkan-icd-loader", pkgnames := ["vulkan-icd-loader"]
               globals := some { makedepends := ["vulkan-headers>=1.4"] } },
             { pkgbase := "vulkan-headers", pkgnames := ["vulkan-headers"], globals := none }]
        (orderTargets
          [{ pkgbase := "vulkan-icd-loader", pkgnames := ["vulkan-icd-loader"]
             globals := some { makedepends := ["vulkan-headers>=1.4"] } },
           { pkgbase := "vulkan-headers", pkgnames := ["vulkan-headers"], globals := none }]) ↔
      Agrees [{ pkgbase := "vulkan-icd-loader", pkgnames := ["vulkan-icd-loader"]
                globals := some { makedepends := ["vulkan-headers>=1.4"] } },
              { pkgbase := "vulkan-headers", pkgnames := ["vulkan-headers"], globals := none }] :=
  orderTargets_ordered _ (by decide)

/-- A member that provides the name of a later one, on which it is built. -/
def compatBatch : List Member :=
  [{ pkgbase := "libfoo-compat", pkgnames := ["libfoo-compat"]
     globals := some { provides := ["libfoo=1"] } },
   { pkgbase := "app", pkgnames := ["app"], globals := some { depends := ["libfoo"] } },
   { pkgbase := "libfoo", pkgnames := ["libfoo"]
     globals := some { makedepends := ["libfoo-compat"] } }]

/-- The application is built before the library that it depends on. -/
theorem orderTargets_compat : ¬ Ordered compatBatch (orderTargets compatBatch) := by
  intro h
  have ha : Acyclic (DependsOn compatBatch) := by
    have hrank : ∀ t ∈ compatBatch, ∀ u ∈ compatBatch, Needs compatBatch t u →
        ["libfoo-compat", "libfoo", "app"].idxOf u.pkgbase <
          ["libfoo-compat", "libfoo", "app"].idxOf t.pkgbase := by decide
    refine .of_rank (fun b => ["libfoo-compat", "libfoo", "app"].idxOf b) fun b c hbc => ?_
    obtain ⟨t, ht, u, hu, rfl, rfl, hn⟩ := hbc
    exact hrank t ht u hu hn
  have hpair : ((orderTargets compatBatch).1.map fun t => t.pkgbase).Pairwise
      fun b c => ¬ DependsOn compatBatch b c := List.pairwise_map.mpr (h.respects ha)
  have horder : (orderTargets compatBatch).1.map (fun t => t.pkgbase) =
      ["libfoo-compat", "app", "libfoo"] := by decide
  rw [horder] at hpair
  have hno := (List.pairwise_cons.mp (List.pairwise_cons.mp hpair).2).1 "libfoo"
    List.mem_cons_self
  have hneeds : ∃ t ∈ compatBatch, ∃ u ∈ compatBatch, t.pkgbase = "app" ∧ u.pkgbase = "libfoo" ∧
      Needs compatBatch t u := by decide
  exact hno hneeds

end Sysforge.Install.BatchOrder
