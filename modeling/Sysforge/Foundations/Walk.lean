import Mathlib.Data.Set.Insert
import Mathlib.Logic.Relation
import Sysforge.Foundations.Dict

/-!
# Depth-first walks over batches

A node of a graph comes with a batch of occurrences of other nodes. An occurrence either needs the
node or only mentions it, and a node whose first occurrence mentions it is closed. A walk visits
the needed nodes of a batch in turn, each after the batch of its own, and appends each to an order
when its visit ends. Which nodes of a batch are skipped is decided once, when the batch begins.

`Sound` says when such a walk is a sound order: read on the graph alone, no needed node is closed
by a mention first, and none is met through an earlier node of its own batch. `Call.sorted_iff` is
the equivalence, by one induction over the walk.
-/

namespace Sysforge.Walk

variable {ν α β γ : Type*} [DecidableEq ν] [DecidableEq α]

/-! ## First occurrences -/

/-- The first entry of each key. -/
def keepFirst : List (α × β) → List (α × β)
  | [] => []
  | p :: l => p :: (keepFirst l).filter fun q => q.1 ≠ p.1

theorem mem_keepFirst {p : α × β} {l : List (α × β)} :
    p ∈ keepFirst l ↔ l.lookup p.1 = some p.2 := by
  induction l with
  | nil => simp [keepFirst]
  | cons q l ih =>
    obtain ⟨k, v⟩ := p
    obtain ⟨k', v'⟩ := q
    rw [keepFirst, Assoc.lookup_cons_eq, List.mem_cons, List.mem_filter, ih]
    by_cases h : k = k'
    · subst h
      simp [eq_comm]
    · simp [h]

theorem nodup_keepFirst (l : List (α × β)) : (Assoc.keys (keepFirst l)).Nodup := by
  induction l with
  | nil => simp [keepFirst]
  | cons q l ih =>
    rw [keepFirst, Assoc.keys_cons, List.nodup_cons]
    refine ⟨?_, ih.sublist (List.filter_sublist.map _)⟩
    simp [Assoc.keys]

theorem keepFirst_filter (f : α → Bool) (l : List (α × β)) :
    keepFirst (l.filter fun p => f p.1) = (keepFirst l).filter fun p => f p.1 := by
  induction l with
  | nil => rfl
  | cons q l ih =>
    cases h : f q.1 with
    | true =>
      rw [List.filter_cons_of_pos (by exact h), keepFirst, keepFirst, ih,
        List.filter_cons_of_pos (by exact h)]
      simp only [List.filter_filter, Bool.and_comm]
    | false =>
      rw [List.filter_cons_of_neg (by simp [h]), keepFirst, ih,
        List.filter_cons_of_neg (by simp [h]), List.filter_filter]
      refine List.filter_congr fun p _ => ?_
      by_cases hp : p.1 = q.1
      · simp [hp, h]
      · simp [hp]

theorem keepFirst_map (f : β → γ) (l : List (α × β)) :
    keepFirst (l.map fun p => (p.1, f p.2)) = (keepFirst l).map fun p => (p.1, f p.2) := by
  induction l with
  | nil => rfl
  | cons q l ih =>
    rw [List.map_cons, keepFirst, keepFirst, ih, List.map_cons, List.filter_map]
    rfl

/-! ## Walks -/

/-- The occurrences of a batch, with `true` where the node is needed. -/
abbrev Batch (ν : Type*) := List (ν × Bool)

/-- The nodes whose first occurrence needs them. -/
def wanted (b : Batch ν) : List ν := ((keepFirst b).filter Prod.snd).map Prod.fst

theorem mem_wanted {b : Batch ν} {n : ν} : n ∈ wanted b ↔ b.lookup n = some true := by
  rw [wanted, List.mem_map]
  constructor
  · intro h
    obtain ⟨⟨k, v⟩, hp, rfl⟩ := h
    rw [List.mem_filter] at hp
    have hv : v = true := hp.2
    rw [← hv]
    exact mem_keepFirst.mp hp.1
  · intro h
    exact ⟨(n, true), List.mem_filter.mpr ⟨mem_keepFirst.mpr h, rfl⟩, rfl⟩

/-- Some occurrence in the batch needs `n`. -/
def Needs (b : Batch ν) (n : ν) : Prop := (n, true) ∈ b

theorem needs_of_mem_wanted {b : Batch ν} {n : ν} (h : n ∈ wanted b) : Needs b n :=
  Assoc.mem_of_lookup (mem_wanted.mp h)

theorem lookup_of_needs {b : Batch ν} {n : ν} (h : Needs b n) (hf : b.lookup n ≠ some false) :
    b.lookup n = some true := by
  cases hl : b.lookup n with
  | none => exact absurd (List.mem_map_of_mem h) (Assoc.lookup_eq_none.mp hl)
  | some v =>
    cases v with
    | true => rfl
    | false => exact absurd hl hf

/-- What a walk has closed and the order it has built. -/
@[ext] structure State (ν : Type*) where
  closed : Set ν
  order : List ν

/-- Close the nodes that a batch mentions first. -/
def State.mark (s : State ν) (b : Batch ν) : State ν :=
  { s with closed := s.closed ∪ {n | b.lookup n = some false} }

/-- End the visit of `x`. -/
def State.finish (s : State ν) (x : ν) : State ν where
  closed := insert x s.closed
  order := s.order ++ [x]

@[simp] theorem State.mark_order (s : State ν) (b : Batch ν) : (s.mark b).order = s.order := rfl

theorem State.mem_mark {s : State ν} {b : Batch ν} {n : ν} :
    n ∈ (s.mark b).closed ↔ n ∈ s.closed ∨ b.lookup n = some false := Iff.rfl

omit [DecidableEq ν] in
@[simp] theorem State.finish_order (s : State ν) (x : ν) : (s.finish x).order = s.order ++ [x] :=
  rfl

omit [DecidableEq ν] in
theorem State.mem_finish {s : State ν} {x n : ν} :
    n ∈ (s.finish x).closed ↔ n = x ∨ n ∈ s.closed := Iff.rfl

/-- A walk over the rest of a batch. `A` are the nodes whose visit is under way, none of which may
be met again, and `C` what was closed when the batch began. -/
inductive Loop (g : ν → Batch ν) : Set ν → Set ν → State ν → List ν → State ν → Prop
  | nil {A C s} : Loop g A C s [] s
  | skip {A C s x xs s'} (hx : x ∈ C) (h : Loop g A C s xs s') : Loop g A C s (x :: xs) s'
  | visit {A C s x xs s₁ s'} (hx : x ∉ C) (ha : x ∉ A)
      (h₁ : Loop g (insert x A) s.closed (s.mark (g x)) (wanted (g x)) s₁)
      (h : Loop g A C (s₁.finish x) xs s') : Loop g A C s (x :: xs) s'

/-- A walk over a batch. -/
def Call (g : ν → Batch ν) (A : Set ν) (s : State ν) (b : Batch ν) (s' : State ν) : Prop :=
  Loop g A s.closed (s.mark b) (wanted b) s'

section Loop

variable {g : ν → Batch ν} {A C : Set ν} {s s' : State ν} {xs : List ν} {n : ν}

theorem Loop.order_grows (h : Loop g A C s xs s') : s.order <+: s'.order := by
  induction h with
  | nil => exact List.prefix_refl _
  | skip hx h ih => exact ih
  | visit hx ha h₁ h ih₁ ih => exact ih₁.trans ((List.prefix_append _ _).trans ih)

theorem Loop.closed_subset (h : Loop g A C s xs s') : s.closed ⊆ s'.closed := by
  induction h with
  | nil => exact subset_rfl
  | skip hx h ih => exact ih
  | visit hx ha h₁ h ih₁ ih =>
    exact fun n hn => ih (.inr (ih₁ (.inl hn)))

/-- A walk appends what it loops over, and what the batches want. -/
theorem Loop.forall_order {P : ν → Prop} (h : Loop g A C s xs s')
    (hg : ∀ y, ∀ n ∈ wanted (g y), P n) (hxs : ∀ x ∈ xs, P x) (hs : ∀ n ∈ s.order, P n) :
    ∀ n ∈ s'.order, P n := by
  induction h with
  | nil => exact hs
  | skip hx h ih => exact ih (fun y hy => hxs y (List.mem_cons_of_mem _ hy)) hs
  | visit hx ha h₁ h ih₁ ih =>
    refine ih (fun y hy => hxs y (List.mem_cons_of_mem _ hy)) fun n hn => ?_
    rcases List.mem_append.mp hn with hn | hn
    · exact ih₁ (hg _) hs n hn
    · rw [List.mem_singleton.mp hn]
      exact hxs _ List.mem_cons_self

/-- A walk appends no closed node. -/
theorem Loop.fresh (h : Loop g A C s xs s') (hn : n ∈ s'.order) :
    n ∈ s.order ∨ n ∉ s.closed ∨ n ∈ xs ∧ n ∉ C := by
  induction h with
  | nil => exact .inl hn
  | skip hx h ih =>
    rcases ih hn with h | h | ⟨h, hc⟩
    · exact .inl h
    · exact .inr (.inl h)
    · exact .inr (.inr ⟨List.mem_cons_of_mem _ h, hc⟩)
  | @visit A C s x xs s₁ s' hx ha h₁ h ih₁ ih =>
    have hsub := h₁.closed_subset
    rcases ih hn with h | h | ⟨h, hc⟩
    · rw [State.finish_order, List.mem_append, List.mem_singleton] at h
      obtain h | rfl := h
      · rcases ih₁ h with h | h | ⟨-, h⟩
        · exact .inl h
        · exact .inr (.inl fun hs => h (.inl hs))
        · exact .inr (.inl h)
      · exact .inr (.inr ⟨List.mem_cons_self, hx⟩)
    · exact .inr (.inl fun hs => h (.inr (hsub (.inl hs))))
    · exact .inr (.inr ⟨List.mem_cons_of_mem _ h, hc⟩)

/-- A walk does not append what is being visited. -/
theorem Loop.mem_of_active (h : Loop g A C s xs s') (hA : n ∈ A) (hn : n ∈ s'.order) :
    n ∈ s.order := by
  induction h with
  | nil => exact hn
  | skip hx h ih => exact ih hA hn
  | visit hx ha h₁ h ih₁ ih =>
    have h := ih hA hn
    rw [State.finish_order, List.mem_append, List.mem_singleton] at h
    obtain h | rfl := h
    · exact ih₁ (.inr hA) h
    · exact absurd hA ha

/-- What a loop runs over ends up closed. -/
theorem Loop.closed_of_mem (h : Loop g A C s xs s') (hn : n ∈ xs) (hC : C ⊆ s.closed) :
    n ∈ s'.closed := by
  induction h with
  | nil => cases hn
  | skip hx h ih =>
    obtain rfl | hn := List.mem_cons.mp hn
    · exact h.closed_subset (hC hx)
    · exact ih hn hC
  | visit hx ha h₁ h ih₁ ih =>
    obtain rfl | hn := List.mem_cons.mp hn
    · exact h.closed_subset (.inl rfl)
    · exact ih hn fun m hm => .inr (h₁.closed_subset (.inl (hC hm)))

/-- A walk that leaves out nodes closed when the batch began. -/
theorem Loop.of_filter {p : ν → Bool} (hp : ∀ x ∈ xs, p x = false → x ∈ C)
    (h : Loop g A C s (xs.filter p) s') : Loop g A C s xs s' := by
  induction xs generalizing s with
  | nil => exact h
  | cons x xs ih =>
    have hp' := fun y hy => hp y (List.mem_cons_of_mem _ hy)
    rw [List.filter_cons] at h
    split at h
    next hx =>
      cases h with
      | skip hx h => exact .skip hx (ih hp' h)
      | visit hx ha h₁ h => exact .visit hx ha h₁ (ih hp' h)
    next hx => exact .skip (hp x List.mem_cons_self (by simpa using hx)) (ih hp' h)

end Loop

/-! ## Sorted orders -/

section Graph

omit [DecidableEq ν]

variable (g : ν → Batch ν)

/-- The batch of `x` needs `n`. -/
def Requires (x n : ν) : Prop := Needs (g x) n

/-- `n` is met from `seeds`. -/
def Settled (seeds : List ν) (n : ν) : Prop :=
  ∃ y ∈ seeds, Relation.ReflTransGen (Requires g) y n

/-- Every node comes once, after everything it requires. -/
structure Sorted (order : List ν) : Prop where
  nodup : order.Nodup
  after : ∀ pre x post, order = pre ++ x :: post → ∀ n, Requires g x n → n ∈ pre

variable {g} {seeds : List ν} {x n : ν}

theorem settled_append {ys : List ν} :
    Settled g (seeds ++ ys) n ↔ Settled g seeds n ∨ Settled g ys n := by
  simp only [Settled, List.mem_append, or_and_right, exists_or]

theorem settled_singleton : Settled g [x] n ↔ Relation.ReflTransGen (Requires g) x n := by
  simp [Settled]

theorem settled_of_mem (h : n ∈ seeds) : Settled g seeds n := ⟨n, h, .refl⟩

theorem Settled.requires (h : Settled g seeds x) (hn : Requires g x n) : Settled g seeds n := by
  obtain ⟨z, hz, hx⟩ := h
  exact ⟨z, hz, hx.tail hn⟩

/-- A set that holds the seeds and what its members require holds what the seeds settle. -/
theorem Settled.mem_of_closed {l : List ν} (h : Settled g seeds n) (hs : ∀ y ∈ seeds, y ∈ l)
    (hl : ∀ x ∈ l, ∀ n, Requires g x n → n ∈ l) : n ∈ l := by
  obtain ⟨y, hy, hn⟩ := h
  induction hn with
  | refl => exact hs y hy
  | tail _ hr ih => exact hl _ ih _ hr

theorem Sorted.of_grows {l l' : List ν} (h : Sorted g l') (hl : l <+: l') : Sorted g l where
  nodup := h.nodup.sublist hl.sublist
  after pre x post e n hn := by
    obtain ⟨t, rfl⟩ := hl
    exact h.after pre x (post ++ t) (by rw [e]; simp) n hn

theorem Sorted.finish {l : List ν} (h : Sorted g l) (hx : x ∉ l)
    (hr : ∀ n, Requires g x n → n ∈ l) : Sorted g (l ++ [x]) where
  nodup := List.nodup_append.mpr ⟨h.nodup, by simp, by
    intro a ha b hb e
    rw [List.mem_singleton] at hb
    exact hx (hb ▸ e ▸ ha)⟩
  after pre y post e n hn := by
    obtain rfl | ⟨post', z, rfl⟩ := List.eq_nil_or_concat post
    · obtain ⟨rfl, e⟩ := List.append_inj' e rfl
      obtain rfl : x = y := by simpa using e
      exact hr n hn
    · rw [List.concat_eq_append, ← List.cons_append, ← List.append_assoc] at e
      obtain ⟨e, -⟩ := List.append_inj' e rfl
      exact h.after pre y post' e n hn

/-- What the last node requires comes before it. -/
theorem Sorted.last {l : List ν} (h : Sorted g (l ++ [x])) :
    Sorted g l ∧ x ∉ l ∧ ∀ n, Requires g x n → n ∈ l := by
  refine ⟨h.of_grows (List.prefix_append _ _), ?_, h.after l x [] rfl⟩
  have hn := List.nodup_append.mp h.nodup
  exact fun hx => hn.2.2 x hx x (by simp) rfl

end Graph

/-! ## Sound places -/

section Sound

variable (g : ν → Batch ν)

/-- `n` is mentioned first in a batch of `above` or of a settled node. -/
def Marked (seeds : List ν) (above : List (Batch ν)) (n : ν) : Prop :=
  (∃ b ∈ above, b.lookup n = some false) ∨ ∃ y, Settled g seeds y ∧ (g y).lookup n = some false

/-- Where a walk may begin a batch: after the nodes `seeds`, inside or after the batches `above`. -/
structure Place (ν : Type*) where
  seeds : List ν
  above : List (Batch ν)
  batch : Batch ν

/-- The place of a node of the batch: the nodes before it in the batch come first. -/
def Place.child (F : Place ν) (ys : List ν) (x : ν) : Place ν where
  seeds := F.seeds ++ ys
  above := F.above ++ [F.batch]
  batch := g x

/-- `F'` is the place of a wanted node of the batch at `F`. -/
inductive Below (F : Place ν) : Place ν → Prop
  | mk {ys x zs} (h : wanted F.batch = ys ++ x :: zs) : Below F (F.child g ys x)

/-- The batch of a place can be walked: what it needs is settled before, or is wanted there and
closed by no mention, and nothing is first met through the nodes before it in the batch. -/
structure Place.Sound (F : Place ν) : Prop where
  opens : ∀ n, Needs F.batch n → ¬Settled g F.seeds n →
    n ∈ wanted F.batch ∧ ¬Marked g F.seeds F.above n
  apart : ∀ ys x zs, wanted F.batch = ys ++ x :: zs →
    Settled g (F.seeds ++ ys) x → Settled g F.seeds x

/-- Every place at or below `F` is sound. -/
def Place.AllSound (F : Place ν) : Prop :=
  ∀ F', Relation.ReflTransGen (Below g) F F' → F'.Sound g

/-- The order holds the settled nodes, and what else is closed was mentioned first. -/
structure Follows (s : State ν) (seeds : List ν) (above : List (Batch ν)) : Prop where
  order : ∀ n, n ∈ s.order ↔ Settled g seeds n
  closed : ∀ n, n ∈ s.closed ↔ Settled g seeds n ∨ Marked g seeds above n

variable {g} {F : Place ν} {s : State ν} {seeds : List ν} {above : List (Batch ν)}

theorem Place.allSound_iff : F.AllSound g ↔
    F.Sound g ∧ ∀ ys x zs, wanted F.batch = ys ++ x :: zs → (F.child g ys x).AllSound g := by
  constructor
  · intro h
    exact ⟨h F .refl, fun ys x zs hw F' hF => h F' (.head (.mk hw) hF)⟩
  · intro h F' hF
    obtain rfl | ⟨F₁, h₁, h₂⟩ := hF.cases_head
    · exact h.1
    · obtain ⟨hw⟩ := h₁
      exact h.2 _ _ _ hw F' h₂

/-- Nothing is left to walk below a settled node. -/
theorem Place.allSound_of_settled {x : ν} (hb : F.batch = g x) (hx : Settled g F.seeds x) :
    F.AllSound g := by
  intro F' hF
  have h : ∃ x, F'.batch = g x ∧ Settled g F'.seeds x := by
    induction hF with
    | refl => exact ⟨x, hb, hx⟩
    | tail _ hF ih =>
      obtain ⟨x, hb, hx⟩ := ih
      obtain ⟨hw⟩ := hF
      refine ⟨_, rfl, settled_append.mpr (.inl (hx.requires ?_))⟩
      rw [Requires, ← hb]
      exact needs_of_mem_wanted (by rw [hw]; simp)
  obtain ⟨x, hb, hx⟩ := h
  constructor
  · intro n hn hs
    rw [hb] at hn
    exact absurd (hx.requires hn) hs
  · intro ys n zs hw _
    refine hx.requires ?_
    rw [Requires, ← hb]
    exact needs_of_mem_wanted (by rw [hw]; simp)

theorem marked_append {b : Batch ν} {n : ν} :
    Marked g seeds (above ++ [b]) n ↔ Marked g seeds above n ∨ b.lookup n = some false := by
  rw [Marked, Marked, or_right_comm]
  simp [or_and_right, exists_or]

theorem Follows.mark (h : Follows g s seeds above) (b : Batch ν) :
    Follows g (s.mark b) seeds (above ++ [b]) where
  order := h.order
  closed n := by rw [State.mem_mark, h.closed, marked_append, or_assoc]

/-- Only what the seeds settle matters. -/
theorem Follows.congr {seeds' : List ν} (h : Follows g s seeds above)
    (hs : ∀ n, Settled g seeds n ↔ Settled g seeds' n) : Follows g s seeds' above where
  order n := (h.order n).trans (hs n)
  closed n := by
    rw [h.closed, Marked, Marked]
    simp only [hs]

/-- The end of a visit of `x`, whose batch has been walked. -/
theorem Follows.finish {x : ν} (h : Follows g s (seeds ++ wanted (g x)) (above ++ [g x]))
    (hx : ∀ n, Requires g x n → n ∈ s.order) :
    Follows g (s.finish x) (seeds ++ [x]) above := by
  have hs : ∀ n, Settled g (seeds ++ [x]) n ↔ n = x ∨ Settled g (seeds ++ wanted (g x)) n := by
    intro n
    rw [settled_append, settled_singleton]
    constructor
    · intro hn
      rcases hn with hn | hn
      · exact .inr (settled_append.mpr (.inl hn))
      · obtain rfl | ⟨m, hm, hn⟩ := hn.cases_head
        · exact .inl rfl
        · obtain ⟨y, hy, hm⟩ := (h.order m).mp (hx m hm)
          exact .inr ⟨y, hy, hm.trans hn⟩
    · intro hn
      obtain rfl | hn := hn
      · exact .inr .refl
      · rcases settled_append.mp hn with hn | ⟨y, hy, hn⟩
        · exact .inl hn
        · exact .inr (.head (needs_of_mem_wanted hy) hn)
  constructor
  · intro n
    rw [hs, State.finish_order, List.mem_append, List.mem_singleton, h.order, or_comm]
  · intro n
    have hm : Marked g (seeds ++ [x]) above n ↔
        Marked g (seeds ++ wanted (g x)) (above ++ [g x]) n := by
      rw [marked_append, Marked, Marked, or_assoc]
      simp only [hs, or_and_right, exists_or, exists_eq_left]
      rw [or_comm (a := (g x).lookup n = some false)]
    rw [State.mem_finish, h.closed, hs, hm, or_assoc]

end Sound

/-! ## When a walk builds a sorted order -/

section Sorting

variable {g : ν → Batch ν} {A C : Set ν} {s s' : State ν} {xs : List ν} {F : Place ν}

/-- What the induction over a loop shows, at the place `F` whose batch is walked up to `xs`. -/
def LoopSpec (g : ν → Batch ν) (C : Set ν) (s : State ν) (xs : List ν) (s' : State ν) : Prop :=
  ∀ (F : Place ν) (ys : List ν), wanted F.batch = ys ++ xs →
    (∀ x ∈ xs, x ∈ C ↔ Settled g F.seeds x) →
    Follows g s (F.seeds ++ ys) (F.above ++ [F.batch]) → Sorted g s.order →
    (Sorted g s'.order ↔ ∀ p x q, xs = p ++ x :: q →
      (Settled g (F.seeds ++ (ys ++ p)) x → Settled g F.seeds x) ∧
        (F.child g (ys ++ p) x).AllSound g) ∧
    (Sorted g s'.order → Follows g s' (F.seeds ++ (ys ++ xs)) (F.above ++ [F.batch]))

/-- A walk over the batch at `F` is sorted, with all the batch needs, when all places from `F` on
are sound. -/
theorem Call.spec (h : Call g A s F.batch s')
    (ih : LoopSpec g s.closed (s.mark F.batch) (wanted F.batch) s')
    (hf : Follows g s F.seeds F.above) (hs : Sorted g s.order) :
    ((Sorted g s'.order ∧ ∀ n, Needs F.batch n → n ∈ s'.order) ↔ F.AllSound g) ∧
      (F.AllSound g → Follows g s' (F.seeds ++ wanted F.batch) (F.above ++ [F.batch])) := by
  have hm : Follows g (s.mark F.batch) (F.seeds ++ []) (F.above ++ [F.batch]) := by
    rw [List.append_nil]
    exact hf.mark F.batch
  have sorted_of : F.AllSound g →
      Sorted g s'.order ∧ Follows g s' (F.seeds ++ wanted F.batch) (F.above ++ [F.batch]) := by
    intro hall
    obtain ⟨hsound, hchild⟩ := Place.allSound_iff.mp hall
    have hC : ∀ x ∈ wanted F.batch, x ∈ s.closed ↔ Settled g F.seeds x := by
      refine fun x hx => ⟨fun hc => ?_, fun hx => (hf.closed x).mpr (.inl hx)⟩
      by_contra hns
      rcases (hf.closed x).mp hc with hk | hk
      · exact hns hk
      · exact (hsound.opens x (needs_of_mem_wanted hx) hns).2 hk
    have hloop := ih F [] rfl hC hm hs
    have hsorted := hloop.1.mpr fun p x q e => ⟨hsound.apart p x q e, hchild p x q e⟩
    exact ⟨hsorted, hloop.2 hsorted⟩
  constructor
  · constructor
    · intro hsorted
      obtain ⟨hsorted, hneeds⟩ := hsorted
      -- What the walk appended for this batch was not closed when the batch began.
      have hopen : ∀ n, Needs F.batch n → ¬Settled g F.seeds n →
          n ∈ wanted F.batch ∧ n ∉ s.closed := by
        intro n hn hns
        rcases h.fresh (hneeds n hn) with h₁ | h₁ | h₁
        · exact absurd ((hf.order n).mp h₁) hns
        · rw [State.mem_mark, not_or] at h₁
          exact ⟨mem_wanted.mpr (lookup_of_needs hn h₁.2), h₁.1⟩
        · exact h₁
      have hC : ∀ x ∈ wanted F.batch, x ∈ s.closed ↔ Settled g F.seeds x := by
        refine fun x hx => ⟨fun hc => ?_, fun hx => (hf.closed x).mpr (.inl hx)⟩
        by_contra hns
        exact (hopen x (needs_of_mem_wanted hx) hns).2 hc
      have hall := (ih F [] rfl hC hm hs).1.mp hsorted
      refine Place.allSound_iff.mpr ⟨⟨fun n hn hns => ?_, fun ys x zs hw => (hall ys x zs hw).1⟩,
        fun ys x zs hw => (hall ys x zs hw).2⟩
      have ho := hopen n hn hns
      exact ⟨ho.1, fun hk => ho.2 ((hf.closed n).mpr (.inr hk))⟩
    · intro hall
      have hsorted := sorted_of hall
      refine ⟨hsorted.1, fun n hn => (hsorted.2.order n).mpr (settled_append.mpr ?_)⟩
      by_cases hns : Settled g F.seeds n
      · exact .inl hns
      · exact .inr (settled_of_mem ((hall F .refl).opens n hn hns).1)
  · exact fun hall => (sorted_of hall).2

/-- The induction over a loop. -/
theorem Loop.spec (h : Loop g A C s xs s') : LoopSpec g C s xs s' := by
  induction h with
  | nil =>
    intro F ys hw hC hf hs
    refine ⟨⟨fun _ p x q e => ?_, fun _ => hs⟩, fun _ => by simpa using hf⟩
    simp at e
  | @skip A C s x xs s' hx h ih =>
    intro F ys hw hC hf hs
    have hset : Settled g F.seeds x := (hC x List.mem_cons_self).mp hx
    have hf' : Follows g s (F.seeds ++ (ys ++ [x])) (F.above ++ [F.batch]) := by
      refine hf.congr fun n => ?_
      rw [← List.append_assoc, settled_append, settled_append, settled_append, settled_singleton]
      refine ⟨.inl, fun hn => hn.elim id fun hn => .inl ?_⟩
      obtain ⟨y, hy, hxy⟩ := hset
      exact ⟨y, hy, hxy.trans hn⟩
    obtain ⟨ih₁, ih₂⟩ := ih F (ys ++ [x]) (by simpa using hw)
      (fun z hz => hC z (List.mem_cons_of_mem _ hz)) hf' hs
    refine ⟨ih₁.trans ⟨fun hall p z q e => ?_, fun hall p z q e => ?_⟩, by simpa using ih₂⟩
    · cases p with
      | nil =>
        obtain ⟨rfl, rfl⟩ := List.cons.inj e
        exact ⟨fun _ => hset, Place.allSound_of_settled rfl (settled_append.mpr (.inl hset))⟩
      | cons y p =>
        obtain ⟨rfl, e'⟩ := List.cons.inj e
        simpa using hall p z q e'
    · simpa using hall (x :: p) z q (by rw [e]; rfl)
  | @visit A C s x xs s₁ s' hx ha h₁ h ih₁ ih =>
    intro F ys hw hC hf hs
    have hset : ¬Settled g F.seeds x := fun hx' => hx ((hC x List.mem_cons_self).mpr hx')
    have hcall := Call.spec (F := F.child g ys x) h₁ ih₁ hf hs
    -- After the visit of `x` the rest of the loop runs at the same place, with `x` passed.
    have hstep : (F.child g ys x).AllSound g → x ∉ s₁.order →
        Follows g (s₁.finish x) (F.seeds ++ (ys ++ [x])) (F.above ++ [F.batch]) ∧
          Sorted g (s₁.finish x).order := by
      intro hall hx₁
      obtain ⟨hs₁, hneeds⟩ := hcall.1.mpr hall
      rw [← List.append_assoc]
      exact ⟨(hcall.2 hall).finish hneeds, hs₁.finish hx₁ hneeds⟩
    have hrest := fun hf₂ => ih F (ys ++ [x]) (by simpa using hw)
      (fun z hz => hC z (List.mem_cons_of_mem _ hz)) hf₂
    have hsound : Sorted g s'.order → x ∉ s.order ∧ x ∉ s₁.order ∧ (F.child g ys x).AllSound g := by
      intro hs'
      obtain ⟨hs₁, hx₁, hneeds⟩ := (hs'.of_grows h.order_grows).last
      exact ⟨fun hx => hx₁ (h₁.order_grows.subset hx), hx₁, hcall.1.mp ⟨hs₁, hneeds⟩⟩
    refine ⟨⟨fun hs' => ?_, fun hall => ?_⟩, fun hs' => ?_⟩
    · obtain ⟨hx₀, hx₁, hall⟩ := hsound hs'
      obtain ⟨hf₂, hs₂⟩ := hstep hall hx₁
      intro p z q e
      cases p with
      | nil =>
        obtain ⟨rfl, rfl⟩ := List.cons.inj e
        rw [List.append_nil]
        exact ⟨fun hz => absurd ((hf.order x).mpr hz) hx₀, hall⟩
      | cons y p =>
        obtain ⟨rfl, e'⟩ := List.cons.inj e
        simpa using (hrest hf₂ hs₂).1.mp hs' p z q e'
    · obtain ⟨hapart, hchild⟩ := hall [] x xs rfl
      rw [List.append_nil] at hapart hchild
      have hx₀ : x ∉ s.order := fun hx => hset (hapart ((hf.order x).mp hx))
      have hx₁ : x ∉ s₁.order := fun hx => hx₀ (h₁.mem_of_active (.inl rfl) hx)
      obtain ⟨hf₂, hs₂⟩ := hstep hchild hx₁
      refine (hrest hf₂ hs₂).1.mpr fun p z q e => ?_
      simpa using hall (x :: p) z q (by rw [e]; rfl)
    · obtain ⟨-, hx₁, hall⟩ := hsound hs'
      obtain ⟨hf₂, hs₂⟩ := hstep hall hx₁
      simpa using (hrest hf₂ hs₂).2 hs'

/-- **A walk over one batch**: it leaves a sorted order with all the batch needs exactly when every
place from there on is sound. -/
theorem Call.sorted_iff (h : Call g A s F.batch s') (hf : Follows g s F.seeds F.above)
    (hs : Sorted g s.order) :
    ((Sorted g s'.order ∧ ∀ n, Needs F.batch n → n ∈ s'.order) ↔ F.AllSound g) ∧
      (F.AllSound g → Follows g s' (F.seeds ++ wanted F.batch) (F.above ++ [F.batch])) :=
  Call.spec h (Loop.spec h) hf hs

end Sorting

/-! ## Walks over several batches -/

/-- Walks over the batches in turn, each from the state the one before left. -/
inductive Calls (g : ν → Batch ν) : State ν → List (Batch ν) → State ν → Prop
  | nil (s : State ν) : Calls g s [] s
  | cons {s s₁ s' : State ν} {b : Batch ν} {bs : List (Batch ν)} (h₁ : Call g ∅ s b s₁)
      (h : Calls g s₁ bs s') : Calls g s (b :: bs) s'

/-- The place where the batch `b` begins after the batches `pre`. -/
def Place.root (pre : List (Batch ν)) (b : Batch ν) : Place ν where
  seeds := pre.flatMap wanted
  above := pre
  batch := b

/-- Every place of a walk over the batches is sound. -/
def AllSound (g : ν → Batch ν) (bs : List (Batch ν)) : Prop :=
  ∀ pre b post, bs = pre ++ b :: post → (Place.root pre b).AllSound g

/-- `n` is needed by one of the batches, or by a node that is. -/
def Required (g : ν → Batch ν) (bs : List (Batch ν)) (n : ν) : Prop :=
  ∃ b ∈ bs, ∃ m, Needs b m ∧ Relation.ReflTransGen (Requires g) m n

section Calls

variable {g : ν → Batch ν} {A : Set ν} {s s' : State ν} {b : Batch ν} {bs : List (Batch ν)} {n : ν}

theorem Call.fresh (h : Call g A s b s') (hn : n ∈ s'.order) : n ∈ s.order ∨ n ∉ s.closed := by
  rcases Loop.fresh h hn with h | h | h
  · exact .inl h
  · exact .inr fun hc => h (.inl hc)
  · exact .inr h.2

/-- What a batch needs is closed by its walk. -/
theorem Call.closed_of_needs (h : Call g A s b s') (hn : Needs b n) : n ∈ s'.closed := by
  by_cases hf : b.lookup n = some false
  · exact Loop.closed_subset h (.inr hf)
  · exact Loop.closed_of_mem h (mem_wanted.mpr (lookup_of_needs hn hf)) fun m hm => .inl hm

theorem Calls.order_grows (h : Calls g s bs s') : s.order <+: s'.order := by
  induction h with
  | nil => exact List.prefix_refl _
  | cons h₁ h ih => exact (Loop.order_grows h₁).trans ih

theorem Calls.forall_order {P : ν → Prop} (h : Calls g s bs s')
    (hg : ∀ y, ∀ n ∈ wanted (g y), P n) (hbs : ∀ b ∈ bs, ∀ n ∈ wanted b, P n)
    (hs : ∀ n ∈ s.order, P n) : ∀ n ∈ s'.order, P n := by
  induction h with
  | nil => exact hs
  | cons h₁ h ih =>
    exact ih (fun c hc => hbs c (List.mem_cons_of_mem _ hc))
      (Loop.forall_order h₁ hg (hbs _ List.mem_cons_self) hs)

theorem Calls.fresh (h : Calls g s bs s') (hn : n ∈ s'.order) : n ∈ s.order ∨ n ∉ s.closed := by
  induction h with
  | nil => exact .inl hn
  | cons h₁ h ih =>
    rcases ih hn with hn | hn
    · exact h₁.fresh hn
    · exact .inr fun hc => hn (Loop.closed_subset h₁ (.inl hc))

theorem Calls.spec (h : Calls g s bs s') {pre : List (Batch ν)}
    (hf : Follows g s (pre.flatMap wanted) pre) (hs : Sorted g s.order) :
    ((Sorted g s'.order ∧ ∀ b ∈ bs, ∀ n, Needs b n → n ∈ s'.order) ↔
      ∀ p b q, bs = p ++ b :: q → (Place.root (pre ++ p) b).AllSound g) ∧
    ((∀ p b q, bs = p ++ b :: q → (Place.root (pre ++ p) b).AllSound g) →
      Follows g s' ((pre ++ bs).flatMap wanted) (pre ++ bs)) := by
  induction h generalizing pre with
  | nil s =>
    refine ⟨⟨fun _ p b q e => ?_, fun _ => ⟨hs, by simp⟩⟩, fun _ => by simpa using hf⟩
    simp at e
  | @cons s s₁ s' b bs h₁ h ih =>
    obtain ⟨hcall, hfollows⟩ := Call.sorted_iff (F := Place.root pre b) h₁ hf hs
    have hf₁ : (Place.root pre b).AllSound g →
        Follows g s₁ ((pre ++ [b]).flatMap wanted) (pre ++ [b]) := fun hall => by
      rw [List.flatMap_append, List.flatMap_singleton]
      exact hfollows hall
    have hrest := fun hall => ih (hf₁ hall) (hcall.mpr hall).1
    have hback : (∀ p c q, b :: bs = p ++ c :: q → (Place.root (pre ++ p) c).AllSound g) →
        (Place.root pre b).AllSound g ∧
          ∀ p c q, bs = p ++ c :: q → (Place.root (pre ++ [b] ++ p) c).AllSound g := by
      intro hall
      refine ⟨by simpa using hall [] b bs rfl, fun p c q e => ?_⟩
      simpa using hall (b :: p) c q (by rw [e]; rfl)
    refine ⟨⟨fun hs' => ?_, fun hall => ?_⟩, fun hall => ?_⟩
    · obtain ⟨hs', hneeds⟩ := hs'
      have hall : (Place.root pre b).AllSound g := by
        refine hcall.mp ⟨hs'.of_grows h.order_grows, fun n hn => ?_⟩
        -- A node the first batch needs is closed by then, so a later batch does not append it.
        rcases h.fresh (hneeds b List.mem_cons_self n hn) with hn' | hn'
        · exact hn'
        · exact absurd (h₁.closed_of_needs hn) hn'
      intro p c q e
      cases p with
      | nil =>
        obtain ⟨rfl, rfl⟩ := List.cons.inj e
        rwa [List.append_nil]
      | cons d p =>
        obtain ⟨rfl, e'⟩ := List.cons.inj e
        have hbs := fun c hc => hneeds c (List.mem_cons_of_mem _ hc)
        simpa using (hrest hall).1.mp ⟨hs', hbs⟩ p c q e'
    · obtain ⟨hb, hbs⟩ := hback hall
      obtain ⟨hs', hneeds⟩ := (hrest hb).1.mpr hbs
      refine ⟨hs', fun c hc n hn => ?_⟩
      obtain rfl | hc := List.mem_cons.mp hc
      · exact h.order_grows.subset ((hcall.mpr hb).2 n hn)
      · exact hneeds c hc n hn
    · obtain ⟨hb, hbs⟩ := hback hall
      simpa using (hrest hb).2 hbs

/-- **When a walk is a build order.** From nothing, a walk over the batches leaves an order that is
sorted and holds just what the batches require exactly when every place of it is sound. -/
theorem Calls.buildOrder_iff (h : Calls g ⟨∅, []⟩ bs s') :
    (Sorted g s'.order ∧ ∀ n, n ∈ s'.order ↔ Required g bs n) ↔ AllSound g bs := by
  have hf : Follows g (⟨∅, []⟩ : State ν) (([] : List (Batch ν)).flatMap wanted) [] :=
    ⟨by simp [Settled], by simp [Settled, Marked]⟩
  have hs : Sorted g ([] : List ν) := ⟨List.nodup_nil, by simp⟩
  obtain ⟨hspec, hfollows⟩ := h.spec hf hs
  constructor
  · intro h'
    exact hspec.mp ⟨h'.1, fun b hb n hn => (h'.2 n).mpr ⟨b, hb, n, hn, .refl⟩⟩
  · intro hall
    obtain ⟨hs', hneeds⟩ := hspec.mpr hall
    refine ⟨hs', fun n => ⟨fun hn => ?_, fun hn => ?_⟩⟩
    · obtain ⟨y, hy, hn⟩ := ((hfollows hall).order n).mp hn
      obtain ⟨b, hb, hy⟩ := List.mem_flatMap.mp hy
      exact ⟨b, hb, y, needs_of_mem_wanted hy, hn⟩
    · obtain ⟨b, hb, m, hm, hn⟩ := hn
      refine Settled.mem_of_closed ⟨m, List.mem_singleton_self m, hn⟩ ?_ fun x hx n hr => ?_
      · simpa using hneeds b hb m hm
      · obtain ⟨pre, post, e⟩ := List.append_of_mem hx
        rw [e]
        exact List.mem_append_left _ (hs'.after pre x post e n hr)

end Calls

/-! ## Walks that close no node twice -/

/-- A loop in which no node that is visited has been closed by the end of its visit. -/
inductive ApartLoop (g : ν → Batch ν) : Set ν → State ν → List ν → State ν → Prop
  | nil {C s} : ApartLoop g C s [] s
  | skip {C s x xs s'} (hx : x ∈ C) (h : ApartLoop g C s xs s') : ApartLoop g C s (x :: xs) s'
  | visit {C s x xs s₁ s'} (hx : x ∉ C)
      (h₁ : ApartLoop g s.closed (s.mark (g x)) (wanted (g x)) s₁) (hf : x ∉ s₁.closed)
      (h : ApartLoop g C (s₁.finish x) xs s') : ApartLoop g C s (x :: xs) s'

/-- Such a walk over a batch. -/
def ApartCall (g : ν → Batch ν) (s : State ν) (b : Batch ν) (s' : State ν) : Prop :=
  ApartLoop g s.closed (s.mark b) (wanted b) s'

/-- Such walks over the batches in turn. -/
inductive ApartCalls (g : ν → Batch ν) : State ν → List (Batch ν) → State ν → Prop
  | nil (s : State ν) : ApartCalls g s [] s
  | cons {s s₁ s' : State ν} {b : Batch ν} {bs : List (Batch ν)} (h₁ : ApartCall g s b s₁)
      (h : ApartCalls g s₁ bs s') : ApartCalls g s (b :: bs) s'

/-- A walk over the batches closes no node twice. -/
def Apart (g : ν → Batch ν) (bs : List (Batch ν)) : Prop := ∃ s', ApartCalls g ⟨∅, []⟩ bs s'

/-- The nodes that were closed when the batch began may be left out. -/
theorem ApartLoop.filter {g : ν → Batch ν} {C : Set ν} {s s' : State ν} {xs : List ν}
    {p : ν → Bool} (hp : ∀ x ∈ xs, p x = true ↔ x ∉ C) (h : ApartLoop g C s xs s') :
    ApartLoop g C s (xs.filter p) s' := by
  induction h with
  | nil => exact .nil
  | skip hx h ih =>
    rw [List.filter_cons_of_neg fun hp' => (hp _ List.mem_cons_self).mp hp' hx]
    exact ih fun y hy => hp y (List.mem_cons_of_mem _ hy)
  | visit hx h₁ hf h _ ih =>
    rw [List.filter_cons_of_pos ((hp _ List.mem_cons_self).mpr hx)]
    exact .visit hx h₁ hf (ih fun y hy => hp y (List.mem_cons_of_mem _ hy))

end Sysforge.Walk
