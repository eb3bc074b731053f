import Sysforge.Foundations.Dict
import Sysforge.Foundations.Worklist
import Mathlib.Order.WellFoundedSet

/-!
# Topological sorting in generations

`staticOrder` follows `graphlib.TopologicalSorter`: each `add` counts the predecessors of its node
and appends the node to their successors; the nodes with no predecessor left are handed out in one
group, and the successors whose last predecessor was in the group form the next one.

The groups are the runs of a queue (`Drains`): a node leaves it after its predecessors, and enters
it with the last of them. Hence the order is complete on an acyclic graph, respects its edges
(`staticOrder_perm`), and is the order of the additions if and only if their last predecessors come
in that order too (`staticOrder_nodes_iff`).
-/

namespace Sysforge.TopologicalSorter

variable {α : Type*} [DecidableEq α]

/-! ## The sorter -/

/-- What the sorter keeps of a node: how many predecessors are left, and its successors in the
order of their additions. -/
structure Info (α : Type*) where
  npredecessors : ℕ := 0
  successors : List α := []

/-- The nodes, in the order in which they were first named. -/
abbrev Graph (α : Type*) := Dict α (Info α)

/-- A node that was not named yet has no predecessors and no successors. -/
def info (g : Graph α) (n : α) : Info α := (g.get n).getD {}

/-- One edge of `add`. -/
def addEdge (node : α) (g : Graph α) (pred : α) : Graph α :=
  g.set pred { info g pred with successors := (info g pred).successors ++ [node] }

/-- `add(node, *predecessors)`. -/
def add (g : Graph α) (p : α × List α) : Graph α :=
  p.2.foldl (addEdge p.1)
    (g.set p.1 { info g p.1 with npredecessors := (info g p.1).npredecessors + p.2.length })

/-- The sorter after some additions. -/
def graph (adds : List (α × List α)) : Graph α := adds.foldl add Dict.empty

/-- The nodes that no predecessor holds back. -/
def ready (g : Graph α) : List α := g.keys.filter fun n => (info g n).npredecessors = 0

/-- A node leads back to itself. -/
def hasCycle (g : Graph α) : Bool :=
  g.keys.any fun n =>
    n ∈ Worklist.closure (fun m => (info g m).successors) g.keys.length (info g n).successors

/-- One successor of a node that is done. -/
def release (s : Graph α × List α) (n : α) : Graph α × List α :=
  let left := (info s.1 n).npredecessors - 1
  (s.1.set n { info s.1 n with npredecessors := left }, if left = 0 then s.2 ++ [n] else s.2)

/-- `done(node)`. -/
def done (s : Graph α × List α) (node : α) : Graph α × List α :=
  (info s.1 node).successors.foldl release s

/-- The groups that `get_ready` hands out, one after the other, until none is ready. -/
def groups : ℕ → Graph α × List α → List α
  | 0, _ => []
  | fuel + 1, s => if s.2 = [] then [] else s.2 ++ groups fuel (s.2.foldl done (s.1, []))

/-- `static_order`, or `none` where `prepare` raises `CycleError`. Each group holds a node that no
other group holds, so there are at most as many as nodes. -/
def staticOrder (adds : List (α × List α)) : Option (List α) :=
  let g := graph adds
  if hasCycle g then none else some (groups g.keys.length (g, ready g))

/-! ## The graph of some additions -/

section Graph

variable {g : Graph α} {adds : List (α × List α)} {p : α × List α} {n m q : α}

theorem info_set {i : Info α} : info (g.set m i) n = if n = m then i else info g n := by
  rw [info, Dict.get_set]
  by_cases h : n = m
  · rw [if_pos h, if_pos h, Option.getD_some]
  · rw [if_neg h, if_neg h, info]

theorem info_addEdge : info (addEdge m g q) n = { info g n with
    successors := (info g n).successors ++ if n = q then [m] else [] } := by
  rw [addEdge, info_set]
  by_cases h : n = q
  · rw [if_pos h, if_pos h, h]
  · rw [if_neg h, if_neg h, List.append_nil]

/-- What some edges to one node do. -/
theorem info_addEdges {preds : List α} : info (preds.foldl (addEdge m) g) n = { info g n with
    successors := (info g n).successors ++ List.replicate (preds.count n) m } := by
  induction preds generalizing g with
  | nil => rw [List.foldl_nil, List.count_nil, List.replicate_zero, List.append_nil]
  | cons q preds ih =>
    rw [List.foldl_cons, ih, info_addEdge]
    dsimp only
    by_cases h : n = q
    · rw [if_pos h, h, List.count_cons_self, List.replicate_succ, List.append_assoc,
        List.singleton_append]
    · rw [if_neg h, List.append_nil, List.count_cons_of_ne (Ne.symm h)]

theorem info_add : info (add g p) n = {
    npredecessors := (info g n).npredecessors + if p.1 = n then p.2.length else 0
    successors := (info g n).successors ++ List.replicate (p.2.count n) p.1 } := by
  rw [add, info_addEdges, info_set]
  by_cases h : n = p.1
  · rw [if_pos h, if_pos h.symm, h]
  · rw [if_neg h, if_neg (Ne.symm h), Nat.add_zero]

theorem mem_keys_addEdges {preds : List α} :
    n ∈ (preds.foldl (addEdge m) g).keys ↔ n ∈ g.keys ∨ n ∈ preds := by
  induction preds generalizing g with
  | nil => exact (or_iff_left List.not_mem_nil).symm
  | cons q preds ih =>
    rw [List.foldl_cons, ih, addEdge, Dict.mem_keys_set, List.mem_cons, or_assoc, or_left_comm]

theorem mem_keys_add : n ∈ (add g p).keys ↔ n ∈ g.keys ∨ n = p.1 ∨ n ∈ p.2 := by
  rw [add, mem_keys_addEdges, Dict.mem_keys_set, or_assoc, or_left_comm]

theorem info_adds : info (adds.foldl add g) n = {
    npredecessors := (info g n).npredecessors +
      ((adds.filter fun p => p.1 = n).flatMap Prod.snd).length
    successors := (info g n).successors ++
      adds.flatMap fun p => List.replicate (p.2.count n) p.1 } := by
  induction adds generalizing g with
  | nil => rw [List.foldl_nil, List.filter_nil, List.flatMap_nil, List.flatMap_nil,
      List.append_nil, List.length_nil, Nat.add_zero]
  | cons p adds ih =>
    rw [List.foldl_cons, ih, info_add, List.flatMap_cons, List.append_assoc, Nat.add_assoc,
      List.filter_cons]
    by_cases h : p.1 = n
    · rw [if_pos h, if_pos (decide_eq_true h), List.flatMap_cons, List.length_append]
    · rw [if_neg h, if_neg (by simpa using h), Nat.zero_add]

theorem mem_keys_adds : n ∈ (adds.foldl add g).keys ↔
    n ∈ g.keys ∨ ∃ p ∈ adds, n = p.1 ∨ n ∈ p.2 := by
  induction adds generalizing g with
  | nil => simp
  | cons p adds ih =>
    rw [List.foldl_cons, ih, mem_keys_add, List.exists_mem_cons_iff, or_assoc]

end Graph

/-! ## The runs of a queue -/

/-- Additions of distinct nodes, each with distinct predecessors among the nodes. -/
structure Additions (α : Type*) where
  items : List (α × List α)
  nodup : (Assoc.keys items).Nodup
  nodup_preds : ∀ p ∈ items, p.2.Nodup
  closed : ∀ p ∈ items, ∀ q ∈ p.2, q ∈ Assoc.keys items

/-- No element leads back to itself. -/
def Acyclic (r : α → α → Prop) : Prop := ∀ n, ¬ Relation.TransGen r n n

omit [DecidableEq α] in
/-- Each step goes down. -/
theorem Acyclic.of_rank {r : α → α → Prop} (f : α → ℕ) (h : ∀ m n, r m n → f n < f m) :
    Acyclic r := by
  intro n hn
  have hlt {m : α} (hm : Relation.TransGen r n m) : f m < f n := by
    induction hm with
    | single h₁ => exact h _ _ h₁
    | tail _ h₁ ih => exact (h _ _ h₁).trans ih
  exact (hlt hn).false

namespace Additions

variable {a : Additions α} {D q xs out : List α} {n m x : α} {g : Graph α}

/-- The nodes in the order of their additions. -/
def nodes (a : Additions α) : List α := Assoc.keys a.items

/-- The predecessors of a node. -/
def preds (a : Additions α) (n : α) : List α := (a.items.lookup n).getD []

/-- `m` is a predecessor of `n`. -/
def Edge (a : Additions α) (m n : α) : Prop := m ∈ a.preds n

theorem preds_of_mem {p : α × List α} (hp : p ∈ a.items) : a.preds p.1 = p.2 := by
  rw [preds, Assoc.lookup_of_mem a.nodup hp, Option.getD_some]

omit [DecidableEq α] in
theorem exists_item (hn : n ∈ a.nodes) : ∃ p ∈ a.items, p.1 = n := List.mem_map.mp hn

theorem mem_nodes_of_edge (h : a.Edge m n) : m ∈ a.nodes ∧ n ∈ a.nodes := by
  rw [Edge, preds] at h
  cases hl : a.items.lookup n with
  | none =>
    rw [hl] at h
    cases h
  | some ps =>
    rw [hl, Option.getD_some] at h
    have hp := Assoc.mem_of_lookup hl
    exact ⟨a.closed _ hp _ h, List.mem_map_of_mem hp⟩

theorem preds_nodup : (a.preds n).Nodup := by
  rw [preds]
  cases hl : a.items.lookup n with
  | none => exact List.nodup_nil
  | some ps => exact a.nodup_preds _ (Assoc.mem_of_lookup hl)

/-- The nodes whose last predecessor is `x`, when those in `D` are done. -/
def newly (a : Additions α) (D : List α) (x : α) : List α :=
  a.nodes.filter fun n => x ∈ a.preds n ∧ ∀ p ∈ a.preds n, p ∈ D ++ [x]

/-- A queue runs empty: the node at its head is done, and the nodes whose last predecessor it was
join the queue. -/
inductive Drains (a : Additions α) : List α → List α → List α → Prop
  | nil (D : List α) : Drains a D [] D
  | cons {D : List α} {x : α} {q out : List α} (h : Drains a (D ++ [x]) (q ++ a.newly D x) out) :
    Drains a D (x :: q) out

/-- The nodes done and those in the queue are the nodes whose predecessors are done, none of them
before its predecessors. -/
structure Queue (a : Additions α) (D q : List α) : Prop where
  nodup : (D ++ q).Nodup
  mem : ∀ n, n ∈ D ++ q ↔ n ∈ a.nodes ∧ ∀ p ∈ a.preds n, p ∈ D
  order : (D ++ q).Pairwise fun u v => ¬ a.Edge v u

theorem mem_newly : n ∈ a.newly D x ↔
    n ∈ a.nodes ∧ x ∈ a.preds n ∧ ∀ p ∈ a.preds n, p ∈ D ++ [x] := by
  rw [newly, List.mem_filter, decide_eq_true_iff]

omit [DecidableEq α] in
theorem shift (D q l : List α) (x : α) : D ++ [x] ++ (q ++ l) = D ++ x :: q ++ l := by
  rw [← List.append_assoc, List.append_assoc D, List.singleton_append]

theorem Queue.notMem_done (h : Queue a D (x :: q)) : x ∉ D := fun hx =>
  (List.nodup_append.mp h.nodup).2.2 x hx x List.mem_cons_self rfl

/-- A node that joins the queue was neither done nor in it. -/
theorem Queue.notMem_of_newly (h : Queue a D (x :: q)) (hn : n ∈ a.newly D x) :
    n ∉ D ++ x :: q := fun hmem => h.notMem_done (((h.mem n).mp hmem).2 x (mem_newly.mp hn).2.1)

theorem Queue.step (h : Queue a D (x :: q)) : Queue a (D ++ [x]) (q ++ a.newly D x) := by
  have hsub {p : α} (hp : p ∈ D ++ [x]) : p ∈ D ++ x :: q := by
    rw [List.mem_append, List.mem_singleton] at hp
    rw [List.mem_append, List.mem_cons]
    exact hp.imp_right .inl
  refine ⟨?_, fun n => ?_, ?_⟩
  · rw [shift, List.nodup_append]
    refine ⟨h.nodup, a.nodup.filter _, fun m hm n hn e => ?_⟩
    exact h.notMem_of_newly hn (e ▸ hm)
  · rw [shift, List.mem_append, h.mem, mem_newly, ← and_or_left]
    refine and_congr_right fun _ => ⟨fun hp => ?_, fun hp => ?_⟩
    · rcases hp with hp | hp
      · exact fun p hpn => List.mem_append_left _ (hp p hpn)
      · exact hp.2
    · by_cases hx : x ∈ a.preds n
      · exact .inr ⟨hx, hp⟩
      · refine .inl fun p hpn => ?_
        rcases List.mem_append.mp (hp p hpn) with hD | hD
        · exact hD
        · exact absurd (List.mem_singleton.mp hD ▸ hpn) hx
  · rw [shift, List.pairwise_append]
    refine ⟨h.order, List.pairwise_of_forall_mem_list fun u hu v hv he => ?_,
      fun u hu v hv he => ?_⟩
    · exact h.notMem_of_newly hv (hsub ((mem_newly.mp hu).2.2 v he))
    · exact h.notMem_of_newly hv (List.mem_append_left _ (((h.mem u).mp hu).2 v he))

theorem Drains.queue (hd : Drains a D q out) (h : Queue a D q) : Queue a out [] := by
  induction hd with
  | nil => exact h
  | cons _ ih => exact ih h.step

/-- What is done or in the queue comes first, in that order. -/
theorem Drains.starts (hd : Drains a D q out) : D ++ q <+: out := by
  induction hd with
  | nil D => rw [List.append_nil]
  | cons _ ih =>
    rw [shift] at ih
    exact (List.prefix_append _ _).trans ih

/-- On an acyclic graph the queue runs empty only after every node. -/
theorem Queue.perm (h : Queue a out []) (ha : Acyclic a.Edge) : out.Perm a.nodes := by
  have hno := h.nodup
  have hmem := h.mem
  rw [List.append_nil] at hno hmem
  refine (List.perm_ext_iff_of_nodup hno a.nodup).mpr fun n => ⟨fun hn => ((hmem n).mp hn).1, ?_⟩
  have : IsStrictOrder α (Relation.TransGen a.Edge) :=
    { irrefl := ha, trans := fun _ _ _ h h' => h.trans h' }
  have hwf : {n | n ∈ a.nodes}.WellFoundedOn (Relation.TransGen a.Edge) :=
    (List.finite_toSet a.nodes).wellFoundedOn
  intro hn
  refine hwf.induction hn fun n hn ih => (hmem n).mpr ⟨hn, fun p hp => ?_⟩
  exact ih p (mem_nodes_of_edge hp).1 (.single hp)

/-! ## The order of the additions -/

/-- The predecessors of `n` are all in `D`. -/
def Released (a : Additions α) (D : List α) (n : α) : Prop := ∀ p ∈ a.preds n, p ∈ D

instance (a : Additions α) (D : List α) (n : α) : Decidable (a.Released D n) :=
  inferInstanceAs (Decidable (∀ p ∈ a.preds n, p ∈ D))

/-- Of two nodes, the last predecessor of the first is added no later than that of the second:
where the first `k` nodes hold those of the second, they hold those of the first. -/
def Settled (a : Additions α) : Prop :=
  ∀ k, a.nodes.Pairwise fun u v =>
    a.Released (a.nodes.take k) v → a.Released (a.nodes.take k) u

omit [DecidableEq α] in
/-- Where the elements with `P` come first, filtering keeps the start of a list. -/
theorem filter_starts {P : α → Bool} {l : List α}
    (h : l.Pairwise fun u v => P v = true → P u = true) : l.filter P <+: l := by
  induction h with
  | nil => exact List.nil_prefix
  | @cons u l hu _ ih =>
    by_cases hP : P u = true
    · rw [List.filter_cons_of_pos hP]
      exact (List.prefix_cons_inj u).mpr ih
    · have hnil : l.filter P = [] :=
        List.filter_eq_nil_iff.mpr fun v hv hPv => hP (hu v hv hPv)
      rw [List.filter_cons_of_neg hP, hnil]
      exact List.nil_prefix

omit [DecidableEq α] in
/-- A weaker predicate lets in more elements, all after those of the stronger one. -/
theorem filter_weaker {P Q : α → Bool} {l : List α}
    (h : l.Pairwise fun u v => P v = true → P u = true) (hPQ : ∀ n, P n = true → Q n = true) :
    l.filter Q = l.filter P ++ l.filter fun n => Q n && !P n := by
  induction h with
  | nil => rfl
  | @cons u l hu _ ih =>
    by_cases hP : P u = true
    · rw [List.filter_cons_of_pos (hPQ u hP), List.filter_cons_of_pos hP,
        List.filter_cons_of_neg (by simp [hP]), ih, List.cons_append]
    · have hnil : l.filter P = [] :=
        List.filter_eq_nil_iff.mpr fun v hv hPv => hP (hu v hv hPv)
      rw [hnil, List.nil_append] at ih
      rw [List.filter_cons_of_neg hP, hnil, List.nil_append]
      by_cases hQ : Q u = true
      · rw [List.filter_cons_of_pos hQ, List.filter_cons_of_pos (by simp [hQ, hP]), ih]
      · rw [List.filter_cons_of_neg hQ, List.filter_cons_of_neg (by simp [hQ]), ih]

/-- The nodes whose predecessors are done, in the order of their additions. -/
def released (a : Additions α) (D : List α) : List α := a.nodes.filter fun n => a.Released D n

theorem Settled.pairwise (hs : a.Settled) (hD : D <+: a.nodes) : a.nodes.Pairwise fun u v =>
    decide (a.Released D v) = true → decide (a.Released D u) = true := by
  have hpair := hs D.length
  rw [← List.prefix_iff_eq_take.mp hD] at hpair
  simpa only [decide_eq_true_iff] using hpair

/-- On settled additions the nodes are done in their order. -/
theorem Drains.starts_nodes (hd : Drains a D q out) (hs : a.Settled) (hD : D <+: a.nodes)
    (hq : D ++ q = a.released D) : out <+: a.nodes := by
  induction hd with
  | nil => exact hD
  | @cons D x q out _ ih =>
    have hx : x ∉ D := by
      have hno : (D ++ x :: q).Nodup := hq ▸ a.nodup.filter _
      exact fun hx => (List.nodup_append.mp hno).2.2 x hx x List.mem_cons_self rfl
    refine ih ?_ ?_
    · have hstart : D ++ x :: q <+: a.nodes := hq ▸ filter_starts (hs.pairwise hD)
      rw [List.append_cons] at hstart
      exact (List.prefix_append _ _).trans hstart
    · have hmono (n : α) (hn : decide (a.Released D n) = true) :
          decide (a.Released (D ++ [x]) n) = true := by
        refine decide_eq_true fun p hp => ?_
        exact List.mem_append_left _ (of_decide_eq_true hn p hp)
      rw [shift, hq, released, released, filter_weaker (hs.pairwise hD) hmono, newly]
      congr 1
      refine List.filter_congr fun n _ => ?_
      rw [Bool.eq_iff_iff, decide_eq_true_iff, Bool.and_eq_true, Bool.not_eq_true',
        decide_eq_true_iff, decide_eq_false_iff_not, and_comm]
      refine and_congr_right fun hn => ⟨fun hxn h => hx (h x hxn), fun h => ?_⟩
      by_contra hxn
      refine h fun p hp => ?_
      rcases List.mem_append.mp (hn p hp) with hpD | hpx
      · exact hpD
      · exact absurd (List.mem_singleton.mp hpx ▸ hp) hxn

/-- Where the nodes of a queue are the first ones, the nodes released come first. -/
theorem Queue.pairwise (h : Queue a D q) (hstart : D ++ q <+: a.nodes) :
    a.nodes.Pairwise fun u v => a.Released D v → a.Released D u := by
  obtain ⟨rest, hrest⟩ := hstart
  have hno : (D ++ q ++ rest).Nodup := hrest ▸ a.nodup
  have hout (v : α) (hv : v ∈ rest) : ¬ a.Released D v := fun hr => by
    have hvn : v ∈ a.nodes := hrest ▸ List.mem_append_right _ hv
    exact (List.nodup_append.mp hno).2.2 v ((h.mem v).mpr ⟨hvn, hr⟩) v hv rfl
  rw [← hrest, List.pairwise_append]
  exact ⟨List.pairwise_of_forall_mem_list fun u hu _ _ _ => ((h.mem u).mp hu).2,
    List.pairwise_of_forall_mem_list fun _ _ v hv hr => absurd hr (hout v hv),
    fun u hu _ _ _ => ((h.mem u).mp hu).2⟩

/-- Where the nodes are done in their order, the last predecessors are in order. -/
theorem Drains.pairwise (hd : Drains a D q out) (h : Queue a D q) (ho : out = a.nodes) {k : ℕ}
    (hk : D.length ≤ k) : a.nodes.Pairwise fun u v =>
      a.Released (a.nodes.take k) v → a.Released (a.nodes.take k) u := by
  induction hd with
  | nil D =>
    have htake : a.nodes.take k = D := by rw [← ho, List.take_of_length_le hk]
    rw [htake]
    exact h.pairwise (by rw [List.append_nil, ho])
  | @cons D x q out hd ih =>
    have hstart := hd.starts
    rw [shift] at hstart
    replace hstart : D ++ x :: q <+: a.nodes := ho ▸ (List.prefix_append _ _).trans hstart
    rcases hk.eq_or_lt with rfl | hk
    · have hD : D <+: a.nodes := (List.prefix_append _ _).trans hstart
      rw [← List.prefix_iff_eq_take.mp hD]
      exact h.pairwise hstart
    · exact ih h.step ho (by rw [List.length_append, List.length_singleton]; omega)

/-! ## The sorter runs the queue -/

/-- The counts of the sorter when the nodes in `D` are done. -/
structure Counts (a : Additions α) (D : List α) (g : Graph α) : Prop where
  left : ∀ n ∈ a.nodes, (info g n).npredecessors = ((a.preds n).filter fun p => p ∉ D).length
  successors : ∀ n, (info g n).successors = a.nodes.filter fun m => n ∈ a.preds m

theorem foldl_release {ns : List α} (hn : ns.Nodup) (r : List α) :
    (ns.foldl release (g, r)).2 =
        r ++ ns.filter (fun n => (info g n).npredecessors - 1 = 0) ∧
      ∀ n, info (ns.foldl release (g, r)).1 n = if n ∈ ns then
        { info g n with npredecessors := (info g n).npredecessors - 1 } else info g n := by
  induction ns generalizing g r with
  | nil => exact ⟨(List.append_nil r).symm, fun n => (if_neg List.not_mem_nil).symm⟩
  | cons m ns ih =>
    obtain ⟨hm, hn⟩ := List.nodup_cons.mp hn
    have hstep (n : α) (h : n ≠ m) : info (release (g, r) m).1 n = info g n := by
      rw [release, info_set, if_neg h]
    obtain ⟨ih₂, ih₁⟩ := @ih (release (g, r) m).1 hn (release (g, r) m).2
    rw [List.foldl_cons]
    refine ⟨?_, fun n => ?_⟩
    · rw [ih₂, List.filter_cons, List.filter_congr fun n hn => by
        rw [hstep n fun h => hm (h ▸ hn)]]
      dsimp only [release]
      simp only [decide_eq_true_eq]
      split
      · rw [List.append_assoc, List.singleton_append]
      · rfl
    · rw [ih₁]
      by_cases h : n = m
      · rw [if_neg (h ▸ hm), if_pos (h ▸ List.mem_cons_self), h, release, info_set, if_pos rfl]
      · rw [hstep n h]
        refine if_congr ?_ rfl rfl
        rw [List.mem_cons, or_iff_right h]

omit [DecidableEq α] in
theorem filter_notMem_append [DecidableEq α] {l : List α} (hl : l.Nodup) (hx : x ∉ D) :
    (l.filter fun p => p ∉ D ++ [x]).length =
      (l.filter fun p => p ∉ D).length - if x ∈ l then 1 else 0 := by
  have he : (l.filter fun p => p ∉ D ++ [x]) = (l.filter fun p => p ∉ D).erase x := by
    rw [(hl.filter _).erase_eq_filter, List.filter_filter]
    refine List.filter_congr fun p _ => ?_
    rw [bne, Bool.beq_eq_decide_eq, Bool.eq_iff_iff]
    simp [and_comm]
  rw [he, List.length_erase]
  by_cases hm : x ∈ l
  · rw [if_pos hm, if_pos (List.mem_filter.mpr ⟨hm, decide_eq_true hx⟩)]
  · rw [if_neg hm, if_neg fun h => hm (List.mem_filter.mp h).1, Nat.sub_zero]

/-- `done` releases the nodes whose last predecessor is done. -/
theorem Counts.advance (hg : Counts a D g) (hx : x ∉ D) (r : List α) :
    (done (g, r) x).2 = r ++ a.newly D x ∧ Counts a (D ++ [x]) (done (g, r) x).1 := by
  have hno : (info g x).successors.Nodup := by
    rw [hg.successors]
    exact a.nodup.filter _
  obtain ⟨h₂, h₁⟩ := @foldl_release _ _ g _ hno r
  have hmem (n : α) : n ∈ (info g x).successors ↔ n ∈ a.nodes ∧ x ∈ a.preds n := by
    rw [hg.successors, List.mem_filter, decide_eq_true_iff]
  refine ⟨?_, ⟨fun n hn => ?_, fun n => ?_⟩⟩
  · rw [done, h₂, hg.successors, List.filter_filter, newly]
    congr 1
    refine List.filter_congr fun n hn => ?_
    rw [Bool.eq_iff_iff, Bool.and_eq_true, decide_eq_true_iff, decide_eq_true_iff,
      decide_eq_true_iff, and_comm, hg.left n hn]
    refine and_congr_right fun hxn => ?_
    have hlen := filter_notMem_append (a.preds_nodup (n := n)) hx
    rw [if_pos hxn] at hlen
    rw [← hlen, List.length_eq_zero_iff, List.filter_eq_nil_iff]
    exact forall₂_congr fun p _ => by rw [decide_eq_true_iff, not_not]
  · rw [done, h₁, filter_notMem_append a.preds_nodup hx, ← hg.left n hn]
    by_cases hxn : x ∈ a.preds n
    · rw [if_pos ((hmem n).mpr ⟨hn, hxn⟩), if_pos hxn]
    · rw [if_neg fun h => hxn ((hmem n).mp h).2, if_neg hxn, Nat.sub_zero]
  · rw [done, h₁, ← hg.successors]
    split <;> rfl

/-- A group of nodes is done one after the other. -/
theorem Counts.group (hg : Counts a D g) (hq : Queue a D (xs ++ q)) (r : List α) :
    ∃ new, (xs.foldl done (g, r)).2 = r ++ new ∧ Counts a (D ++ xs) (xs.foldl done (g, r)).1 ∧
      Queue a (D ++ xs) (q ++ new) ∧
      ∀ out, Drains a (D ++ xs) (q ++ new) out → Drains a D (xs ++ q) out := by
  induction xs generalizing D g q r with
  | nil =>
    refine ⟨[], (List.append_nil r).symm, ?_, ?_, fun out h => ?_⟩
    · rwa [List.append_nil]
    · rwa [List.append_nil, List.append_nil]
    · rwa [List.append_nil, List.append_nil] at h
  | cons x xs ih =>
    obtain ⟨hr, hc⟩ := hg.advance hq.notMem_done r
    have hstep : Queue a (D ++ [x]) (xs ++ (q ++ a.newly D x)) := by
      rw [← List.append_assoc]
      exact hq.step
    obtain ⟨new, hnew, hc, hq, hd⟩ := ih hc hstep (done (g, r) x).2
    rw [← List.append_cons] at hc hq hd
    refine ⟨a.newly D x ++ new, ?_, hc, ?_, fun out h => ?_⟩
    · rw [List.foldl_cons, ← List.append_assoc, ← hr]
      exact hnew
    · rwa [← List.append_assoc]
    · rw [← List.append_assoc] at h
      have hrun := hd out h
      rw [← List.append_assoc] at hrun
      exact .cons hrun

/-- The groups of the sorter are a run of the queue. -/
theorem drains_groups {fuel : ℕ} (hg : Counts a D g) (hq : Queue a D q)
    (hf : a.nodes.length ≤ fuel + D.length) : Drains a D q (D ++ groups fuel (g, q)) := by
  induction fuel generalizing D g q with
  | zero =>
    have hlen := (List.subperm_of_subset hq.nodup fun n hn => ((hq.mem n).mp hn).1).length_le
    rw [List.length_append] at hlen
    have hnil : q = [] := List.length_eq_zero_iff.mp (by omega)
    rw [hnil, groups, List.append_nil]
    exact .nil D
  | succ fuel ih =>
    rw [groups]
    by_cases hnil : q = []
    · rw [if_pos hnil, hnil, List.append_nil]
      exact .nil D
    · rw [if_neg hnil]
      have hq' : Queue a D (q ++ []) := by rwa [List.append_nil]
      obtain ⟨new, hnew, hc, hq, hd⟩ := hg.group hq' []
      rw [List.nil_append] at hnew hq hd
      have hpos := List.length_pos_iff.mpr hnil
      have hrun := ih hc hq (by rw [List.length_append]; omega)
      rw [List.append_assoc] at hrun
      have h := hd _ hrun
      rw [List.append_nil, ← hnew] at h
      exact h

theorem flatMap_filter {l : List (α × List α)} (hl : (Assoc.keys l).Nodup) (n : α) :
    (l.filter fun p => p.1 = n).flatMap Prod.snd = (l.lookup n).getD [] := by
  induction l with
  | nil => rfl
  | cons p l ih =>
    obtain ⟨hp, hl⟩ := List.nodup_cons.mp hl
    rw [List.filter_cons, Assoc.lookup_cons_eq]
    by_cases h : n = p.1
    · rw [if_pos (decide_eq_true h.symm), if_pos h, List.flatMap_cons, ih hl, h,
        Assoc.lookup_eq_none.mpr hp, Option.getD_some, Option.getD_none, List.append_nil]
    · rw [if_neg (by simpa using Ne.symm h), if_neg h, ih hl]

theorem flatMap_replicate {l : List (α × List α)} (hl : ∀ p ∈ l, p.2.Nodup) (n : α) :
    (l.flatMap fun p => List.replicate (p.2.count n) p.1) =
      (l.filter fun p => n ∈ p.2).map Prod.fst := by
  induction l with
  | nil => rfl
  | cons p l ih =>
    obtain ⟨hp, hl⟩ := List.forall_mem_cons.mp hl
    rw [List.flatMap_cons, ih hl]
    by_cases h : n ∈ p.2
    · rw [List.filter_cons, if_pos (decide_eq_true h), List.count_eq_one_of_mem hp h]
      rfl
    · rw [List.filter_cons, if_neg (by simpa using h), List.count_eq_zero.mpr h]
      rfl

variable (a) in
theorem counts_graph : Counts a [] (graph a.items) := by
  refine ⟨fun n hn => ?_, fun n => ?_⟩
  · rw [graph, info_adds, flatMap_filter a.nodup, ← preds,
      List.filter_eq_self.mpr fun p _ => decide_eq_true List.not_mem_nil]
    exact Nat.zero_add _
  · rw [graph, info_adds, flatMap_replicate a.nodup_preds, nodes, Assoc.keys, List.filter_map]
    refine congrArg (List.map Prod.fst) (List.filter_congr fun p hp => ?_)
    rw [Function.comp_apply, preds_of_mem hp]

theorem mem_keys_graph : n ∈ (graph a.items).keys ↔ n ∈ a.nodes := by
  rw [graph, mem_keys_adds]
  constructor
  · rintro (h | ⟨p, hp, rfl | h⟩)
    · cases h
    · exact List.mem_map_of_mem hp
    · exact a.closed p hp n h
  · intro h
    obtain ⟨p, hp, rfl⟩ := exists_item h
    exact .inr ⟨p, hp, .inl rfl⟩

theorem mem_ready : n ∈ ready (graph a.items) ↔ n ∈ a.nodes ∧ a.preds n = [] := by
  rw [ready, List.mem_filter, mem_keys_graph, decide_eq_true_iff]
  refine and_congr_right fun hn => ?_
  rw [(counts_graph a).left n hn, List.length_eq_zero_iff, List.filter_eq_nil_iff,
    List.eq_nil_iff_forall_not_mem]
  exact forall₂_congr fun p _ => by simp

variable (a) in
theorem queue_ready : Queue a [] (ready (graph a.items)) := by
  refine ⟨(graph a.items).nodup.filter _, fun n => ?_, ?_⟩
  · rw [List.nil_append, mem_ready, List.eq_nil_iff_forall_not_mem]
    exact and_congr_right fun _ => forall_congr' fun p => by simp
  · refine List.pairwise_of_forall_mem_list fun u hu v _ he => ?_
    rw [Edge, (mem_ready.mp hu).2] at he
    cases he

/-- The order of the sorter is a run of the queue. -/
theorem drains (h : staticOrder a.items = some out) :
    Drains a [] (ready (graph a.items)) out := by
  rw [staticOrder] at h
  split at h
  · cases h
  · cases h
    have hlen : a.nodes.length ≤ (graph a.items).keys.length :=
      (List.subperm_of_subset a.nodup fun n hn => mem_keys_graph.mpr hn).length_le
    exact drains_groups (counts_graph a) (queue_ready a) (by rwa [List.length_nil, Nat.add_zero])

/-- **`CycleError`** is raised where a node leads back to itself. -/
theorem staticOrder_eq_none : staticOrder a.items = none ↔ ¬ Acyclic a.Edge := by
  have hstep (m n : α) : n ∈ (info (graph a.items) m).successors ↔ a.Edge m n := by
    rw [(counts_graph a).successors, List.mem_filter, decide_eq_true_iff]
    exact and_iff_right_of_imp fun h => (mem_nodes_of_edge h).2
  have hcycle : hasCycle (graph a.items) = true ↔ ∃ n, Relation.TransGen a.Edge n n := by
    have hE : Worklist.Step (fun m => (info (graph a.items) m).successors) = a.Edge :=
      funext fun m => funext fun n => propext (hstep m n)
    have hU (m n : α) (h : n ∈ (info (graph a.items) m).successors) :
        n ∈ (graph a.items).keys :=
      mem_keys_graph.mpr (mem_nodes_of_edge ((hstep m n).mp h)).2
    rw [hasCycle, List.any_eq_true]
    refine exists_congr fun n => ?_
    rw [decide_eq_true_iff, Worklist.mem_closure_iff (fun m _ => hU m) (hU n) le_rfl, hE,
      Relation.TransGen.head'_iff]
    simp only [hstep]
    refine and_iff_right_of_imp fun h => ?_
    obtain ⟨m, hm, -⟩ := h
    exact mem_keys_graph.mpr (mem_nodes_of_edge hm).1
  rw [staticOrder, Acyclic, not_forall_not, ← hcycle]
  split <;> simp_all

/-- **The order of the sorter** holds every node once, none before its predecessors. -/
theorem staticOrder_perm (h : staticOrder a.items = some out) :
    out.Perm a.nodes ∧ out.Pairwise fun u v => ¬ a.Edge v u := by
  have ha : Acyclic a.Edge := by
    by_contra ha
    rw [staticOrder_eq_none.mpr ha] at h
    cases h
  have hq := (drains h).queue (queue_ready a)
  refine ⟨hq.perm ha, ?_⟩
  have ho := hq.order
  rwa [List.append_nil] at ho

theorem keys_bare {l : List (α × List α)} (hl : ∀ p ∈ l, p.2 = [])
    (hn : (g.keys ++ Assoc.keys l).Nodup) : (l.foldl add g).keys = g.keys ++ Assoc.keys l := by
  induction l generalizing g with
  | nil => exact (List.append_nil _).symm
  | cons p l ih =>
    obtain ⟨hp, hl⟩ := List.forall_mem_cons.mp hl
    have hnot : p.1 ∉ g.keys := fun h =>
      (List.nodup_append.mp hn).2.2 p.1 h p.1 List.mem_cons_self rfl
    have hkeys : (add g p).keys = g.keys ++ [p.1] := by
      rw [add, hp, List.foldl_nil, Dict.keys_set_of_notMem hnot]
    rw [Assoc.keys_cons, List.append_cons] at hn ⊢
    rw [List.foldl_cons, ih hl (by rwa [hkeys]), hkeys]

theorem keys_starts {l : List (α × List α)} : g.keys <+: (l.foldl add g).keys := by
  have hedges (m : α) (preds : List α) (g : Graph α) :
      g.keys <+: (preds.foldl (addEdge m) g).keys := by
    induction preds generalizing g with
    | nil => exact List.prefix_rfl
    | cons q preds ih => exact (Dict.keys_set_starts _ _ _).trans (ih _)
  induction l generalizing g with
  | nil => exact List.prefix_rfl
  | cons p l ih => exact ((Dict.keys_set_starts _ _ _).trans (hedges _ _ _)).trans ih

/-- On settled additions the nodes without predecessors are named first. -/
theorem Settled.ready_eq (hs : a.Settled) : ready (graph a.items) = a.released [] := by
  have hstart : a.released [] <+: a.nodes := filter_starts (hs.pairwise List.nil_prefix)
  have hnil {n : α} : n ∈ a.released [] ↔ n ∈ ready (graph a.items) := by
    rw [mem_ready, released, List.mem_filter, decide_eq_true_iff, List.eq_nil_iff_forall_not_mem]
    exact and_congr_right fun _ => forall_congr' fun p => by simp
  obtain ⟨rest, hrest⟩ := hstart
  obtain ⟨l₁, l₂, hl, h₁, -⟩ := List.map_eq_append_iff.mp hrest.symm
  have hbare : (l₁.foldl add Dict.empty).keys = a.released [] := by
    have hno : ((Dict.empty : Graph α).keys ++ Assoc.keys l₁).Nodup := by
      show (l₁.map Prod.fst).Nodup
      rw [h₁]
      exact a.nodup.filter _
    rw [keys_bare (fun p hp => ?_) hno, Assoc.keys, h₁]
    · rfl
    · have hr : p.1 ∈ a.released [] := h₁ ▸ List.mem_map_of_mem hp
      rw [← preds_of_mem (hl ▸ List.mem_append_left _ hp)]
      exact (mem_ready.mp (hnil.mp hr)).2
  obtain ⟨more, hmore⟩ : a.released [] <+: (graph a.items).keys := by
    rw [graph, hl, List.foldl_append, ← hbare]
    exact keys_starts
  have hno : (a.released [] ++ more).Nodup := hmore ▸ (graph a.items).nodup
  have hin (n : α) (hn : n ∈ (graph a.items).keys) :
      decide ((info (graph a.items) n).npredecessors = 0) = decide (n ∈ a.released []) := by
    rw [decide_eq_decide, hnil, ready, List.mem_filter, decide_eq_true_iff]
    exact (and_iff_right hn).symm
  rw [ready, List.filter_congr hin, ← hmore, List.filter_append,
    List.filter_eq_self.mpr fun n hn => decide_eq_true hn, List.filter_eq_nil_iff.mpr,
    List.append_nil]
  intro n hn hr
  exact (List.nodup_append.mp hno).2.2 n (of_decide_eq_true hr) n hn rfl

/-- **The sorter keeps the order of the additions** if and only if their last predecessors come
in that order too. -/
theorem staticOrder_nodes_iff (ha : Acyclic a.Edge) :
    staticOrder a.items = some a.nodes ↔ a.Settled := by
  constructor
  · exact fun h k => (drains h).pairwise (queue_ready a) rfl (Nat.zero_le k)
  · intro hs
    cases h : staticOrder a.items with
    | none => exact absurd ha (staticOrder_eq_none.mp h)
    | some out =>
      have hstart := (drains h).starts_nodes hs List.nil_prefix
        (by rw [List.nil_append, hs.ready_eq])
      rw [hstart.eq_of_length (staticOrder_perm h).1.length_eq]

end Additions

end Sysforge.TopologicalSorter
