import Mathlib.Data.List.Nodup
import Mathlib.Logic.Relation

/-!
# Walking requirements that are resolved

A requirement is resolved to a node, and a node comes with requirements. `walk` pops a requirement
and pushes those of its node when that is new; `finds` stops at a node. With `fuel` for every
requirement there is, the walk ends with the nodes that can be reached (`mem_walk_iff`), and the
search tells whether a node is one of them (`finds_iff`).
-/

namespace Sysforge.ResolvingWalk

variable {δ α : Type*} [DecidableEq α]

/-- Pop a requirement, and push those of its node when that is new. -/
def walk (resolve : δ → Option α) (next : α → List δ) : ℕ → List α → List δ → List α
  | 0, seen, _ => seen
  | _ + 1, seen, [] => seen
  | n + 1, seen, d :: queue =>
    match resolve d with
    | none => walk resolve next n seen queue
    | some a =>
      if a ∈ seen then walk resolve next n seen queue
      else walk resolve next n (a :: seen) ((next a).reverse ++ queue)

/-- The walk, until it comes to a node. -/
def finds (resolve : δ → Option α) (next : α → List δ) (target : α) :
    ℕ → List α → List δ → Bool
  | 0, _, _ => false
  | _ + 1, _, [] => false
  | n + 1, seen, d :: queue =>
    match resolve d with
    | none => finds resolve next target n seen queue
    | some a =>
      if a = target then true
      else if a ∈ seen then finds resolve next target n seen queue
      else finds resolve next target n (a :: seen) ((next a).reverse ++ queue)

/-- The requirements of the nodes that are not seen. -/
def pending (next : α → List δ) (nodes seen : List α) : List δ :=
  (nodes.filter fun a => a ∉ seen).flatMap next

/-- A requirement of one node resolves to the other. -/
def Step (resolve : δ → Option α) (next : α → List δ) (a b : α) : Prop :=
  ∃ d ∈ next a, resolve d = some b

variable {resolve : δ → Option α} {next : α → List δ} {n : ℕ} {nodes seen : List α}
  {queue : List δ} {a b target : α} {d : δ}

/-! ## What is reached -/

theorem subset_walk (n : ℕ) (seen : List α) (queue : List δ) :
    seen ⊆ walk resolve next n seen queue := by
  induction n generalizing seen queue with
  | zero => exact List.Subset.refl seen
  | succ n ih =>
    cases queue with
    | nil => exact List.Subset.refl seen
    | cons d queue =>
      rw [walk]
      cases resolve d with
      | none => exact ih seen queue
      | some a =>
        dsimp only
        split_ifs
        · exact ih seen queue
        · exact fun b hb => ih (a :: seen) _ (List.mem_cons_of_mem a hb)

theorem nodup_walk (h : seen.Nodup) (n : ℕ) (queue : List δ) :
    (walk resolve next n seen queue).Nodup := by
  induction n generalizing seen queue with
  | zero => exact h
  | succ n ih =>
    cases queue with
    | nil => exact h
    | cons d queue =>
      rw [walk]
      cases resolve d with
      | none => exact ih h queue
      | some a =>
        dsimp only
        split_ifs with ha
        · exact ih h queue
        · exact ih (List.nodup_cons.mpr ⟨ha, h⟩) _

/-- What the walk adds can be reached from the queue. -/
theorem reached_of_mem_walk (h : a ∈ walk resolve next n seen queue) : a ∈ seen ∨
    ∃ d ∈ queue, ∃ b, resolve d = some b ∧ Relation.ReflTransGen (Step resolve next) b a := by
  induction n generalizing seen queue with
  | zero => exact .inl h
  | succ n ih =>
    cases queue with
    | nil => exact .inl h
    | cons d queue =>
      rw [walk] at h
      cases hd : resolve d with
      | none =>
        rw [hd] at h
        refine (ih h).imp_right fun ⟨e, he, hreach⟩ => ?_
        exact ⟨e, List.mem_cons_of_mem d he, hreach⟩
      | some b =>
        rw [hd] at h
        dsimp only at h
        split_ifs at h with hb
        · refine (ih h).imp_right fun ⟨e, he, hreach⟩ => ?_
          exact ⟨e, List.mem_cons_of_mem d he, hreach⟩
        · rcases ih h with hmem | ⟨e, he, c, hc, hreach⟩
          · rcases List.mem_cons.mp hmem with rfl | hmem
            · exact .inr ⟨d, List.mem_cons_self, a, hd, .refl⟩
            · exact .inl hmem
          · rcases List.mem_append.mp he with he | he
            · have hstep : Step resolve next b c := ⟨e, List.mem_reverse.mp he, hc⟩
              exact .inr ⟨d, List.mem_cons_self, b, hd, .head hstep hreach⟩
            · exact .inr ⟨e, List.mem_cons_of_mem d he, c, hc, hreach⟩

/-! ## Enough fuel -/

/-- Seeing a node takes its requirements from the pending ones. -/
theorem length_pending (hnodes : nodes.Nodup) (hnext : ∀ a, next a ≠ [] → a ∈ nodes)
    (ha : a ∉ seen) : (pending next nodes (a :: seen)).length + (next a).length =
      (pending next nodes seen).length := by
  have hother : ∀ l : List α, a ∉ l → l.filter (fun b => b ∉ a :: seen) =
      l.filter fun b => b ∉ seen := by
    intro l hl
    refine List.filter_congr fun b hb => decide_eq_decide.mpr (not_congr ?_)
    rw [List.mem_cons]
    exact or_iff_right fun h => hl (h ▸ hb)
  by_cases hmem : a ∈ nodes
  · obtain ⟨front, back, rfl⟩ := List.append_of_mem hmem
    have hfront : a ∉ front := fun h => (List.disjoint_of_nodup_append hnodes h) List.mem_cons_self
    have hback : a ∉ back := (List.nodup_cons.mp hnodes.of_append_right).1
    rw [pending, pending, List.filter_append, List.filter_append, hother front hfront,
      List.filter_cons, List.filter_cons, if_neg, if_pos, hother back hback, List.flatMap_append,
      List.flatMap_append, List.flatMap_cons, List.length_append, List.length_append,
      List.length_append]
    · omega
    · exact decide_eq_true ha
    · rw [decide_eq_true_eq]
      exact not_not.mpr List.mem_cons_self
  · have hnil : next a = [] := by
      by_contra h
      exact hmem (hnext a h)
    rw [pending, pending, hother nodes hmem, hnil, List.length_nil, Nat.add_zero]

/-- What a walk keeps: the requirements of what was seen have been met or wait. -/
def Open (resolve : δ → Option α) (next : α → List δ) (seen : List α) (queue : List δ) : Prop :=
  ∀ a ∈ seen, ∀ d ∈ next a, ∀ b, resolve d = some b → b ∈ seen ∨ d ∈ queue

/-- With enough fuel the walk meets what waits, and what it has seen is closed. -/
theorem walk_closed (hnodes : nodes.Nodup) (hnext : ∀ a, next a ≠ [] → a ∈ nodes)
    (hopen : Open resolve next seen queue)
    (hfuel : queue.length + (pending next nodes seen).length ≤ n) :
    (∀ d ∈ queue, ∀ b, resolve d = some b → b ∈ walk resolve next n seen queue) ∧
      ∀ a ∈ walk resolve next n seen queue, ∀ d ∈ next a, ∀ b, resolve d = some b →
        b ∈ walk resolve next n seen queue := by
  induction n generalizing seen queue with
  | zero =>
    have hnil : queue = [] := List.length_eq_zero_iff.mp (by omega)
    subst hnil
    refine ⟨fun d hd => absurd hd List.not_mem_nil, fun a ha d hd b hb => ?_⟩
    exact (hopen a ha d hd b hb).resolve_right List.not_mem_nil
  | succ n ih =>
    cases queue with
    | nil =>
      refine ⟨fun d hd => absurd hd List.not_mem_nil, fun a ha d hd b hb => ?_⟩
      exact (hopen a ha d hd b hb).resolve_right List.not_mem_nil
    | cons d queue =>
      rw [List.length_cons] at hfuel
      cases hd : resolve d with
      | none =>
        have hwalk : walk resolve next (n + 1) seen (d :: queue) =
            walk resolve next n seen queue := by
          rw [walk, hd]
        have hopen' : Open resolve next seen queue := by
          intro a ha e he b hb
          refine (hopen a ha e he b hb).imp_right fun hmem => ?_
          refine (List.mem_cons.mp hmem).resolve_left fun heq => ?_
          rw [heq, hd] at hb
          cases hb
        obtain ⟨hqueue, hclosed⟩ := ih hopen' (by omega)
        rw [hwalk]
        refine ⟨fun e he b hb => ?_, hclosed⟩
        rcases List.mem_cons.mp he with rfl | he
        · rw [hd] at hb
          cases hb
        · exact hqueue e he b hb
      | some a =>
        by_cases ha : a ∈ seen
        · have hwalk : walk resolve next (n + 1) seen (d :: queue) =
              walk resolve next n seen queue := by
            rw [walk, hd]
            exact if_pos ha
          have hopen' : Open resolve next seen queue := by
            intro c hc e he b hb
            rcases hopen c hc e he b hb with hmem | hmem
            · exact .inl hmem
            · rcases List.mem_cons.mp hmem with rfl | hmem
              · rw [hd] at hb
                exact .inl (Option.some.inj hb ▸ ha)
              · exact .inr hmem
          obtain ⟨hqueue, hclosed⟩ := ih hopen' (by omega)
          rw [hwalk]
          refine ⟨fun e he b hb => ?_, hclosed⟩
          rcases List.mem_cons.mp he with rfl | he
          · rw [hd] at hb
            exact subset_walk n seen queue (Option.some.inj hb ▸ ha)
          · exact hqueue e he b hb
        · have hwalk : walk resolve next (n + 1) seen (d :: queue) =
              walk resolve next n (a :: seen) ((next a).reverse ++ queue) := by
            rw [walk, hd]
            exact if_neg ha
          have hopen' : Open resolve next (a :: seen) ((next a).reverse ++ queue) := by
            intro c hc e he b hb
            rcases List.mem_cons.mp hc with rfl | hc
            · exact .inr (List.mem_append_left _ (List.mem_reverse.mpr he))
            · rcases hopen c hc e he b hb with hmem | hmem
              · exact .inl (List.mem_cons_of_mem a hmem)
              · rcases List.mem_cons.mp hmem with rfl | hmem
                · rw [hd] at hb
                  exact .inl (Option.some.inj hb ▸ List.mem_cons_self)
                · exact .inr (List.mem_append_right _ hmem)
          have hlength := length_pending hnodes hnext ha
          obtain ⟨hqueue, hclosed⟩ := ih hopen' (by
            rw [List.length_append, List.length_reverse]
            omega)
          rw [hwalk]
          refine ⟨fun e he b hb => ?_, hclosed⟩
          rcases List.mem_cons.mp he with rfl | he
          · rw [hd] at hb
            exact subset_walk n (a :: seen) _ (Option.some.inj hb ▸ List.mem_cons_self)
          · exact hqueue e (List.mem_append_right _ he) b hb

/-- **What the walk sees** from nothing is what can be reached. -/
theorem mem_walk_iff (hnodes : nodes.Nodup) (hnext : ∀ a, next a ≠ [] → a ∈ nodes)
    (hfuel : queue.length + (nodes.flatMap next).length ≤ n) :
    a ∈ walk resolve next n [] queue ↔
      ∃ d ∈ queue, ∃ b, resolve d = some b ∧ Relation.ReflTransGen (Step resolve next) b a := by
  have hall : nodes.filter (fun a => a ∉ ([] : List α)) = nodes :=
    List.filter_eq_self.mpr fun b _ => decide_eq_true List.not_mem_nil
  have hpending : (pending next nodes []).length = (nodes.flatMap next).length := by
    rw [pending, hall]
  have hopen : Open resolve next [] queue := fun c hc => absurd hc List.not_mem_nil
  obtain ⟨hqueue, hclosed⟩ := walk_closed hnodes hnext hopen (hpending.symm ▸ hfuel)
  constructor
  · exact fun h => (reached_of_mem_walk h).resolve_left List.not_mem_nil
  · rintro ⟨d, hd, b, hb, hreach⟩
    induction hreach with
    | refl => exact hqueue d hd b hb
    | tail _ hstep ih =>
      obtain ⟨e, he, hc⟩ := hstep
      exact hclosed _ ih e he _ hc

/-! ## Stopping early -/

/-- The search finds the target when the walk sees it. -/
theorem finds_eq_true (h : target ∉ seen) :
    finds resolve next target n seen queue = true ↔ target ∈ walk resolve next n seen queue := by
  induction n generalizing seen queue with
  | zero => exact iff_of_false Bool.false_ne_true h
  | succ n ih =>
    cases queue with
    | nil => exact iff_of_false Bool.false_ne_true h
    | cons d queue =>
      rw [finds, walk]
      cases resolve d with
      | none => exact ih h
      | some a =>
        dsimp only
        by_cases ha : a = target
        · have hseen : a ∉ seen := ha ▸ h
          rw [if_pos ha, if_neg hseen]
          exact iff_of_true rfl (subset_walk n _ _ (ha ▸ List.mem_cons_self))
        · rw [if_neg ha]
          split_ifs
          · exact ih h
          · exact ih fun hmem => (List.mem_cons.mp hmem).elim (fun heq => ha heq.symm) h

theorem finds_iff (hnodes : nodes.Nodup) (hnext : ∀ a, next a ≠ [] → a ∈ nodes)
    (hfuel : queue.length + (nodes.flatMap next).length ≤ n) :
    finds resolve next target n [] queue = true ↔
      ∃ d ∈ queue, ∃ b, resolve d = some b ∧
        Relation.ReflTransGen (Step resolve next) b target := by
  rw [finds_eq_true List.not_mem_nil, mem_walk_iff hnodes hnext hfuel]

end Sysforge.ResolvingWalk
