import Mathlib.Data.List.Dedup
import Mathlib.Data.List.Perm.Subperm
import Mathlib.Logic.Relation

/-!
# Closing a set under a relation by a worklist

`reach next fuel seen todo` pops a node of `todo` and pushes those of its neighbours that were not
seen before. Every node is pushed once, so fuel for the nodes there are is enough
(`mem_closure_iff`).
-/

namespace Sysforge.Worklist

variable {α : Type*} [DecidableEq α]

/-- Push a node that was not seen before. -/
def push (acc : List α × List α) (a : α) : List α × List α :=
  if a ∈ acc.1 then acc else (a :: acc.1, a :: acc.2)

/-- Pop a node and push its neighbours, until nothing is left to do. -/
def reach (next : α → List α) : ℕ → List α → List α → List α
  | 0, seen, _ => seen
  | _ + 1, seen, [] => seen
  | fuel + 1, seen, a :: todo =>
    reach next fuel ((next a).foldl push (seen, todo)).1 ((next a).foldl push (seen, todo)).2

/-- The closure of `seeds` under `next`; `bound` is the number of nodes there are. -/
def closure (next : α → List α) (bound : ℕ) (seeds : List α) : List α :=
  reach next (bound + 1) seeds.dedup seeds.dedup

/-- `b` is a neighbour of `a`. -/
def Step (next : α → List α) (a b : α) : Prop := b ∈ next a

variable {next : α → List α} {seen todo : List α} {a b : α} {U : List α}

/-- What pushing a list of nodes does. -/
structure Pushed (bs : List α) (acc acc' : List α × List α) : Prop where
  seen : ∀ a, a ∈ acc'.1 ↔ a ∈ acc.1 ∨ a ∈ bs
  todo : ∀ a, a ∈ acc'.2 ↔ a ∈ acc.2 ∨ a ∈ bs ∧ a ∉ acc.1
  nodup : acc.1.Nodup → acc'.1.Nodup
  length : acc'.1.length + acc.2.length = acc.1.length + acc'.2.length

theorem pushed_push (acc : List α × List α) (a : α) : Pushed [a] acc (push acc a) := by
  rw [push]
  split
  next h => exact ⟨fun b => by simp; rintro rfl; exact h, fun b => by simp; rintro rfl; simp [h],
    id, rfl⟩
  next h =>
    refine ⟨fun b => by simp [or_comm], fun b => ?_, fun hn => List.nodup_cons.mpr ⟨h, hn⟩, by
      simp only [List.length_cons]; omega⟩
    rw [List.mem_cons, List.mem_singleton, or_comm]
    constructor
    · rintro (h' | rfl)
      · exact .inl h'
      · exact .inr ⟨rfl, h⟩
    · rintro (h' | ⟨rfl, -⟩)
      · exact .inl h'
      · exact .inr rfl

theorem pushed_foldl (bs : List α) (acc : List α × List α) :
    Pushed bs acc (bs.foldl push acc) := by
  induction bs generalizing acc with
  | nil => exact ⟨by simp, by simp, id, rfl⟩
  | cons b bs ih =>
    have h₁ := pushed_push acc b
    have h₂ := ih (push acc b)
    refine ⟨fun a => ?_, fun a => ?_, fun h => h₂.nodup (h₁.nodup h), ?_⟩
    · rw [List.foldl_cons, h₂.seen, h₁.seen, List.mem_singleton, List.mem_cons, or_assoc]
    · rw [List.foldl_cons, h₂.todo, h₁.todo, h₁.seen, List.mem_singleton, List.mem_cons]
      by_cases hb : a = b
      · subst hb
        tauto
      · simp [hb]
    · have := h₁.length
      have := h₂.length
      rw [List.foldl_cons]
      omega

/-- What a worklist keeps: its nodes have been seen, and so have the neighbours of those it has
done. -/
structure Open (next : α → List α) (U seen todo : List α) : Prop where
  pending : ∀ a ∈ todo, a ∈ seen
  finished : ∀ a ∈ seen, a ∈ todo ∨ ∀ b ∈ next a, b ∈ seen
  nodup : seen.Nodup
  known : ∀ a ∈ seen, a ∈ U

theorem Open.step (h : Open next U seen (a :: todo)) (hU : ∀ b ∈ next a, b ∈ U) :
    Open next U ((next a).foldl push (seen, todo)).1 ((next a).foldl push (seen, todo)).2 := by
  have hp := pushed_foldl (next a) (seen, todo)
  refine ⟨fun b hb => ?_, fun b hb => ?_, hp.nodup h.nodup, fun b hb => ?_⟩
  · rw [hp.seen]
    rcases (hp.todo b).mp hb with hb | ⟨hb, -⟩
    · exact .inl (h.pending b (List.mem_cons_of_mem _ hb))
    · exact .inr hb
  · have hsub : ∀ c ∈ seen, c ∈ ((next a).foldl push (seen, todo)).1 :=
      fun c hc => (hp.seen c).mpr (.inl hc)
    by_cases hs : b ∈ seen
    · rcases h.finished b hs with hb | hb
      · obtain rfl | hb := List.mem_cons.mp hb
        · exact .inr fun c hc => (hp.seen c).mpr (.inr hc)
        · exact .inl ((hp.todo b).mpr (.inl hb))
      · exact .inr fun c hc => hsub c (hb c hc)
    · exact .inl ((hp.todo b).mpr (.inr ⟨((hp.seen b).mp hb).resolve_left hs, hs⟩))
  · exact ((hp.seen b).mp hb).elim (h.known b) (hU b)

/-- With enough fuel the worklist runs empty: what was seen is then closed. -/
theorem reach_closed {fuel : ℕ} (hU : ∀ a ∈ U, ∀ b ∈ next a, b ∈ U) (h : Open next U seen todo)
    (hf : U.length + todo.length ≤ fuel + seen.length) :
    (∀ a ∈ seen, a ∈ reach next fuel seen todo) ∧
      ∀ a ∈ reach next fuel seen todo, ∀ b ∈ next a, b ∈ reach next fuel seen todo := by
  have hclosed : todo = [] → ∀ a ∈ seen, ∀ b ∈ next a, b ∈ seen := fun e a ha => by
    rcases h.finished a ha with h | h
    · rw [e] at h
      cases h
    · exact h
  induction fuel generalizing seen todo with
  | zero =>
    have hlen := (List.subperm_of_subset h.nodup fun a ha => h.known a ha).length_le
    have he : todo = [] := List.length_eq_zero_iff.mp (by omega)
    exact ⟨fun a ha => ha, hclosed he⟩
  | succ fuel ih =>
    cases todo with
    | nil => exact ⟨fun a ha => ha, hclosed rfl⟩
    | cons a todo =>
      have hp := pushed_foldl (next a) (seen, todo)
      have h' := h.step (hU a (h.known a (h.pending a List.mem_cons_self)))
      have hlen := hp.length
      simp only [List.length_cons] at hf hlen
      have hc : ((next a).foldl push (seen, todo)).2 = [] →
          ∀ b ∈ ((next a).foldl push (seen, todo)).1, ∀ c ∈ next b,
            c ∈ ((next a).foldl push (seen, todo)).1 := fun e b hb => by
        rcases h'.finished b hb with h | h
        · rw [e] at h
          cases h
        · exact h
      obtain ⟨ih₁, ih₂⟩ := ih h' (by omega) hc
      exact ⟨fun b hb => ih₁ b ((hp.seen b).mpr (.inl hb)), ih₂⟩

/-- What was seen stays seen. -/
theorem subset_reach {fuel : ℕ} : ∀ a ∈ seen, a ∈ reach next fuel seen todo := by
  induction fuel generalizing seen todo with
  | zero => exact fun a ha => ha
  | succ fuel ih =>
    cases todo with
    | nil => exact fun a ha => ha
    | cons b todo =>
      exact fun a ha => ih a (((pushed_foldl (next b) (seen, todo)).seen a).mpr (.inl ha))

theorem subset_closure {bound : ℕ} {seeds : List α} (h : a ∈ seeds) :
    a ∈ closure next bound seeds := subset_reach a (List.mem_dedup.mpr h)

/-- Everything seen comes from the nodes seen at first. -/
theorem reach_from {fuel : ℕ} {P : α → Prop} (hs : ∀ a ∈ seen, P a) (ht : ∀ a ∈ todo, a ∈ seen)
    (hP : ∀ a b, P a → b ∈ next a → P b) : ∀ a ∈ reach next fuel seen todo, P a := by
  induction fuel generalizing seen todo with
  | zero => exact hs
  | succ fuel ih =>
    cases todo with
    | nil => exact hs
    | cons a todo =>
      have hp := pushed_foldl (next a) (seen, todo)
      refine ih (fun b hb => ?_) fun b hb => ?_
      · rcases (hp.seen b).mp hb with hb | hb
        · exact hs b hb
        · exact hP a b (hs a (ht a List.mem_cons_self)) hb
      · rw [hp.seen]
        rcases (hp.todo b).mp hb with hb | hb
        · exact .inl (ht b (List.mem_cons_of_mem _ hb))
        · exact .inr hb.1

/-- **The closure** holds what the seeds lead to, when the bound covers every node there is. -/
theorem mem_closure_iff {bound : ℕ} {seeds : List α} (hU : ∀ a ∈ U, ∀ b ∈ next a, b ∈ U)
    (hs : ∀ a ∈ seeds, a ∈ U) (hb : U.length ≤ bound) : a ∈ closure next bound seeds ↔
      ∃ s ∈ seeds, Relation.ReflTransGen (Step next) s a := by
  have hopen : Open next U seeds.dedup seeds.dedup :=
    ⟨fun _ h => h, fun _ h => .inl h, seeds.nodup_dedup, fun a ha => hs a (List.mem_dedup.mp ha)⟩
  constructor
  · refine reach_from (P := fun a => ∃ s ∈ seeds, Relation.ReflTransGen (Step next) s a)
      (fun a ha => ⟨a, List.mem_dedup.mp ha, .refl⟩) (fun a ha => ha) (fun a b h hb => ?_) a
    obtain ⟨s, hs, h⟩ := h
    exact ⟨s, hs, h.tail hb⟩
  · intro h
    obtain ⟨s, hs, h⟩ := h
    obtain ⟨h₁, h₂⟩ := @reach_closed α _ next _ _ U (bound + 1) hU hopen (by omega)
    induction h with
    | refl => exact h₁ s (List.mem_dedup.mpr hs)
    | tail _ hb ih => exact h₂ _ ih _ hb

/-! ## The worklist as a loop -/

/-- The same as a loop that has to end: nothing is returned when the fuel runs out. -/
def run (next : α → List α) : ℕ → List α → List α → Option (List α)
  | 0, _, _ => none
  | _ + 1, seen, [] => some seen
  | fuel + 1, seen, a :: todo =>
    run next fuel ((next a).foldl push (seen, todo)).1 ((next a).foldl push (seen, todo)).2

/-- A node is pushed once, so the loop ends. -/
theorem Open.run_eq_reach {fuel : ℕ} (hU : ∀ a ∈ U, ∀ b ∈ next a, b ∈ U)
    (h : Open next U seen todo) (hf : U.length + todo.length < fuel + seen.length) :
    run next fuel seen todo = some (reach next fuel seen todo) := by
  induction fuel generalizing seen todo with
  | zero =>
    have hlen := (List.subperm_of_subset h.nodup fun a ha => h.known a ha).length_le
    omega
  | succ fuel ih =>
    cases todo with
    | nil => rfl
    | cons a todo =>
      have hlen := (pushed_foldl (next a) (seen, todo)).length
      simp only [List.length_cons] at hf hlen
      exact ih (h.step (hU a (h.known a (h.pending a List.mem_cons_self)))) (by omega)

/-- A loop that has ended returns the same with more fuel. -/
theorem run_of_le {fuel fuel' : ℕ} {r : List α} (hle : fuel ≤ fuel')
    (h : run next fuel seen todo = some r) : run next fuel' seen todo = some r := by
  induction fuel generalizing fuel' seen todo with
  | zero => cases h
  | succ fuel ih =>
    obtain ⟨fuel', rfl⟩ : ∃ n, fuel' = n + 1 := ⟨fuel' - 1, by omega⟩
    cases todo with
    | nil => exact h
    | cons a todo =>
      rw [run] at h ⊢
      exact ih (by omega) h

/-- **The loop** ends with what the nodes seen at first lead to. -/
theorem Open.run_closure (h : Open next U seen todo) (hU : ∀ a ∈ U, ∀ b ∈ next a, b ∈ U) :
    ∃ n r, (∀ fuel, n ≤ fuel → run next fuel seen todo = some r) ∧
      ∀ a, a ∈ r ↔ ∃ s ∈ seen, Relation.ReflTransGen (Step next) s a := by
  have hfuel : U.length + todo.length < U.length + todo.length + 1 + seen.length := by omega
  refine ⟨U.length + todo.length + 1, _, fun fuel hle => run_of_le hle (h.run_eq_reach hU hfuel),
    fun a => ⟨?_, ?_⟩⟩
  · refine reach_from (P := fun a => ∃ s ∈ seen, Relation.ReflTransGen (Step next) s a)
      (fun a ha => ⟨a, ha, .refl⟩) h.pending (fun a b ha hb => ?_) a
    obtain ⟨s, hs, ha⟩ := ha
    exact ⟨s, hs, ha.tail hb⟩
  · rintro ⟨s, hs, hr⟩
    have hc := reach_closed hU h (Nat.le_of_lt hfuel)
    induction hr with
    | refl => exact hc.1 s hs
    | tail _ hb ih => exact hc.2 _ ih _ hb

end Sysforge.Worklist
