import Mathlib.Data.List.Basic

/-!
# Batches that shrink when they fail

`loop` works off a list batch by batch. An attempt that fails halves the size of the batches that
follow, and one that fails at the smallest size ends the loop. Which attempts succeed is given, so
the size of each and what is done before it are known beforehand (`sizeAt`, `doneAt`): the loop
either works off everything or ends at the one attempt at which it gives up (`loop_spec`).
-/

namespace Sysforge.Batches

variable {α σ : Type*}

/-- Work off what is left, from an attempt on. -/
def loop (ok : ℕ → Bool) (least : ℕ) (f : σ → List α → σ) :
    ℕ → ℕ → ℕ → List α → σ → Option σ
  | 0, _, _, _, _ => none
  | fuel + 1, k, size, left, s =>
    if left.isEmpty then some s
    else if ok k then loop ok least f fuel (k + 1) size (left.drop size) (f s (left.take size))
    else if least < size then loop ok least f fuel (k + 1) (size / 2) left s
    else some s

/-- The size of the batches at an attempt. -/
def sizeAt (ok : ℕ → Bool) (most : ℕ) : ℕ → ℕ
  | 0 => most
  | k + 1 => if ok k then sizeAt ok most k else sizeAt ok most k / 2

/-- How much is done before an attempt, if there is as much to do. -/
def doneAt (ok : ℕ → Bool) (most : ℕ) : ℕ → ℕ
  | 0 => 0
  | k + 1 => if ok k then doneAt ok most k + sizeAt ok most k else doneAt ok most k

/-- The attempt fails at the smallest size. -/
def FailsLeast (ok : ℕ → Bool) (most least k : ℕ) : Prop := ok k = false ∧ sizeAt ok most k ≤ least

/-- The attempt is the first to fail at the smallest size, and comes before everything is done. -/
structure GivesUp (ok : ℕ → Bool) (most least total k : ℕ) : Prop where
  fails : FailsLeast ok most least k
  first : ∀ j < k, ¬ FailsLeast ok most least j
  undone : doneAt ok most k < total

/-- Batches, one after the other. -/
inductive Batched (f : σ → List α → σ) (s : σ) : List α → σ → Prop
  | nil : Batched f s [] s
  | batch {l : List α} {t : σ} (b : List α) :
    Batched f s l t → b ≠ [] → Batched f s (l ++ b) (f t b)

variable {ok : ℕ → Bool} {most least total j k : ℕ} {f : σ → List α → σ} {l : List α} {s t : σ}

theorem sizeAt_succ_of_ok (h : ok k = true) : sizeAt ok most (k + 1) = sizeAt ok most k := if_pos h

theorem sizeAt_succ_of_fails (h : ok k = false) :
    sizeAt ok most (k + 1) = sizeAt ok most k / 2 := if_neg (ne_true_of_eq_false h)

theorem doneAt_succ_of_ok (h : ok k = true) :
    doneAt ok most (k + 1) = doneAt ok most k + sizeAt ok most k := if_pos h

theorem doneAt_succ_of_fails (h : ok k = false) : doneAt ok most (k + 1) = doneAt ok most k :=
  if_neg (ne_true_of_eq_false h)

theorem doneAt_le_succ (k : ℕ) : doneAt ok most k ≤ doneAt ok most (k + 1) := by
  cases h : ok k with
  | true => rw [doneAt_succ_of_ok h]; omega
  | false => exact Nat.le_of_eq (doneAt_succ_of_fails h).symm

theorem doneAt_mono (h : j ≤ k) : doneAt ok most j ≤ doneAt ok most k := by
  induction h with
  | refl => exact Nat.le_refl _
  | step _ ih => exact Nat.le_trans ih (doneAt_le_succ _)

/-- There is one attempt at most at which the loop gives up. -/
theorem GivesUp.unique (hj : GivesUp ok most least total j) (hk : GivesUp ok most least total k) :
    j = k := by
  obtain h | h | h := Nat.lt_trichotomy j k
  · exact absurd hj.fails (hk.first j h)
  · exact h
  · exact absurd hk.fails (hj.first k h)

/-- Where the loop stands before an attempt. -/
structure Under (ok : ℕ → Bool) (most least : ℕ) (f : σ → List α → σ) (l : List α) (s : σ) (k : ℕ)
    (t : σ) : Prop where
  batched : Batched f s (l.take (doneAt ok most k)) t
  going : ∀ j < k, ¬ FailsLeast ok most least j
  pos : 0 < sizeAt ok most k

theorem Under.going_succ (h : Under ok most least f l s k t) (hk : ¬ FailsLeast ok most least k) :
    ∀ j < k + 1, ¬ FailsLeast ok most least j := by
  intro j hj
  obtain hj | rfl := Nat.lt_succ_iff_lt_or_eq.mp hj
  · exact h.going j hj
  · exact hk

/-- An attempt that succeeds. -/
theorem Under.succeed (h : Under ok most least f l s k t) (hok : ok k = true)
    (hleft : l.drop (doneAt ok most k) ≠ []) : Under ok most least f l s (k + 1)
      (f t ((l.drop (doneAt ok most k)).take (sizeAt ok most k))) := by
  refine ⟨?_, h.going_succ fun hk => ?_, ?_⟩
  · rw [doneAt_succ_of_ok hok, List.take_add]
    refine h.batched.batch _ fun hnil => ?_
    rw [List.take_eq_nil_iff] at hnil
    exact hnil.elim (fun hz => absurd hz (Nat.pos_iff_ne_zero.mp h.pos)) hleft
  · rw [hk.1] at hok
    cases hok
  · rw [sizeAt_succ_of_ok hok]
    exact h.pos

/-- An attempt that fails above the smallest size. -/
theorem Under.shrink (h : Under ok most least f l s k t) (hleast : 0 < least) (hok : ok k = false)
    (hsize : least < sizeAt ok most k) : Under ok most least f l s (k + 1) t := by
  refine ⟨?_, h.going_succ fun hk => absurd hk.2 (by omega), ?_⟩
  · rw [doneAt_succ_of_fails hok]
    exact h.batched
  · rw [sizeAt_succ_of_fails hok]
    omega

/-- How the loop ends: everything is done, or it gives up. -/
inductive Ends (ok : ℕ → Bool) (most least : ℕ) (f : σ → List α → σ) (l : List α) (s t : σ) : Prop
  | done : Batched f s l t → (∀ k, ¬ GivesUp ok most least l.length k) → Ends ok most least f l s t
  | gaveUp (k : ℕ) : GivesUp ok most least l.length k →
      Batched f s (l.take (doneAt ok most k)) t → Ends ok most least f l s t

theorem Under.ends_of_done (h : Under ok most least f l s k t)
    (hleft : l.drop (doneAt ok most k) = []) : Ends ok most least f l s t := by
  have hall : l.length ≤ doneAt ok most k := List.drop_eq_nil_iff.mp hleft
  refine .done (List.take_of_length_le hall ▸ h.batched) fun j hj => ?_
  obtain hjk | hjk := Nat.lt_or_ge j k
  · exact h.going j hjk hj.fails
  · exact absurd hj.undone (Nat.not_lt.mpr (Nat.le_trans hall (doneAt_mono hjk)))

/-- The loop from an attempt on ends, with fuel for what is left. -/
theorem Under.ends (hleast : 0 < least) (h : Under ok most least f l s k t) :
    ∃ r, (∀ fuel, (l.drop (doneAt ok most k)).length + sizeAt ok most k < fuel →
        loop ok least f fuel k (sizeAt ok most k) (l.drop (doneAt ok most k)) t = some r) ∧
      Ends ok most least f l s r := by
  generalize hm : (l.drop (doneAt ok most k)).length + sizeAt ok most k = m
  induction m using Nat.strongRecOn generalizing k t with
  | ind m ih =>
    by_cases hleft : l.drop (doneAt ok most k) = []
    · refine ⟨t, fun fuel hf => ?_, h.ends_of_done hleft⟩
      obtain ⟨fuel, rfl⟩ : ∃ n, fuel = n + 1 := ⟨fuel - 1, by omega⟩
      rw [hleft]
      rfl
    · have hempty : ¬ (l.drop (doneAt ok most k)).isEmpty = true := fun he =>
        hleft (List.isEmpty_iff.mp he)
      have hpos : 0 < (l.drop (doneAt ok most k)).length := List.length_pos_iff.mpr hleft
      cases hok : ok k with
      | true =>
        have hdrop : l.drop (doneAt ok most (k + 1)) =
            (l.drop (doneAt ok most k)).drop (sizeAt ok most k) := by
          rw [doneAt_succ_of_ok hok, List.drop_drop]
        have hlen := congrArg List.length hdrop
        rw [List.length_drop (l := l.drop (doneAt ok most k))] at hlen
        have hsize : sizeAt ok most (k + 1) = sizeAt ok most k := sizeAt_succ_of_ok hok
        have hsizepos := h.pos
        obtain ⟨r, hr, hends⟩ := ih _ (by omega) (h.succeed hok hleft) rfl
        refine ⟨r, fun fuel hf => ?_, hends⟩
        obtain ⟨fuel, rfl⟩ : ∃ n, fuel = n + 1 := ⟨fuel - 1, by omega⟩
        rw [loop, if_neg hempty, if_pos hok, ← hdrop]
        have hnext := hr fuel (by omega)
        rwa [hsize] at hnext
      | false =>
        have hno : ¬ ok k = true := ne_true_of_eq_false hok
        by_cases hsize : least < sizeAt ok most k
        · have hsame : doneAt ok most (k + 1) = doneAt ok most k := doneAt_succ_of_fails hok
          have hhalf : sizeAt ok most (k + 1) = sizeAt ok most k / 2 := sizeAt_succ_of_fails hok
          have hshrink := h.shrink hleast hok hsize
          obtain ⟨r, hr, hends⟩ := ih _ (by rw [hsame, hhalf]; omega) hshrink rfl
          refine ⟨r, fun fuel hf => ?_, hends⟩
          obtain ⟨fuel, rfl⟩ : ∃ n, fuel = n + 1 := ⟨fuel - 1, by omega⟩
          rw [loop, if_neg hempty, if_neg hno, if_pos hsize]
          have hnext := hr fuel (by rw [hsame, hhalf]; omega)
          rwa [hsame, hhalf] at hnext
        · refine ⟨t, fun fuel hf => ?_, .gaveUp k ⟨⟨hok, by omega⟩, h.going, ?_⟩ h.batched⟩
          · obtain ⟨fuel, rfl⟩ : ∃ n, fuel = n + 1 := ⟨fuel - 1, by omega⟩
            rw [loop, if_neg hempty, if_neg hno, if_neg hsize]
          · rw [List.length_drop] at hpos
            omega

/-- **The loop ends**, with everything done or at the attempt at which it gives up. -/
theorem loop_spec (ok : ℕ → Bool) {most least : ℕ} (hmost : 0 < most) (hleast : 0 < least)
    (f : σ → List α → σ) (l : List α) (s : σ) :
    ∃ n r, (∀ fuel, n ≤ fuel → loop ok least f fuel 0 most l s = some r) ∧
      Ends ok most least f l s r := by
  have hstart : Under ok most least f l s 0 s :=
    ⟨.nil, fun j hj => absurd hj (Nat.not_lt_zero j), hmost⟩
  obtain ⟨r, hr, hends⟩ := hstart.ends hleast
  exact ⟨l.length + most + 1, r, fun fuel hf => hr fuel hf, hends⟩

end Sysforge.Batches
