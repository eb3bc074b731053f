import Mathlib.Data.List.Lex
import Mathlib.Data.Prod.Lex

/-!
# Comparisons with a sign

A comparison gives `-1`, `0` or `1`. The comparison of a linear order is written `sign`, and
`thenBy` lets a second comparison decide where the first one does not, which is how pairs and lists
are compared lexicographically.
-/

namespace Sysforge.Comparison

/-- The second comparison decides where the first one does not. -/
def thenBy (x y : ℤ) : ℤ := if x = 0 then y else x

theorem thenBy_zero (y : ℤ) : thenBy 0 y = y := if_pos rfl

theorem thenBy_of_ne {x : ℤ} (h : x ≠ 0) (y : ℤ) : thenBy x y = x := if_neg h

theorem thenBy_one (y : ℤ) : thenBy 1 y = 1 := thenBy_of_ne (by decide) y

theorem thenBy_neg_one (y : ℤ) : thenBy (-1) y = -1 := thenBy_of_ne (by decide) y

theorem thenBy_eq_zero {x y : ℤ} : thenBy x y = 0 ↔ x = 0 ∧ y = 0 := by
  by_cases h : x = 0
  · rw [h, thenBy_zero]
    exact (and_iff_right rfl).symm
  · rw [thenBy_of_ne h]
    exact (and_iff_left_of_imp fun hx => absurd hx h).symm

theorem neg_thenBy (x y : ℤ) : -thenBy x y = thenBy (-x) (-y) := by
  by_cases h : x = 0
  · rw [h, thenBy_zero, Int.neg_zero, thenBy_zero]
  · rw [thenBy_of_ne h, thenBy_of_ne (Int.neg_ne_zero.mpr h)]

section Sign

variable {α β : Type*} [LinearOrder α] [LinearOrder β] {x y z : α}

/-- How two elements compare. -/
def sign (x y : α) : ℤ := if x < y then -1 else if y < x then 1 else 0

theorem sign_of_lt (h : x < y) : sign x y = -1 := if_pos h

theorem sign_of_gt (h : y < x) : sign x y = 1 := by
  rw [sign, if_neg h.not_gt, if_pos h]

theorem sign_self (x : α) : sign x x = 0 := by
  rw [sign, if_neg (lt_irrefl x), if_neg (lt_irrefl x)]

theorem sign_eq_zero : sign x y = 0 ↔ x = y := by
  rcases lt_trichotomy x y with h | rfl | h
  · rw [sign_of_lt h]
    exact iff_of_false (by decide) h.ne
  · exact iff_of_true (sign_self x) rfl
  · rw [sign_of_gt h]
    exact iff_of_false (by decide) h.ne'

theorem sign_nonpos : sign x y ≤ 0 ↔ x ≤ y := by
  rcases lt_trichotomy x y with h | rfl | h
  · rw [sign_of_lt h]
    exact iff_of_true (by decide) h.le
  · rw [sign_self]
    exact iff_of_true le_rfl le_rfl
  · rw [sign_of_gt h]
    exact iff_of_false (by decide) h.not_ge

theorem sign_swap (x y : α) : sign x y = -sign y x := by
  rcases lt_trichotomy x y with h | rfl | h
  · rw [sign_of_lt h, sign_of_gt h]
  · rw [sign_self, Int.neg_zero]
  · rw [sign_of_gt h, sign_of_lt h, Int.neg_neg]

/-- A strictly monotone map keeps comparisons. -/
theorem sign_map {f : α → β} (hf : StrictMono f) (x y : α) : sign (f x) (f y) = sign x y := by
  rw [sign, sign, if_congr hf.lt_iff_lt rfl (if_congr hf.lt_iff_lt rfl rfl)]

theorem sign_toLex (x y : α) (u v : β) :
    sign (toLex (x, u)) (toLex (y, v)) = thenBy (sign x y) (sign u v) := by
  rcases lt_trichotomy x y with h | rfl | h
  · rw [sign_of_lt h, sign_of_lt (Prod.Lex.toLex_lt_toLex.mpr (.inl h)), thenBy_neg_one]
  · rw [sign_self, thenBy_zero]
    have hmono : StrictMono fun w : β => toLex (x, w) := fun _ _ hlt =>
      Prod.Lex.toLex_lt_toLex.mpr (.inr ⟨rfl, hlt⟩)
    exact sign_map hmono u v
  · rw [sign_of_gt h, sign_of_gt (Prod.Lex.toLex_lt_toLex.mpr (.inl h)), thenBy_one]

theorem sign_toLex_self (x : α) (u v : β) : sign (toLex (x, u)) (toLex (x, v)) = sign u v := by
  rw [sign_toLex, sign_self, thenBy_zero]

theorem sign_toLex_of_lt (h : x < y) (u v : β) : sign (toLex (x, u)) (toLex (y, v)) = -1 := by
  rw [sign_toLex, sign_of_lt h, thenBy_neg_one]

theorem sign_toLex_of_gt (h : y < x) (u v : β) : sign (toLex (x, u)) (toLex (y, v)) = 1 := by
  rw [sign_toLex, sign_of_gt h, thenBy_one]

theorem sign_cons (x y : α) (l m : List α) :
    sign (x :: l) (y :: m) = thenBy (sign x y) (sign l m) := by
  rcases lt_trichotomy x y with h | rfl | h
  · rw [sign_of_lt h, sign_of_lt (List.Lex.rel h), thenBy_neg_one]
  · rw [sign_self, thenBy_zero]
    have hmono : StrictMono (List.cons x) := fun _ _ hlt => List.Lex.cons hlt
    exact sign_map hmono l m
  · rw [sign_of_gt h, sign_of_gt (List.Lex.rel h), thenBy_one]

end Sign

end Sysforge.Comparison
