import Mathlib.Data.List.Infix
import Sysforge.Foundations.Text

/-!
# Substitution by a scan

`re.subn` of a pattern that the code applies from the left, when what the pattern takes at a place is
given as a function: from the character before the place and the text from there on it gives the
replacement and the text behind the match. A match is never empty.
-/

namespace Sysforge.Text

/-- What a pattern takes at a place: the replacement and the text behind. -/
abbrev Matcher := Option Char → Text → Option (Text × Text)

/-- The text with its matches replaced, and their number, when the first characters are part of a
match. -/
def subnFrom (m : Matcher) : Option Char → ℕ → Text → Text × ℕ
  | _, _, [] => ([], 0)
  | _, k + 1, c :: s => subnFrom m (some c) k s
  | prev, 0, c :: s =>
    match m prev (c :: s) with
    | some p =>
      let r := subnFrom m (some c) (s.length - p.2.length) s
      (p.1 ++ r.1, r.2 + 1)
    | none =>
      let r := subnFrom m (some c) 0 s
      (c :: r.1, r.2)

/-- `pattern.subn(repl, s)`. -/
def subn (m : Matcher) (s : Text) : Text × ℕ := subnFrom m none 0 s

/-- The last character of a text, or the one before it. -/
def lastChar (prev : Option Char) (u : Text) : Option Char := u.foldl (fun _ c => some c) prev

section Scan

variable {m : Matcher} {prev : Option Char} {c : Char} {r s t u : Text}

theorem lastChar_append : lastChar prev (u ++ t) = lastChar (lastChar prev u) t := List.foldl_append

theorem lastChar_concat : lastChar prev (u ++ [c]) = some c := by
  rw [lastChar_append]
  rfl

theorem subnFrom_skip (u t : Text) (prev : Option Char) :
    subnFrom m prev u.length (u ++ t) = subnFrom m (lastChar prev u) 0 t := by
  induction u generalizing prev with
  | nil => rfl
  | cons c u ih => exact ih (some c)

/-- A match is replaced, and the scan goes on behind it. -/
theorem subnFrom_match (hu : u ≠ []) (h : m prev (u ++ t) = some (r, t)) :
    subnFrom m prev 0 (u ++ t) = (r ++ (subnFrom m (lastChar prev u) 0 t).1,
      (subnFrom m (lastChar prev u) 0 t).2 + 1) := by
  obtain ⟨c, u, rfl⟩ := List.exists_cons_of_ne_nil hu
  have hlen : (u ++ t).length - t.length = u.length := by
    rw [List.length_append, Nat.add_sub_cancel]
  rw [List.cons_append] at h
  rw [List.cons_append, subnFrom, h]
  dsimp only
  rw [hlen, subnFrom_skip]
  rfl

theorem subnFrom_cons (h : m prev (c :: s) = none) :
    subnFrom m prev 0 (c :: s) =
      (c :: (subnFrom m (some c) 0 s).1, (subnFrom m (some c) 0 s).2) := by
  rw [subnFrom, h]

/-- A text in which no match begins is kept. -/
theorem subnFrom_append (h : ∀ v w, u = v ++ w → w ≠ [] → m (lastChar prev v) (w ++ t) = none) :
    subnFrom m prev 0 (u ++ t) = (u ++ (subnFrom m (lastChar prev u) 0 t).1,
      (subnFrom m (lastChar prev u) 0 t).2) := by
  induction u generalizing prev with
  | nil => rfl
  | cons c u ih =>
    have hc : m prev (c :: (u ++ t)) = none := h [] (c :: u) rfl (List.cons_ne_nil c u)
    rw [List.cons_append, subnFrom_cons hc, ih fun v w hv hw => h (c :: v) w (congrArg _ hv) hw]
    rfl

theorem subnFrom_of_none (h : ∀ v w, u = v ++ w → w ≠ [] → m (lastChar prev v) w = none) :
    subnFrom m prev 0 u = (u, 0) := by
  have happ := @subnFrom_append m prev [] u fun v w hv hw => by
    rw [List.append_nil]
    exact h v w hv hw
  rw [List.append_nil] at happ
  rw [happ, subnFrom, List.append_nil]

/-- Without a match nothing changes. -/
theorem subnFrom_of_count (h : (subnFrom m prev 0 s).2 = 0) : (subnFrom m prev 0 s).1 = s := by
  induction s generalizing prev with
  | nil => rw [subnFrom]
  | cons c s ih =>
    cases hm : m prev (c :: s) with
    | none =>
      rw [subnFrom_cons hm] at h ⊢
      exact congrArg _ (ih h)
    | some p =>
      rw [subnFrom, hm] at h
      exact absurd h (Nat.succ_ne_zero _)

end Scan

/-! ## Texts that are found -/

section Behind

variable {a : Char} {p q x y rest : Text}

/-- The text behind the first occurrence of a pattern. -/
def behind (pat : Text) : Text → Option Text
  | [] => none
  | c :: s => if pat.isPrefixOf (c :: s) then some ((c :: s).drop pat.length) else behind pat s

/-- An occurrence of a pattern whose first character does not come again is within one of two texts
that the pattern separates. -/
theorem prefix_of_append (ha : a ∉ p) (hx : x ≠ []) (h : a :: p <+: x ++ (a :: q)) : a :: p <+: x := by
  rcases List.prefix_or_prefix_of_prefix h (List.prefix_append x (a :: q)) with h' | ⟨v, hv⟩
  · exact h'
  · rw [← hv, List.prefix_append_right_inj] at h
    cases v with
    | nil =>
      rw [← hv, List.append_nil]
    | cons b v =>
      obtain ⟨c, x, rfl⟩ := List.exists_cons_of_ne_nil hx
      obtain ⟨w, hw⟩ := h
      obtain ⟨rfl, -⟩ := List.cons.inj hw
      rw [List.cons_append] at hv
      exact absurd ((List.cons.inj hv).2 ▸ List.mem_append_right x List.mem_cons_self) ha

theorem behind_append (ha : a ∉ p) (hx : ¬a :: p <:+: x) (rest : Text) :
    behind (a :: p) (x ++ (a :: p ++ rest)) = some rest := by
  induction x with
  | nil =>
    have hpre : (a :: p).isPrefixOf (a :: (p ++ rest)) = true :=
      List.isPrefixOf_iff_prefix.mpr (List.prefix_append (a :: p) rest)
    rw [List.nil_append, List.cons_append, behind, if_pos hpre]
    exact congrArg some List.drop_left
  | cons c x ih =>
    have hnot : ¬(a :: p).isPrefixOf (c :: (x ++ (a :: p ++ rest))) = true := by
      intro h
      have hpre := List.isPrefixOf_iff_prefix.mp h
      exact hx (prefix_of_append ha (List.cons_ne_nil c x) hpre).isInfix
    rw [List.cons_append, behind, if_neg hnot]
    exact ih fun h => hx (h.trans (List.suffix_cons c x).isInfix)

theorem behind_eq_some {pat s : Text} (h : behind pat s = some rest) : ∃ x, s = x ++ (pat ++ rest) := by
  induction s with
  | nil => cases h
  | cons c s ih =>
    rw [behind] at h
    split_ifs at h with hpre
    · obtain ⟨w, hw⟩ := List.isPrefixOf_iff_prefix.mp hpre
      rw [← hw, List.drop_left] at h
      exact ⟨[], by rw [← hw, Option.some.inj h]; rfl⟩
    · obtain ⟨x, hx⟩ := ih h
      exact ⟨c :: x, by rw [hx]; rfl⟩

/-- The first occurrence is before or at any other. -/
theorem behind_of_isInfix {pat : Text} (hpat : pat ≠ []) (x y : Text) :
    ∃ rest z, behind pat (x ++ (pat ++ y)) = some rest ∧ rest = z ++ y := by
  induction x with
  | nil =>
    obtain ⟨a, p, rfl⟩ := List.exists_cons_of_ne_nil hpat
    have hpre : (a :: p).isPrefixOf (a :: (p ++ y)) = true :=
      List.isPrefixOf_iff_prefix.mpr (List.prefix_append (a :: p) y)
    refine ⟨y, [], ?_, rfl⟩
    rw [List.nil_append, List.cons_append, behind, if_pos hpre]
    exact congrArg some List.drop_left
  | cons c x ih =>
    rw [List.cons_append, behind]
    split_ifs with hpre
    · have hle := (List.isPrefixOf_iff_prefix.mp hpre).length_le
      refine ⟨_, ((c :: x) ++ pat).drop pat.length, rfl, ?_⟩
      rw [← List.drop_append_of_le_length]
      · rw [List.cons_append, List.cons_append, List.append_assoc]
      · rw [List.length_append]
        exact Nat.le_add_left _ _
    · exact ih

end Behind

end Sysforge.Text
