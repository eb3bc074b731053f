import Mathlib.Data.List.Infix
import Sysforge.Foundations.LineBreaks

/-!
# Replacing in a text

What `str.replace` does to lengths, to the characters that are no blanks and to a text that ends
with the pattern, and `str.replace` of the first occurrence only.
-/

namespace Sysforge.Text

section Replace

variable {pat r s t k : Text}

/-- The characters that are no blanks. -/
def inked (s : Text) : Text := s.filter fun c => !isSpace c

theorem inked_append (s t : Text) : inked (s ++ t) = inked s ++ inked t := List.filter_append s t

theorem inked_joinLines (ls : List Text) : inked (joinLines ls) = ls.flatMap inked := by
  induction ls with
  | nil => rfl
  | cons l ls ih =>
    cases ls with
    | nil => exact (List.append_nil _).symm
    | cons m ms =>
      have hnewline : inked ('\n' :: joinLines (m :: ms)) = inked (joinLines (m :: ms)) :=
        List.filter_cons_of_neg (by decide)
      rw [joinLines, inked_append, hnewline, ih]
      · rfl
      · exact List.cons_ne_nil m ms

theorem inked_cons_of_isSpace {c : Char} (hc : isSpace c = true) (s : Text) :
    inked (c :: s) = inked s := List.filter_cons_of_neg (by rw [hc]; decide)

theorem inked_eq_nil : inked s = [] ↔ ∀ c ∈ s, isSpace c = true := by
  refine List.filter_eq_nil_iff.trans (forall₂_congr fun c _ => ?_)
  rw [Bool.not_eq_true', Bool.not_eq_false]

/-- The words of a text are its ink. -/
theorem flatMap_words (s : Text) : (words s).flatMap inked = inked s := by
  have hfilter : ∀ ws : List Text,
      (ws.filter fun w => w ≠ []).flatMap inked = ws.flatMap inked := by
    intro ws
    induction ws with
    | nil => rfl
    | cons w ws ih =>
      by_cases hw : w = []
      · rw [List.filter_cons_of_neg (by simp [hw]), ih, hw]
        rfl
      · rw [List.filter_cons_of_pos (by simp [hw]), List.flatMap_cons, ih, List.flatMap_cons]
  rw [words, hfilter]
  induction s with
  | nil => rfl
  | cons c s ih =>
    rw [List.splitOnP_cons_eq_if_modifyHead]
    split_ifs with hc
    · rw [List.flatMap_cons, ih, inked_cons_of_isSpace hc]
      rfl
    · obtain ⟨w, ws, hws⟩ := List.exists_cons_of_ne_nil (List.splitOnP_ne_nil isSpace s)
      rw [hws, List.flatMap_cons] at ih
      rw [hws, List.modifyHead_cons, List.flatMap_cons, ← List.singleton_append, inked_append,
        List.append_assoc, ih, ← inked_append]
      rfl

theorem inked_unwords (ws : List Text) : inked (unwords ws) = ws.flatMap inked := by
  induction ws with
  | nil => rfl
  | cons w ws ih =>
    cases ws with
    | nil => rw [unwords, List.intercalate_singleton, List.flatMap_cons, List.flatMap_nil,
        List.append_nil]
    | cons v ws =>
      rw [unwords, List.intercalate_cons_cons, List.append_assoc, inked_append, inked_append,
        ← unwords, ih, List.flatMap_cons]
      rfl

theorem inked_unwords_words (s : Text) : inked (unwords (words s)) = inked s :=
  (inked_unwords (words s)).trans (flatMap_words s)

theorem isPrefixOf_append_self (s t : Text) : s.isPrefixOf (s ++ t) = true :=
  List.isPrefixOf_iff_prefix.mpr (List.prefix_append s t)

/-- The first occurrence is replaced, and then the rest. -/
theorem replace_of_isPrefixOf (hpat : pat ≠ []) (s : Text) :
    replace pat r (pat ++ s) = r ++ replace pat r s := by
  obtain ⟨a, p, rfl⟩ := List.exists_cons_of_ne_nil hpat
  exact replace_append_self s

theorem replace_cons_of_not {c : Char} (h : ¬pat <+: c :: s) :
    replace pat r (c :: s) = c :: replace pat r s := by
  rw [replace_cons, if_neg fun hp => h (List.isPrefixOf_iff_prefix.mp hp)]

/-- A text is passed over, or begins with the pattern. -/
theorem replace_induction {motive : Text → Prop} (hpat : pat ≠ []) (nil : motive [])
    (skip : ∀ c s, ¬pat <+: c :: s → motive s → motive (c :: s))
    (found : ∀ s, motive s → motive (pat ++ s)) (s : Text) : motive s := by
  induction hn : s.length using Nat.strong_induction_on generalizing s with
  | _ n ih =>
    subst hn
    cases s with
    | nil => exact nil
    | cons c s =>
      by_cases hp : pat <+: c :: s
      · obtain ⟨t, ht⟩ := hp
        rw [← ht]
        refine found t (ih t.length ?_ t rfl)
        rw [← ht, List.length_append]
        exact Nat.lt_add_of_pos_left (List.length_pos_iff.mpr hpat)
      · exact skip c s hp (ih s.length (Nat.lt_succ_self _) s rfl)

theorem replace_self (hpat : pat ≠ []) (s : Text) : replace pat pat s = s := by
  induction s using replace_induction hpat with
  | nil => rfl
  | skip c s h ih => rw [replace_cons_of_not h, ih]
  | found s ih => rw [replace_of_isPrefixOf hpat, ih]

theorem inked_replace (hpat : pat ≠ []) (h : inked r = inked pat) (s : Text) :
    inked (replace pat r s) = inked s := by
  induction s using replace_induction hpat with
  | nil => rfl
  | skip c s hc ih =>
    rw [replace_cons_of_not hc, ← List.singleton_append, inked_append, ih, ← inked_append]
    rfl
  | found s ih => rw [replace_of_isPrefixOf hpat, inked_append, inked_append, ih, h]

theorem mem_replace (hpat : pat ≠ []) {c : Char} (h : c ∈ replace pat r s) : c ∈ r ∨ c ∈ s := by
  induction s using replace_induction hpat with
  | nil => exact .inr h
  | skip d s hd ih =>
    rw [replace_cons_of_not hd] at h
    rcases List.mem_cons.mp h with rfl | h
    · exact .inr List.mem_cons_self
    · exact (ih h).imp_right (List.mem_cons_of_mem d)
  | found s ih =>
    rw [replace_of_isPrefixOf hpat] at h
    rcases List.mem_append.mp h with h | h
    · exact .inl h
    · exact (ih h).imp_right (List.mem_append_right pat)

/-- A replacement of another length is seen in the length. -/
theorem length_replace (hpat : pat ≠ []) (s : Text) :
    ∃ n, (replace pat r s).length + n * pat.length = s.length + n * r.length := by
  induction s using replace_induction hpat with
  | nil =>
    refine ⟨0, ?_⟩
    rw [Nat.zero_mul, Nat.zero_mul]
    rfl
  | skip c s h ih =>
    obtain ⟨n, hn⟩ := ih
    refine ⟨n, ?_⟩
    rw [replace_cons_of_not h, List.length_cons, List.length_cons]
    omega
  | found s ih =>
    obtain ⟨n, hn⟩ := ih
    refine ⟨n + 1, ?_⟩
    rw [replace_of_isPrefixOf hpat, List.length_append, List.length_append, Nat.succ_mul,
      Nat.succ_mul]
    omega

/-- Only a replacement by itself leaves a text that ends with the pattern as it is. -/
theorem eq_of_replace_eq (hpat : pat ≠ []) (h : replace pat r (k ++ pat) = k ++ pat) : r = pat := by
  induction k with
  | nil =>
    have hrep := replace_of_isPrefixOf (r := r) hpat []
    rw [List.append_nil, show replace pat r [] = [] from rfl, List.append_nil] at hrep
    rw [List.nil_append, hrep] at h
    exact h
  | cons c k ih =>
    by_cases hp : pat <+: c :: (k ++ pat)
    · obtain ⟨t, ht⟩ := hp
      rw [List.cons_append, ← ht, replace_of_isPrefixOf hpat] at h
      obtain ⟨n, hn⟩ := length_replace (r := r) hpat t
      have hlen := congrArg List.length h
      rw [List.length_append, List.length_append] at hlen
      refine (List.append_inj h ?_).1
      by_contra hne
      rcases Nat.lt_or_gt_of_ne hne with hlt | hgt
      · have hmul := Nat.mul_le_mul_left n hlt.le
        omega
      · have hmul := Nat.mul_le_mul_left n hgt.le
        omega
    · rw [List.cons_append, replace_cons_of_not hp] at h
      exact ih (List.cons.inj h).2

/-- A pattern that overlaps itself repeats what stands before. -/
theorem subset_of_prefix_append (ht : t ≠ []) (h : pat <+: t ++ pat) : pat ⊆ t := by
  induction hn : pat.length using Nat.strong_induction_on generalizing pat with
  | _ n ih =>
    rcases List.prefix_or_prefix_of_prefix h (List.prefix_append t pat) with hp | ⟨rest, rfl⟩
    · exact hp.subset
    · rw [List.prefix_append_right_inj] at h
      have hlt : rest.length < n := by
        rw [← hn, List.length_append]
        exact Nat.lt_add_of_pos_left (List.length_pos_iff.mpr ht)
      have hrest : rest ⊆ t := ih rest.length hlt h rfl
      exact List.append_subset.mpr ⟨List.Subset.refl t, hrest⟩

/-- A pattern with a character that does not come before is replaced at the end only. -/
theorem replace_append_of_mem {c : Char} (hc : c ∈ pat) (hk : c ∉ k) :
    replace pat r (k ++ pat) = k ++ r := by
  have hpat : pat ≠ [] := List.ne_nil_of_mem hc
  induction k with
  | nil =>
    have hrep := replace_of_isPrefixOf (r := r) hpat []
    rw [List.append_nil, show replace pat r [] = [] from rfl, List.append_nil] at hrep
    exact hrep
  | cons d k ih =>
    have hnot : ¬pat <+: d :: (k ++ pat) := fun hp =>
      hk (subset_of_prefix_append (List.cons_ne_nil d k) hp hc)
    rw [List.cons_append, replace_cons_of_not hnot, ih fun h => hk (List.mem_cons_of_mem d h)]
    rfl

end Replace

/-! ## The first occurrence -/

section First

variable {old new l s : Text}

/-- `s.replace(old, new, 1)` for a text that is not empty. -/
def replaceFirst (old new : Text) : Text → Text
  | [] => []
  | c :: s =>
    if old.isPrefixOf (c :: s) then new ++ (c :: s).drop old.length
    else c :: replaceFirst old new s

/-- The first line that has the text is edited. -/
def editFirst (old new : Text) : List Text → List Text
  | [] => []
  | l :: ls => if old <:+: l then replaceFirst old new l :: ls else l :: editFirst old new ls

theorem replaceFirst_of_prefix (hold : old ≠ []) (new s : Text) :
    replaceFirst old new (old ++ s) = new ++ s := by
  obtain ⟨a, p, rfl⟩ := List.exists_cons_of_ne_nil hold
  have hpre : (a :: p).isPrefixOf (a :: (p ++ s)) = true := isPrefixOf_append_self (a :: p) s
  rw [List.cons_append, replaceFirst, if_pos hpre]
  exact congrArg _ List.drop_left

theorem replaceFirst_cons_of_not {c : Char} (h : ¬old <+: c :: s) :
    replaceFirst old new (c :: s) = c :: replaceFirst old new s := by
  rw [replaceFirst, if_neg fun hp => h (List.isPrefixOf_iff_prefix.mp hp)]

theorem replaceFirst_of_isInfix (hold : old ≠ []) (new : Text) (h : old <:+: l) :
    ∃ u w, l = u ++ (old ++ w) ∧ replaceFirst old new l = u ++ (new ++ w) := by
  induction l with
  | nil => exact absurd (List.infix_nil.mp h) hold
  | cons c l ih =>
    by_cases hp : old <+: c :: l
    · obtain ⟨w, hw⟩ := hp
      refine ⟨[], w, hw.symm, ?_⟩
      rw [← hw, replaceFirst_of_prefix hold]
      rfl
    · obtain ⟨u, w, rfl, hrep⟩ := ih ((List.infix_cons_iff.mp h).resolve_left hp)
      refine ⟨c :: u, w, rfl, ?_⟩
      rw [replaceFirst_cons_of_not hp, hrep]
      rfl

theorem prefix_of_prefix_newline (hn : '\n' ∉ old) (h : old <+: l ++ '\n' :: s) : old <+: l := by
  rcases List.prefix_or_prefix_of_prefix h (List.prefix_append l ('\n' :: s)) with hp | ⟨v, hv⟩
  · exact hp
  · rw [← hv, List.prefix_append_right_inj] at h
    cases v with
    | nil => rw [← hv, List.append_nil]
    | cons d v =>
      obtain ⟨rfl, -⟩ := List.cons_prefix_cons.mp h
      exact absurd (hv ▸ List.mem_append_right l List.mem_cons_self) hn

/-- A text of one line is looked for in one line after the other. -/
theorem replaceFirst_append_newline (hold : old ≠ []) (hn : '\n' ∉ old) (l s : Text) :
    replaceFirst old new (l ++ '\n' :: s) = if old <:+: l then replaceFirst old new l ++ '\n' :: s
      else l ++ '\n' :: replaceFirst old new s := by
  split_ifs with h
  · induction l with
    | nil => exact absurd (List.infix_nil.mp h) hold
    | cons c l ih =>
      by_cases hp : old <+: c :: l
      · obtain ⟨w, hw⟩ := hp
        rw [← hw, List.append_assoc, replaceFirst_of_prefix hold, replaceFirst_of_prefix hold,
          List.append_assoc]
      · have hl := (List.infix_cons_iff.mp h).resolve_left hp
        have hp' : ¬old <+: c :: (l ++ '\n' :: s) := fun hpre =>
          hp (prefix_of_prefix_newline (l := c :: l) hn hpre)
        rw [List.cons_append, replaceFirst_cons_of_not hp', replaceFirst_cons_of_not hp, ih hl]
        rfl
  · induction l with
    | nil =>
      have hp : ¬old <+: '\n' :: s := fun hpre =>
        h (prefix_of_prefix_newline (l := []) hn hpre).isInfix
      exact replaceFirst_cons_of_not hp
    | cons c l ih =>
      have hp : ¬old <+: c :: (l ++ '\n' :: s) := fun hpre =>
        h (prefix_of_prefix_newline (l := c :: l) hn hpre).isInfix
      rw [List.cons_append, replaceFirst_cons_of_not hp,
        ih fun hl => h (hl.trans (List.suffix_cons c l).isInfix)]
      rfl

theorem replaceFirst_joinLines (hold : old ≠ []) (hn : '\n' ∉ old) (ls : List Text) :
    replaceFirst old new (joinLines ls) = joinLines (editFirst old new ls) := by
  induction ls with
  | nil => rfl
  | cons l ls ih =>
    cases ls with
    | nil =>
      rw [editFirst]
      split_ifs with h
      · rfl
      · have hsame : ∀ t : Text, ¬old <:+: t → replaceFirst old new t = t := by
          intro t ht
          induction t with
          | nil => rfl
          | cons c t iht =>
            rw [replaceFirst_cons_of_not fun hp => ht hp.isInfix,
              iht fun hi => ht (hi.trans (List.suffix_cons c t).isInfix)]
        exact hsame l h
    | cons m ms =>
      have hne : editFirst old new (m :: ms) ≠ [] := by
        rw [editFirst]
        split_ifs
        · exact List.cons_ne_nil _ _
        · exact List.cons_ne_nil _ _
      rw [joinLines, replaceFirst_append_newline hold hn, editFirst]
      · split_ifs
        · rfl
        · rw [ih, joinLines]
          exact hne
      · exact List.cons_ne_nil m ms

/-- The line is edited itself where no line before has its text. -/
theorem editFirst_self (hold : old ≠ []) {before after : List Text}
    (h : ∀ b ∈ before, ¬old <:+: b) :
    editFirst old new (before ++ old :: after) = before ++ new :: after := by
  induction before with
  | nil =>
    have hrep := replaceFirst_of_prefix hold new []
    rw [List.append_nil, List.append_nil] at hrep
    rw [List.nil_append, editFirst, if_pos List.infix_rfl, hrep]
    rfl
  | cons b before ih =>
    rw [List.cons_append, editFirst, if_neg (h b List.mem_cons_self),
      ih fun c hc => h c (List.mem_cons_of_mem b hc)]
    rfl

/-- Else a line before is. -/
theorem editFirst_before (hold : old ≠ []) (new : Text) {before : List Text}
    (h : ∃ b ∈ before, old <:+: b)
    (rest : List Text) : ∃ front u w back, before = front ++ (u ++ (old ++ w)) :: back ∧
      editFirst old new (before ++ rest) = front ++ (u ++ (new ++ w)) :: (back ++ rest) := by
  induction before with
  | nil =>
    obtain ⟨b, hb, -⟩ := h
    exact absurd hb List.not_mem_nil
  | cons b before ih =>
    by_cases hb : old <:+: b
    · obtain ⟨u, w, rfl, hrep⟩ := replaceFirst_of_isInfix hold new hb
      refine ⟨[], u, w, before, rfl, ?_⟩
      rw [List.cons_append, editFirst, if_pos hb, hrep]
      rfl
    · obtain ⟨c, hc, hin⟩ := h
      have hmem : c ∈ before := (List.mem_cons.mp hc).resolve_left fun heq => hb (heq ▸ hin)
      obtain ⟨front, u, w, back, rfl, hedit⟩ := ih ⟨c, hmem, hin⟩
      refine ⟨b :: front, u, w, back, rfl, ?_⟩
      rw [List.cons_append, editFirst, if_neg hb, hedit]
      rfl

end First

end Sysforge.Text
