import Mathlib.Data.List.Infix
import Sysforge.Foundations.Regex

/-!
# Scanning a text from its front

A pattern that does not look back finds in what is left of a text what it would find there alone
(`run_append`), so that the matches of a text can be read off piece by piece: `finditer_append`
and `finditer_cons` take the first piece away. What the repetition of a character and a quoted
text match is computed.
-/

namespace Sysforge.Re

variable {t u w s : Text} {r : Re} {i j k n fuel : ℕ} {c : Groups} {p : Char → Bool} {m : Match}

/-! ## Fuel -/

theorem iterate_end (hi : i ≤ t.length) (h : t.length ≤ i) :
    iterate (run t r) fuel i c = [(i, c)] := by
  cases fuel with
  | zero => rfl
  | succ fuel =>
    have hnil : (run t r i c).flatMap (fun q =>
        if i < q.1 then iterate (run t r) fuel q.1 q.2 else []) = [] := by
      rw [List.flatMap_eq_nil_iff]
      intro q hq
      have hle := (mem_run_le hq).2 hi
      exact if_neg (by omega)
    rw [iterate, hnil, List.nil_append]

/-- The steps of a repetition need no more fuel than there are characters left. -/
theorem iterate_fuel {fuel' : ℕ} (hi : i ≤ t.length) (hf : t.length - i ≤ fuel)
    (hf' : t.length - i ≤ fuel') : iterate (run t r) fuel i c = iterate (run t r) fuel' i c := by
  induction fuel generalizing i c fuel' with
  | zero => rw [iterate_end hi (by omega), iterate_end hi (by omega)]
  | succ fuel ih =>
    cases fuel' with
    | zero => rw [iterate_end hi (by omega), iterate_end hi (by omega)]
    | succ fuel' =>
      rw [iterate, iterate]
      congr 1
      refine List.flatMap_congr fun q hq => ?_
      by_cases hlt : i < q.1
      · rw [if_pos hlt, if_pos hlt]
        exact ih ((mem_run_le hq).2 hi) (by omega) (by omega)
      · rw [if_neg hlt, if_neg hlt]

theorem finditerFrom_end (h : t.length < i) : finditerFrom r t fuel i = [] := by
  cases fuel with
  | zero => rfl
  | succ fuel => exact if_pos h

/-- The matches from a position on need no more fuel than there are positions left. -/
theorem finditerFrom_fuel {fuel' : ℕ} (hf : t.length + 1 - i ≤ fuel)
    (hf' : t.length + 1 - i ≤ fuel') :
    finditerFrom r t fuel i = finditerFrom r t fuel' i := by
  induction fuel generalizing i fuel' with
  | zero => rw [finditerFrom_end (by omega), finditerFrom_end (by omega)]
  | succ fuel ih =>
    cases fuel' with
    | zero => rw [finditerFrom_end (by omega), finditerFrom_end (by omega)]
    | succ fuel' =>
      rw [finditerFrom, finditerFrom]
      by_cases h : t.length < i
      · rw [if_pos h, if_pos h]
      · rw [if_neg h, if_neg h]
        cases matchAt r t i with
        | none => exact ih (by omega) (by omega)
        | some m => exact congrArg (m :: ·) (ih (by omega) (by omega))

/-! ## Patterns that do not look back -/

/-- A pattern without anchors. -/
def Forward : Re → Prop
  | .seq r s | .alt r s => r.Forward ∧ s.Forward
  | .star r | .group _ r => r.Forward
  | .bol | .eol | .boundary _ => False
  | _ => True

/-- The groups of a text that stands `k` characters further. -/
def Groups.shift (k : ℕ) (c : Groups) : Groups := c.map fun g => (g.1, k + g.2.1, k + g.2.2)

/-- A match in a text that stands `k` characters further. -/
def Match.shift (k : ℕ) (m : Match) : Match := ⟨k + m.start, k + m.stop, m.groups.shift k⟩

theorem getElem?_append_add : (u ++ t)[u.length + i]? = t[i]? := by
  rw [List.getElem?_append_right (Nat.le_add_right _ _), Nat.add_sub_cancel_left]

/-- What a pattern that does not look back matches is not changed by a text in front. -/
theorem run_append (hr : r.Forward) (hi : i ≤ t.length) :
    run (u ++ t) r (u.length + i) (c.shift u.length) =
      (run t r i c).map fun q => (u.length + q.1, Groups.shift u.length q.2) := by
  induction r generalizing i c with
  | empty => rfl
  | char p =>
    rw [run_char, run_char, getElem?_append_add]
    by_cases h : t[i]?.any p
    · rw [if_pos h, if_pos h]
      rfl
    · rw [if_neg h, if_neg h]
      rfl
  | seq r s ihr ihs =>
    rw [run_seq, run_seq, ihr hr.1 hi, List.flatMap_map, List.map_flatMap]
    exact List.flatMap_congr fun q hq => ihs hr.2 ((mem_run_le hq).2 hi)
  | alt r s ihr ihs => rw [run_alt, run_alt, ihr hr.1 hi, ihs hr.2 hi, List.map_append]
  | star r ih =>
    -- the repetition has fuel for the whole text, in front or not
    have hlen : (u ++ t).length - (u.length + i) = t.length - i := by
      rw [List.length_append, Nat.add_sub_add_left]
    rw [run, run, @iterate_fuel (u ++ t) r _ _ _ (t.length - i)
      (by rw [List.length_append]; omega) (Nat.sub_le _ _) hlen.le,
      @iterate_fuel t r _ _ _ (t.length - i) hi (Nat.sub_le _ _) le_rfl]
    clear hlen
    generalize t.length - i = f
    induction f generalizing i c with
    | zero => rfl
    | succ f ihf =>
      rw [iterate, iterate, ih hr hi, List.flatMap_map, List.map_append, List.map_flatMap]
      congr 1
      refine List.flatMap_congr fun q hq => ?_
      by_cases hlt : i < q.1
      · rw [if_pos hlt, if_pos (by omega), ihf ((mem_run_le hq).2 hi)]
      · rw [if_neg hlt, if_neg (by omega)]
        rfl
  | group n r ih =>
    rw [run_group, run_group, ih hr hi, List.map_map, List.map_map]
    rfl
  | bol => cases hr
  | eol => cases hr
  | boundary word => cases hr

theorem matchAt_append (hr : r.Forward) (hi : i ≤ t.length) :
    matchAt r (u ++ t) (u.length + i) = (matchAt r t i).map (Match.shift u.length) := by
  rw [matchAt, matchAt, show ([] : Groups) = Groups.shift u.length [] from rfl,
    run_append hr hi, List.head?_map, Option.map_map, Option.map_map]
  rfl

/-- The matches behind a text in front are those of the rest. -/
theorem finditerFrom_append (hr : r.Forward) : finditerFrom r (u ++ t) fuel (u.length + i) =
    (finditerFrom r t fuel i).map (Match.shift u.length) := by
  induction fuel generalizing i with
  | zero => rfl
  | succ fuel ih =>
    rw [finditerFrom, finditerFrom]
    by_cases h : t.length < i
    · rw [if_pos h, if_pos (by rw [List.length_append]; omega)]
      rfl
    · rw [if_neg h, if_neg (by rw [List.length_append]; omega),
        matchAt_append hr (Nat.le_of_not_lt h)]
      cases matchAt r t i with
      | none => exact @ih (i + 1)
      | some m =>
        have hmax : max (u.length + m.stop) (u.length + i + 1) =
            u.length + max m.stop (i + 1) := by omega
        have hrest := @ih (max m.stop (i + 1))
        rw [← hmax] at hrest
        exact congrArg (m.shift u.length :: ·) hrest

/-- A text that a match takes from the front. -/
theorem finditer_append (hr : r.Forward) (hm : matchAt r (u ++ t) 0 = some m)
    (hstop : m.stop = u.length) (hu : u ≠ []) :
    finditer r (u ++ t) = m :: (finditer r t).map (Match.shift u.length) := by
  have hlen := List.length_pos_iff.mpr hu
  have hmax : max u.length (0 + 1) = u.length + 0 := by omega
  rw [finditer, finditerFrom, if_neg (Nat.not_lt_zero _), hm]
  refine congrArg (m :: ·) ?_
  rw [hstop, hmax, finditerFrom_append hr, finditer]
  refine congrArg (List.map _) (finditerFrom_fuel ?_ ?_)
  · rw [List.length_append]
    omega
  · omega

/-- A character that no match takes from the front. -/
theorem finditer_cons (hr : r.Forward) {a : Char} (hm : matchAt r (a :: t) 0 = none) :
    finditer r (a :: t) = (finditer r t).map (Match.shift 1) := by
  rw [finditer, finditerFrom, if_neg (Nat.not_lt_zero _), hm]
  exact @finditerFrom_append t [a] r 0 (t.length + 1) hr

theorem slice_shift : slice (u ++ t) (u.length + i) (u.length + j) = slice t i j := by
  rw [slice, slice, List.take_length_add_append, List.drop_length_add_append]

theorem group_shift (m : Match) (n : ℕ) :
    (m.shift u.length).group (u ++ t) n = m.group t n := by
  have hlookup : (m.shift u.length).groups.lookup n =
      (m.groups.lookup n).map fun g => (u.length + g.1, u.length + g.2) := by
    show (Groups.shift _ m.groups).lookup n = _
    induction m.groups with
    | nil => rfl
    | cons g c ih =>
      rw [Groups.shift, List.map_cons, List.lookup_cons, List.lookup_cons]
      cases n == g.1 with
      | true => rfl
      | false => exact ih
  rw [Match.group, Match.group, hlookup]
  cases m.groups.lookup n with
  | none => rfl
  | some g => exact slice_shift

/-! ## Substitution from the front -/

section Sub

variable {repl repl' : Match → Text} {ms : List Match}

theorem subFrom_shift (h : ∀ m, repl (m.shift u.length) = repl' m) :
    subFrom (u ++ t) repl (u.length + i) (ms.map (Match.shift u.length)) =
      subFrom t repl' i ms := by
  induction ms generalizing i with
  | nil => exact List.drop_length_add_append i
  | cons m ms ih =>
    rw [List.map_cons, subFrom, subFrom, h]
    exact congrArg₂ (· ++ ·) (congrArg (· ++ repl' m) slice_shift) (@ih m.stop)

theorem sub_append (hr : r.Forward) (h : ∀ m, repl (m.shift u.length) = repl' m)
    (hm : matchAt r (u ++ t) 0 = some m) (hstop : m.stop = u.length) (hu : u ≠ []) :
    sub r repl (u ++ t) = repl m ++ sub r repl' t := by
  have hrest := @subFrom_shift t u 0 repl repl' (finditer r t) h
  rw [sub, finditer_append hr hm hstop hu, subFrom, (matchAt_eq_some hm).1, hstop, sub, ← hrest,
    slice, List.take_zero, List.drop_nil, List.nil_append, Nat.add_zero]

theorem sub_cons (hr : r.Forward) {a : Char} (h : ∀ m, repl (m.shift 1) = repl' m)
    (hm : matchAt r (a :: t) 0 = none) : sub r repl (a :: t) = a :: sub r repl' t := by
  rw [sub, finditer_cons hr hm, sub]
  cases hms : finditer r t with
  | nil => rfl
  | cons m ms =>
    have hrest := @subFrom_shift t [a] m.stop repl repl' ms h
    rw [List.map_cons, subFrom, subFrom, h]
    have hslice : slice (a :: t) 0 (m.shift 1).start = a :: slice t 0 m.start := by
      show ((a :: t).take (1 + m.start)).drop 0 = a :: (t.take m.start).drop 0
      rw [List.drop_zero, List.drop_zero, Nat.add_comm, List.take_succ_cons]
    rw [hslice, List.cons_append, List.cons_append]
    exact congrArg (fun s => a :: (slice t 0 m.start ++ repl' m ++ s)) hrest

end Sub

/-! ## What a repetition of characters matches -/

/-- The repetition of a character takes a whole run of it first. -/
theorem run_star_char (hi : t.drop i = w ++ s) (hw : ∀ a ∈ w, p a = true)
    (hs : ∀ a ∈ s.head?, p a = false) : run t (.star (.char p)) i c =
      (List.range (w.length + 1)).reverse.map fun k : ℕ => (i + k, c) := by
  have hlen : w.length ≤ t.length := by
    have := congrArg List.length hi
    rw [List.length_drop, List.length_append] at this
    omega
  rw [run]
  generalize t.length = f at hlen
  induction w generalizing i f with
  | nil =>
    have hget : t[i]? = s.head? := by rw [← List.head?_drop, hi, List.nil_append]
    have hrun : run t (.char p) i c = [] := by
      rw [run_char, hget]
      cases hh : s.head? with
      | none => rfl
      | some a =>
        rw [Option.any_some, hs a hh]
        rfl
    cases f with
    | zero => rfl
    | succ f => rw [iterate, hrun]; rfl
  | cons a w ih =>
    cases f with
    | zero => cases hlen
    | succ f =>
      have hget : t[i]? = some a := by rw [← List.head?_drop, hi]; rfl
      have hnext : t.drop (i + 1) = w ++ s := by
        rw [← List.tail_drop, hi]; rfl
      have hrest := ih hnext (fun b hb => hw b (List.mem_cons_of_mem _ hb)) f (by
        rw [List.length_cons] at hlen
        omega)
      rw [iterate, run_char, hget, Option.any_some, if_pos (hw a List.mem_cons_self),
        List.flatMap_singleton, if_pos (Nat.lt_succ_self i), hrest, List.length_cons,
        @List.range_succ_eq_map (w.length + 1), List.reverse_cons, List.map_append,
        ← List.map_reverse, List.map_map]
      congr 1
      refine List.map_congr_left fun k _ => ?_
      rw [Function.comp_apply, Nat.add_right_comm, Nat.add_assoc]

/-- A character and then as many of another kind as there are. -/
def word (p q : Char → Bool) : Re := .seq (.char p) (.star (.char q))

theorem run_char_of_not (h : t[i]?.any p = false) : run t (.char p) i c = [] := by
  rw [run_char, h, if_neg (by decide)]

section Word

variable {a : Char} {q : Char → Bool}

theorem run_word (hi : t.drop i = a :: w ++ s) (ha : p a = true) (hw : ∀ b ∈ w, q b = true)
    (hs : ∀ b ∈ s.head?, q b = false) : run t (word p q) i c =
      (List.range (w.length + 1)).reverse.map fun k : ℕ => (i + 1 + k, c) := by
  have hget : t[i]? = some a := by
    rw [← List.head?_drop, hi]
    rfl
  have hnext : t.drop (i + 1) = w ++ s := by
    rw [← List.tail_drop, hi]
    rfl
  rw [word, run_seq, run_char, hget, Option.any_some, if_pos ha, List.flatMap_singleton,
    run_star_char hnext hw hs]

theorem run_word_of_not (h : t[i]?.any p = false) : run t (word p q) i c = [] := by
  rw [word, run_seq, run_char_of_not h, List.flatMap_nil]

/-- First the whole word. -/
theorem head?_run_word (hi : t.drop i = a :: w ++ s) (ha : p a = true)
    (hw : ∀ b ∈ w, q b = true) (hs : ∀ b ∈ s.head?, q b = false) :
    (run t (word p q) i c).head? = some (i + 1 + w.length, c) := by
  rw [run_word hi ha hw hs, List.range_succ, List.reverse_append, List.reverse_singleton,
    List.singleton_append, List.map_cons, List.head?_cons]

/-- What follows a word, when it cannot begin inside one. -/
theorem run_group_word_seq (hi : t.drop i = a :: w ++ s) (ha : p a = true)
    (hw : ∀ b ∈ w, q b = true) (hs : ∀ b ∈ s.head?, q b = false)
    (hr : ∀ j d, t[j]?.any q = true → run t r j d = []) :
    run t (.seq (.group n (word p q)) r) i c =
      run t r (i + 1 + w.length) ((n, i, i + 1 + w.length) :: c) := by
  have hnext : t.drop (i + 1) = w ++ s := by
    rw [← List.tail_drop, hi]
    rfl
  rw [run_seq, run_group, run_word hi ha hw hs, List.map_map, List.flatMap_map, List.range_succ,
    List.reverse_append, List.reverse_singleton, List.singleton_append, List.flatMap_cons]
  have hearlier : (List.range w.length).reverse.flatMap (fun k : ℕ =>
      run t r (i + 1 + k) ((n, i, i + 1 + k) :: c)) = [] := by
    rw [List.flatMap_eq_nil_iff]
    intro k hk
    have hk := List.mem_range.mp (List.mem_reverse.mp hk)
    refine hr _ _ ?_
    rw [← List.getElem?_drop, hnext, List.getElem?_append_left hk, List.getElem?_eq_getElem hk]
    exact hw _ (List.getElem_mem hk)
  exact (congrArg _ hearlier).trans (List.append_nil _)

theorem run_group_word_seq_of_not (h : t[i]?.any p = false) :
    run t (.seq (.group n (word p q)) r) i c = [] := by
  rw [run_seq, run_group, run_word_of_not h, List.map_nil, List.flatMap_nil]

end Word

/-- A text between two of one character that does not stand in it, the text a group. -/
def quoted (n : ℕ) (a : Char) : Re :=
  .seq (lit1 a) (.seq (.group n (.star (.char fun c => c ≠ a))) (lit1 a))

theorem run_lit1 {a : Char} :
    run t (lit1 a) i c = if t[i]? = some a then [(i + 1, c)] else [] := by
  rw [lit1, run_char]
  cases t[i]? with
  | none => rfl
  | some b =>
    rw [Option.any_some]
    by_cases h : b = a
    · rw [if_pos (decide_eq_true h), if_pos (congrArg some h)]
    · rw [if_neg (by rwa [decide_eq_true_iff]), if_neg (fun h' => h (Option.some.inj h'))]

/-- A literal that stands at the place. -/
theorem run_lit_of_begins {w : Text} (h : w <+: t.drop i) :
    run t (lit w) i c = [(i + w.length, c)] := by
  induction w generalizing i with
  | nil => rfl
  | cons a w ih =>
    obtain ⟨s, hs⟩ := h
    have hget : t[i]? = some a := by
      rw [← List.head?_drop, ← hs]
      rfl
    have hnext : w <+: t.drop (i + 1) := ⟨s, by rw [← List.tail_drop, ← hs]; rfl⟩
    rw [lit, run_seq, run_lit1, if_pos hget, List.flatMap_singleton, ih hnext, List.length_cons,
      Nat.add_assoc, Nat.add_comm 1]

/-- A literal that does not stand at the place. -/
theorem run_lit_of_not {w : Text} (h : ¬w <+: t.drop i) : run t (lit w) i c = [] := by
  refine List.eq_nil_iff_forall_not_mem.mpr fun q hq => ?_
  exact h (mem_run_lit hq).2

theorem run_quoted {a : Char} (hi : t.drop i = a :: u ++ a :: s) (hu : a ∉ u) :
    run t (quoted n a) i c =
      [(i + u.length + 2, (n, i + 1, i + 1 + u.length) :: c)] := by
  have hget : t[i]? = some a := by
    rw [← List.head?_drop, hi]
    rfl
  have hnext : t.drop (i + 1) = u ++ a :: s := by
    rw [← List.tail_drop, hi]
    rfl
  have hclose : ∀ k < u.length + 1, t[i + 1 + k]? = some a ↔ k = u.length := by
    intro k hk
    rw [← List.getElem?_drop, hnext]
    refine ⟨fun h => ?_, fun h => ?_⟩
    · by_contra hne
      rw [List.getElem?_append_left (by omega)] at h
      exact hu (List.mem_of_getElem? h)
    · rw [h, List.getElem?_append_right le_rfl, Nat.sub_self]
      rfl
  have hrun : run t (.star (.char fun b => decide (b ≠ a))) (i + 1) c =
      (List.range (u.length + 1)).reverse.map fun k : ℕ => (i + 1 + k, c) :=
    run_star_char hnext
      (fun b hb => decide_eq_true fun hab => hu (hab ▸ hb)) fun b hb => by
        obtain rfl : a = b := Option.some.inj hb
        exact decide_eq_false fun h => h rfl
  rw [quoted, run_seq, run_lit1, if_pos hget, List.flatMap_singleton, run_seq, run_group, hrun,
    List.map_map, List.flatMap_map, List.range_succ, List.reverse_append, List.reverse_singleton,
    List.singleton_append, List.flatMap_cons]
  have hlast : run t (lit1 a) (i + 1 + u.length) ((n, i + 1, i + 1 + u.length) :: c) =
      [(i + u.length + 2, (n, i + 1, i + 1 + u.length) :: c)] := by
    rw [run_lit1, if_pos ((hclose _ (Nat.lt_succ_self _)).mpr rfl),
      show i + 1 + u.length + 1 = i + u.length + 2 from by omega]
  have hearlier : (List.range u.length).reverse.flatMap (fun k : ℕ =>
      run t (lit1 a) (i + 1 + k) ((n, i + 1, i + 1 + k) :: c)) = [] := by
    rw [List.flatMap_eq_nil_iff]
    intro k hk
    have hk' := List.mem_range.mp (List.mem_reverse.mp hk)
    rw [run_lit1, if_neg]
    exact fun h => hk'.ne ((hclose k (by omega)).mp h)
  exact (congrArg₂ (· ++ ·) hlast hearlier).trans (List.append_nil _)

theorem run_quoted_of_ne {a : Char} (h : t[i]? ≠ some a) : run t (quoted n a) i c = [] := by
  rw [quoted, run_seq, run_lit1, if_neg h, List.flatMap_nil]

/-- One or more of a character, first the whole run. -/
theorem run_plus_char (hi : t.drop i = w ++ s) (hw : ∀ a ∈ w, p a = true) (hne : w ≠ [])
    (hs : ∀ a ∈ s.head?, p a = false) :
    (run t (plus (.char p)) i c).head? = some (i + w.length, c) := by
  obtain ⟨a, w, rfl⟩ := List.exists_cons_of_ne_nil hne
  rw [List.length_cons, Nat.add_comm w.length, ← Nat.add_assoc]
  exact head?_run_word hi (hw a List.mem_cons_self) (fun b hb => hw b (List.mem_cons_of_mem _ hb))
    hs

theorem run_plus_char_of_not (h : t[i]?.any p = false) : run t (plus (.char p)) i c = [] :=
  run_word_of_not h

end Sysforge.Re
