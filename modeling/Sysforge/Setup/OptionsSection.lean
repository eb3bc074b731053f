import Sysforge.Setup.IgnoreGroupLines

/-!
# The end of the options

`splitKeep` cuts a text behind its line breaks. The loop of `_patch_conf_text` stops behind the
lines of `throughOptions`, which an options header always has.
-/

namespace Sysforge.Setup

open Text

/-! ## Pieces -/

section Pieces

variable {a b l s t w acc conf : Text} {c : Char} {i : ℕ} {lines xs ys : List Text}

theorem endsLine_of_not (hc : isLineBreak c = false) (s : Text) : endsLine c s = false := by
  rw [endsLine, hc, Bool.false_and]

theorem isLineBreak_of_endsLine (h : endsLine c s = true) : isLineBreak c = true :=
  (Bool.and_eq_true_iff.mp h).1

theorem endsLine_newline (s : Text) : endsLine '\n' s = true := rfl

theorem splitKeepAux_ended (h : endsLine c s = true) (acc : Text) :
    splitKeepAux (c :: s) acc = (acc.reverse ++ [c]) :: splitKeepAux s [] := by
  rw [splitKeepAux, if_pos h]

theorem splitKeepAux_within (h : endsLine c s = false) (acc : Text) :
    splitKeepAux (c :: s) acc = splitKeepAux s (c :: acc) := by
  rw [splitKeepAux, if_neg (by rw [h]; decide)]

theorem flatten_splitKeepAux (s acc : Text) : (splitKeepAux s acc).flatten = acc.reverse ++ s := by
  induction s generalizing acc with
  | nil =>
    rw [splitKeepAux, List.append_nil]
    split_ifs with hacc
    · rw [hacc]
      rfl
    · exact List.flatten_singleton
  | cons c s ih =>
    by_cases hc : endsLine c s = true
    · rw [splitKeepAux_ended hc, List.flatten_cons, ih, List.append_assoc]
      rfl
    · rw [splitKeepAux_within (Bool.eq_false_iff.mpr hc), ih, List.reverse_cons, List.append_assoc]
      rfl

theorem flatten_splitKeep (conf : Text) : (splitKeep conf).flatten = conf :=
  flatten_splitKeepAux conf []

/-- A newline only ends a piece. -/
theorem notMem_dropLast_splitKeepAux (hacc : '\n' ∉ acc) (hl : l ∈ splitKeepAux s acc) :
    '\n' ∉ l.dropLast := by
  induction s generalizing acc with
  | nil =>
    rw [splitKeepAux] at hl
    split_ifs at hl
    · exact absurd hl List.not_mem_nil
    · rw [List.mem_singleton.mp hl]
      exact fun hmem => hacc (List.mem_reverse.mp (List.mem_of_mem_dropLast hmem))
  | cons c s ih =>
    by_cases hc : endsLine c s = true
    · rw [splitKeepAux_ended hc] at hl
      rcases List.mem_cons.mp hl with rfl | hl
      · rw [List.dropLast_concat]
        exact fun hmem => hacc (List.mem_reverse.mp hmem)
      · exact ih List.not_mem_nil hl
    · rw [splitKeepAux_within (Bool.eq_false_iff.mpr hc)] at hl
      refine ih (fun hmem => ?_) hl
      rcases List.mem_cons.mp hmem with rfl | hmem
      · exact hc (endsLine_newline s)
      · exact hacc hmem

/-- The pieces before another piece end at a line break. -/
theorem isLineBreak_of_mem_getLast (h : splitKeepAux s acc = xs ++ ys) (hys : ys ≠ []) :
    ∀ c ∈ xs.flatten.getLast?, isLineBreak c = true := by
  induction s generalizing acc xs with
  | nil =>
    rw [splitKeepAux] at h
    split_ifs at h
    · exact absurd (List.append_eq_nil_iff.mp h.symm).2 hys
    · cases xs with
      | nil => exact fun c hc => absurd hc.symm (Option.some_ne_none c)
      | cons x xs => exact absurd (List.append_eq_nil_iff.mp (List.cons.inj h).2.symm).2 hys
  | cons c s ih =>
    by_cases hc : endsLine c s = true
    · rw [splitKeepAux_ended hc] at h
      cases xs with
      | nil => exact fun c hc => absurd hc.symm (Option.some_ne_none c)
      | cons x xs =>
        obtain ⟨rfl, h'⟩ := List.cons.inj h
        intro d hd
        rw [List.flatten_cons, List.getLast?_append, Option.mem_def, Option.or_eq_some_iff] at hd
        rcases hd with hd | ⟨-, hd⟩
        · exact ih h' d hd
        · rw [List.getLast?_concat] at hd
          rw [← Option.some.inj hd]
          exact isLineBreak_of_endsLine hc
    · rw [splitKeepAux_within (Bool.eq_false_iff.mpr hc)] at h
      exact ih h

/-! ### The piece of a word -/

theorem splitKeepAux_word (hw : OneLine w) (s acc : Text) :
    splitKeepAux (w ++ s) acc = splitKeepAux s (w.reverse ++ acc) := by
  induction w generalizing acc with
  | nil => rfl
  | cons c w ih =>
    rw [List.cons_append, splitKeepAux_within (endsLine_of_not (hw c List.mem_cons_self) _),
      ih fun d hd => hw d (List.mem_cons_of_mem c hd), List.reverse_cons, List.append_assoc]
    rfl

/-- The first piece goes over the blanks up to a newline or the end. -/
theorem exists_first_piece (ht : ∀ c ∈ t, isSpace c = true) (hs : s = [] ∨ s.head? = some '\n')
    (hacc : acc ≠ []) :
    ∃ b, acc.reverse ++ b ∈ splitKeepAux (t ++ s) acc ∧ ∀ c ∈ b, isSpace c = true := by
  induction t generalizing acc with
  | nil =>
    cases s with
    | nil =>
      refine ⟨[], ?_, List.forall_mem_nil _⟩
      rw [List.append_nil, List.append_nil, splitKeepAux, if_neg hacc]
      exact List.mem_singleton_self _
    | cons c s =>
      obtain rfl : c = '\n' := Option.some.inj (hs.resolve_left (List.cons_ne_nil c s))
      refine ⟨['\n'], ?_, fun d hd => List.mem_singleton.mp hd ▸ rfl⟩
      rw [List.nil_append, splitKeepAux_ended (endsLine_newline s)]
      exact List.mem_cons_self
  | cons c t ih =>
    have hspace := ht c List.mem_cons_self
    rw [List.cons_append]
    by_cases hc : endsLine c (t ++ s) = true
    · refine ⟨[c], ?_, fun d hd => List.mem_singleton.mp hd ▸ hspace⟩
      rw [splitKeepAux_ended hc]
      exact List.mem_cons_self
    · obtain ⟨b, hmem, hb⟩ := ih (fun d hd => ht d (List.mem_cons_of_mem c hd))
        (List.cons_ne_nil c acc)
      rw [List.reverse_cons, List.append_assoc] at hmem
      refine ⟨c :: b, ?_, List.forall_mem_cons.mpr ⟨hspace, hb⟩⟩
      rw [splitKeepAux_within (Bool.eq_false_iff.mpr hc)]
      exact hmem

/-- A word between blanks is the only word of a piece. -/
theorem exists_piece (hw : OneLine w) (hne : w ≠ []) (ha : ∀ c ∈ a, isSpace c = true)
    (ht : ∀ c ∈ t, isSpace c = true) (hs : s = [] ∨ s.head? = some '\n')
    (hacc : ∀ c ∈ acc, isSpace c = true) :
    ∃ u b, u ++ w ++ b ∈ splitKeepAux (a ++ (w ++ (t ++ s))) acc ∧ (∀ c ∈ u, isSpace c = true) ∧
      ∀ c ∈ b, isSpace c = true := by
  induction a generalizing acc with
  | nil =>
    obtain ⟨b, hmem, hb⟩ := exists_first_piece ht hs
      (List.append_ne_nil_of_left_ne_nil (fun h => hne (List.reverse_eq_nil_iff.mp h)) acc)
    refine ⟨acc.reverse, b, ?_, fun c hc => hacc c (List.mem_reverse.mp hc), hb⟩
    rw [List.reverse_append, List.reverse_reverse] at hmem
    rw [List.nil_append, splitKeepAux_word hw]
    exact hmem
  | cons c a ih =>
    have ha' := fun d hd => ha d (List.mem_cons_of_mem c hd)
    rw [List.cons_append]
    by_cases hc : endsLine c (a ++ (w ++ (t ++ s))) = true
    · obtain ⟨u, b, hmem, hu, hb⟩ := @ih [] ha' (List.forall_mem_nil _)
      rw [splitKeepAux_ended hc]
      exact ⟨u, b, List.mem_cons_of_mem _ hmem, hu, hb⟩
    · rw [splitKeepAux_within (Bool.eq_false_iff.mpr hc)]
      exact ih ha' (List.forall_mem_cons.mpr ⟨ha c List.mem_cons_self, hacc⟩)

/-- The pieces behind a newline are pieces of the text. -/
theorem mem_splitKeepAux_append (h : l ∈ splitKeepAux t []) (s acc : Text) :
    l ∈ splitKeepAux (s ++ '\n' :: t) acc := by
  induction s generalizing acc with
  | nil =>
    rw [List.nil_append, splitKeepAux_ended (endsLine_newline t)]
    exact List.mem_cons_of_mem _ h
  | cons c s ih =>
    rw [List.cons_append, splitKeepAux]
    split_ifs
    · exact List.mem_cons_of_mem _ (ih [])
    · exact ih (c :: acc)

end Pieces

/-! ## The insertion -/

section Insertion

variable {l s t conf : Text} {lines : List Text}

theorem insertLoop_options (j : ℕ) (lines : List Text) : insertLoop (j + 1) true (some j) lines =
    some (j + (lines.takeWhile staysInOptions).length) := by
  induction lines generalizing j with
  | nil => rfl
  | cons line lines ih =>
    by_cases hopt : isOptionsLine line = true
    · have hstays : staysInOptions line = true := by rw [staysInOptions, hopt, Bool.true_or]
      rw [insertLoop, if_pos hopt, ih, List.takeWhile_cons_of_pos hstays, List.length_cons,
        Nat.add_assoc, Nat.add_comm 1]
    · rw [insertLoop, if_neg hopt]
      by_cases hsec : startsSection line = true
      · have hstays : ¬staysInOptions line = true := by
          rw [staysInOptions, Bool.eq_false_iff.mpr hopt, hsec]
          decide
        rw [Bool.true_and, if_pos hsec, List.takeWhile_cons_of_neg hstays]
        rfl
      · have hstays : staysInOptions line = true := by
          rw [staysInOptions, Bool.eq_false_iff.mpr hsec, Bool.not_false, Bool.or_true]
        rw [Bool.true_and, if_neg hsec, if_pos rfl, ih, List.takeWhile_cons_of_pos hstays,
          List.length_cons, Nat.add_assoc, Nat.add_comm 1]

theorem insertLoop_start (h : ∃ l ∈ lines, isOptionsLine l = true) (i : ℕ) :
    ∃ n, (throughOptions lines).length = n + 1 ∧ insertLoop i false none lines = some (i + n) := by
  induction lines generalizing i with
  | nil =>
    obtain ⟨l, hl, -⟩ := h
    exact absurd hl List.not_mem_nil
  | cons line lines ih =>
    by_cases hopt : isOptionsLine line = true
    · refine ⟨(lines.takeWhile staysInOptions).length, ?_, ?_⟩
      · have hstays : staysInOptions line = true := by rw [staysInOptions, hopt, Bool.true_or]
        rw [throughOptions, List.takeWhile_cons_of_neg (by rw [hopt]; decide),
          List.dropWhile_cons_of_neg (by rw [hopt]; decide), List.takeWhile_cons_of_pos hstays]
        rfl
      · rw [insertLoop, if_pos hopt, insertLoop_options]
    · have hneg : (!isOptionsLine line) = true := by rw [Bool.eq_false_iff.mpr hopt]; rfl
      obtain ⟨l, hl, hlopt⟩ := h
      have hmem : l ∈ lines := (List.mem_cons.mp hl).resolve_left fun heq => hopt (heq ▸ hlopt)
      obtain ⟨n, hlen, hloop⟩ := ih ⟨l, hmem, hlopt⟩ (i + 1)
      refine ⟨n + 1, ?_, ?_⟩
      · rw [throughOptions, List.takeWhile_cons, if_pos hneg, List.dropWhile_cons, if_pos hneg,
          List.cons_append, List.length_cons, ← throughOptions, hlen]
      · rw [insertLoop, if_neg hopt, Bool.false_and, if_neg Bool.false_ne_true,
          if_neg Bool.false_ne_true, hloop, Nat.add_right_comm, Nat.add_assoc]

theorem throughOptions_append (lines : List Text) :
    ∃ rest, lines = throughOptions lines ++ rest ∧ ∀ l ∈ rest.head?, startsSection l = true := by
  refine ⟨(lines.dropWhile fun l => !isOptionsLine l).dropWhile staysInOptions, ?_, fun l hl => ?_⟩
  · rw [throughOptions, List.append_assoc, List.takeWhile_append_dropWhile,
      List.takeWhile_append_dropWhile]
  · have hnot := List.head?_dropWhile_not staysInOptions (lines.dropWhile fun l => !isOptionsLine l)
    rw [Option.mem_def.mp hl] at hnot
    have hor := (Bool.or_eq_false_iff.mp hnot).2
    rwa [Bool.not_eq_eq_eq_not] at hor

/-! ### A header of pacman -/

theorem mem_joinLines {ls : List Text} (h : l ∈ ls) : ∃ s t, joinLines ls = s ++ (l ++ t) ∧
    (s = [] ∨ ∃ s', s = s' ++ ['\n']) ∧ (t = [] ∨ t.head? = some '\n') := by
  induction ls with
  | nil => exact absurd h List.not_mem_nil
  | cons m ls ih =>
    rcases List.mem_cons.mp h with rfl | h
    · cases ls with
      | nil => exact ⟨[], [], (List.append_nil l).symm, .inl rfl, .inl rfl⟩
      | cons n ls => exact ⟨[], '\n' :: joinLines (n :: ls), rfl, .inl rfl, .inr rfl⟩
    · obtain ⟨s, t, hjoin, hs, ht⟩ := ih h
      refine ⟨m ++ '\n' :: s, t, ?_, .inr ?_, ht⟩
      · rw [joinLines, hjoin, List.append_assoc, List.cons_append]
        exact List.ne_nil_of_mem h
      · rcases hs with rfl | ⟨s', rfl⟩
        · exact ⟨m, rfl⟩
        · exact ⟨m ++ '\n' :: s', by rw [List.append_assoc, List.cons_append]⟩

theorem isOptionsLine_of_strip (h : strip l = optionsHeader) : isOptionsLine l = true := by
  rw [isOptionsLine, h]
  rfl

/-- A line with blanks around a header. -/
theorem exists_of_strip_eq {w : Text} (h : strip l = w) : ∃ a b, l = a ++ (w ++ b) ∧
    (∀ c ∈ a, isSpace c = true) ∧ ∀ c ∈ b, isSpace c = true := by
  refine ⟨l.takeWhile isSpace, (l.dropWhile isSpace).rtakeWhile isSpace, ?_,
    fun c hc => List.mem_takeWhile_imp hc, fun c hc => List.mem_rtakeWhile_imp hc⟩
  rw [← h, strip_eq, List.rdropWhile_append_rtakeWhile, List.takeWhile_append_dropWhile]

theorem strip_blank_around {w : Text} (hw : strip w = w) (hs : ∀ c ∈ s, isSpace c = true)
    (ht : ∀ c ∈ t, isSpace c = true) : strip (s ++ w ++ t) = w := by
  rw [strip_append_right ht, strip_append_left hs, hw]

theorem exists_isOptionsLine (h : HasOptions conf) :
    ∃ l ∈ splitKeep conf, isOptionsLine l = true := by
  obtain ⟨l, hl, hstrip⟩ := h
  obtain ⟨a, b, rfl, ha, hb⟩ := exists_of_strip_eq hstrip
  obtain ⟨s, t, hjoin, hs, ht⟩ := mem_joinLines hl
  rw [joinLines_split] at hjoin
  obtain ⟨u, v, hmem, hu, hv⟩ := exists_piece (w := optionsHeader) (by decide)
    (by decide) ha hb ht (List.forall_mem_nil _)
  refine ⟨u ++ optionsHeader ++ v, ?_,
    isOptionsLine_of_strip (strip_blank_around (by decide) hu hv)⟩
  rw [splitKeep, hjoin, List.append_assoc, List.append_assoc]
  rcases hs with rfl | ⟨s', rfl⟩
  · exact hmem
  · rw [List.append_assoc]
    exact mem_splitKeepAux_append hmem s' []

/-- Where no line is active the group goes behind the lines through `[options]`. -/
theorem patchConfText_inserted (hnone : ∀ l ∈ split '\n' conf, valueOf l = none)
    (hopt : HasOptions conf) : ∃ front rest, front = (throughOptions (splitKeep conf)).flatten ∧
      conf = front ++ rest ∧ patchConfText conf = front ++ (groupLine ++ '\n' :: rest) ∧
      (rest = [] ∨ (∀ c ∈ front.getLast?, isLineBreak c = true) ∧
        ∃ s t, rest = s ++ '[' :: t ∧ '\n' ∉ s ∧ ∀ c ∈ s, isSpace c = true) := by
  obtain ⟨pieces, hpieces, hhead⟩ := throughOptions_append (splitKeep conf)
  obtain ⟨n, hlen, hloop⟩ := insertLoop_start (exists_isOptionsLine hopt) 0
  have hfind : (split '\n' conf).find? (fun l => (valueOf l).isSome) = none :=
    List.find?_eq_none.mpr fun l hl => by rw [hnone l hl]; decide
  have htake : (splitKeep conf).take (0 + n + 1) = throughOptions (splitKeep conf) := by
    rw [Nat.zero_add, ← hlen]
    nth_rewrite 2 [hpieces]
    exact List.take_left
  have hdrop : (splitKeep conf).drop (0 + n + 1) = pieces := by
    rw [Nat.zero_add, ← hlen]
    nth_rewrite 2 [hpieces]
    exact List.drop_left
  refine ⟨_, pieces.flatten, rfl, ?_, ?_, ?_⟩
  · rw [← List.flatten_append, ← hpieces, flatten_splitKeep]
  · rw [patchConfText, hfind]
    dsimp only
    rw [hloop]
    dsimp only
    rw [htake, hdrop, List.flatten_append, List.flatten_cons, List.append_assoc]
    rfl
  · cases pieces with
    | nil => exact .inl rfl
    | cons p ps =>
      refine .inr ⟨isLineBreak_of_mem_getLast hpieces (List.cons_ne_nil p ps), ?_⟩
      have hbracket : (strip p).head? = some '[' := of_decide_eq_true (hhead p rfl)
      obtain ⟨s, t, rfl, hs⟩ := exists_of_head_strip hbracket
      refine ⟨s, t ++ ps.flatten, ?_, fun hmem => ?_, hs⟩
      · rw [List.flatten_cons, List.append_assoc, List.cons_append]
      · have hpiece : s ++ '[' :: t ∈ splitKeep conf := by
          rw [hpieces]
          exact List.mem_append_right _ List.mem_cons_self
        refine notMem_dropLast_splitKeepAux List.not_mem_nil hpiece ?_
        rw [List.dropLast_append_of_ne_nil (List.cons_ne_nil '[' t)]
        exact List.mem_append_left _ hmem

end Insertion

end Sysforge.Setup
