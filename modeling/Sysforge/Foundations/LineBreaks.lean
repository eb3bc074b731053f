import Mathlib.Data.List.Chain
import Sysforge.Foundations.Lines

/-!
# Line breaks

`str.splitlines` breaks a text at more characters than the newline. `linesBy` breaks it at the
characters of a kind only, `PlainBreaks` says that this comes to the same lines but for blanks at
their ends, and `plainBreaks_iff` that it is enough to count them.
-/

namespace Sysforge.Text

/-! ## Lines that a kind of element ends -/

section LinesBy

variable {α β : Type*} {p : α → Bool} {l x : List α}

/-- The lines that the elements of a kind end. The last line need not be ended. -/
def linesBy (p : α → Bool) : List α → List (List α)
  | [] => []
  | a :: l =>
    if p a then [] :: linesBy p l
    else match linesBy p l with
      | [] => [[a]]
      | x :: xs => (a :: x) :: xs

theorem linesBy_end {a : α} (h : p a = true) : linesBy p (a :: l) = [] :: linesBy p l := by
  rw [linesBy, if_pos h]

theorem linesBy_eq_nil : linesBy p l = [] ↔ l = [] := by
  cases l with
  | nil => exact ⟨fun _ => rfl, fun _ => rfl⟩
  | cons a l =>
    refine iff_of_false (fun h => ?_) (List.cons_ne_nil a l)
    rw [linesBy] at h
    split_ifs at h
    split at h <;> cases h

/-- A line that is ended comes first. -/
theorem linesBy_append {a : α} (hx : ∀ b ∈ x, p b = false) (ha : p a = true) :
    linesBy p (x ++ a :: l) = x :: linesBy p l := by
  induction x with
  | nil => exact linesBy_end ha
  | cons b x ih =>
    rw [List.cons_append, linesBy, if_neg (ne_true_of_eq_false (hx b List.mem_cons_self)),
      ih fun c hc => hx c (List.mem_cons_of_mem _ hc)]

theorem linesBy_line (hx : ∀ b ∈ x, p b = false) (hne : x ≠ []) : linesBy p x = [x] := by
  induction x with
  | nil => exact absurd rfl hne
  | cons b x ih =>
    rw [linesBy, if_neg (ne_true_of_eq_false (hx b List.mem_cons_self))]
    cases x with
    | nil => rfl
    | cons c x => rw [ih (fun d hd => hx d (List.mem_cons_of_mem _ hd)) (List.cons_ne_nil c x)]

/-- Behind a line that is ended a new one begins. -/
theorem linesBy_append_ended (hx : ∀ a ∈ x.getLast?, p a = true) :
    linesBy p (x ++ l) = linesBy p x ++ linesBy p l := by
  induction x with
  | nil => rfl
  | cons a x ih =>
    rw [List.cons_append, linesBy, linesBy]
    cases x with
    | nil => rw [if_pos (hx a rfl), if_pos (hx a rfl), List.nil_append]; rfl
    | cons b x =>
      rw [ih fun c hc => hx c (by rw [List.getLast?_cons_cons]; exact hc)]
      split_ifs
      · rfl
      · cases hlines : linesBy p (b :: x) with
        | nil => exact absurd (linesBy_eq_nil.mp hlines) (List.cons_ne_nil b x)
        | cons y ys => rfl

/-- What stands before in the first line is no line of its own. -/
theorem length_linesBy_append (hx : ∀ b ∈ x, p b = false) (hl : l ≠ []) :
    (linesBy p (x ++ l)).length = (linesBy p l).length := by
  induction x with
  | nil => rfl
  | cons b x ih =>
    rw [← ih fun c hc => hx c (List.mem_cons_of_mem _ hc), List.cons_append, linesBy,
      if_neg (ne_true_of_eq_false (hx b List.mem_cons_self))]
    cases hrest : linesBy p (x ++ l) with
    | nil => exact absurd (List.append_eq_nil_iff.mp (linesBy_eq_nil.mp hrest)).2 hl
    | cons y ys => rfl

theorem not_of_mem_linesBy {a : α} (hx : x ∈ linesBy p l) (ha : a ∈ x) : p a = false := by
  induction l generalizing x with
  | nil => exact absurd hx List.not_mem_nil
  | cons b l ih =>
    rw [linesBy] at hx
    split_ifs at hx with hb
    · rcases List.mem_cons.mp hx with rfl | hx
      · exact absurd ha List.not_mem_nil
      · exact ih hx ha
    · have hb := Bool.eq_false_iff.mpr hb
      cases hrest : linesBy p l with
      | nil =>
        rw [hrest] at hx
        rw [List.mem_singleton.mp hx] at ha
        exact List.mem_singleton.mp ha ▸ hb
      | cons y ys =>
        rw [hrest] at hx ih
        rcases List.mem_cons.mp hx with rfl | hx
        · rcases List.mem_cons.mp ha with rfl | ha
          · exact hb
          · exact ih List.mem_cons_self ha
        · exact ih (List.mem_cons_of_mem _ hx) ha

theorem map_linesBy {q : β → Bool} (f : α → β) (h : ∀ a, q (f a) = p a) :
    linesBy q (l.map f) = (linesBy p l).map (List.map f) := by
  induction l with
  | nil => rfl
  | cons a l ih =>
    rw [List.map_cons, linesBy, linesBy, h, ih]
    split_ifs
    · rfl
    · cases linesBy p l <;> rfl

/-- What holds along the list holds along each line, from the element that ended the one before. -/
theorem isChain_of_mem_linesBy {r : α → α → Prop} {b : α} (h : List.IsChain r (b :: l))
    (hx : x ∈ linesBy p l) : ∃ c, (c = b ∨ c ∈ l ∧ p c = true) ∧ List.IsChain r (c :: x) := by
  have hstrong : (∀ y, (linesBy p l).head? = some y → List.IsChain r (b :: y)) ∧
      ∀ y ∈ (linesBy p l).tail, ∃ c, (c ∈ l ∧ p c = true) ∧ List.IsChain r (c :: y) := by
    clear hx
    induction l generalizing b with
    | nil => exact ⟨nofun, fun y hy => absurd hy List.not_mem_nil⟩
    | cons a l ih =>
      obtain ⟨hab, hl⟩ := List.isChain_cons_cons.mp h
      obtain ⟨hhead, htail⟩ := ih hl
      have hlater : ∀ y ∈ (linesBy p l).tail, ∃ c, (c ∈ a :: l ∧ p c = true) ∧
          List.IsChain r (c :: y) := fun y hy => by
        obtain ⟨c, ⟨hc, hp⟩, hchain⟩ := htail y hy
        exact ⟨c, ⟨List.mem_cons_of_mem _ hc, hp⟩, hchain⟩
      rw [linesBy]
      split_ifs with ha
      · refine ⟨fun y hy => Option.some.inj hy ▸ .singleton b, fun y hy => ?_⟩
        rw [List.tail_cons] at hy
        cases hrest : linesBy p l with
        | nil =>
          rw [hrest] at hy
          exact absurd hy List.not_mem_nil
        | cons z zs =>
          rw [hrest] at hy hhead hlater
          rcases List.mem_cons.mp hy with rfl | hy
          · exact ⟨a, ⟨List.mem_cons_self, ha⟩, hhead _ rfl⟩
          · exact hlater y hy
      · cases hrest : linesBy p l with
        | nil =>
          refine ⟨fun y hy => Option.some.inj hy ▸ ?_, fun y hy => absurd hy List.not_mem_nil⟩
          exact List.isChain_cons_cons.mpr ⟨hab, .singleton a⟩
        | cons z zs =>
          rw [hrest] at hhead hlater
          refine ⟨fun y hy => Option.some.inj hy ▸ ?_, hlater⟩
          exact List.isChain_cons_cons.mpr ⟨hab, hhead z rfl⟩
  cases hlines : linesBy p l with
  | nil =>
    rw [hlines] at hx
    exact absurd hx List.not_mem_nil
  | cons y ys =>
    rw [hlines] at hx hstrong
    rcases List.mem_cons.mp hx with rfl | hx
    · exact ⟨b, .inl rfl, hstrong.1 _ rfl⟩
    · obtain ⟨c, hc, hchain⟩ := hstrong.2 x hx
      exact ⟨c, .inr hc, hchain⟩

end LinesBy

/-! ## Joining -/

section Join

variable {ls ms : List Text} {l : Text}

theorem split_of_notMem {sep : Char} (h : sep ∉ l) : split sep l = [l] := by
  induction l with
  | nil => rfl
  | cons c l ih =>
    rw [List.mem_cons, not_or] at h
    rw [split, if_neg (Ne.symm h.1), ih h.2]

theorem split_append {sep : Char} (h : sep ∉ l) (s : Text) :
    split sep (l ++ sep :: s) = l :: split sep s := by
  induction l with
  | nil => rw [List.nil_append, split, if_pos rfl]
  | cons c l ih =>
    rw [List.mem_cons, not_or] at h
    rw [List.cons_append, split, if_neg (Ne.symm h.1), ih h.2]

theorem split_ne_nil (sep : Char) (s : Text) : split sep s ≠ [] := by
  cases s with
  | nil => exact List.cons_ne_nil _ _
  | cons c s =>
    rw [split]
    split_ifs
    · exact List.cons_ne_nil _ _
    · split
      · exact List.cons_ne_nil _ _
      · exact List.cons_ne_nil _ _

/-- The fields on both sides of a separator. -/
theorem split_append_sep (sep : Char) (s t : Text) :
    split sep (s ++ sep :: t) = split sep s ++ split sep t := by
  induction s with
  | nil =>
    have hsep : split sep (sep :: t) = [] :: split sep t := if_pos rfl
    rw [List.nil_append, hsep]
    rfl
  | cons c s ih =>
    rw [List.cons_append, split, split, ih]
    split_ifs
    · rfl
    · cases hs : split sep s with
      | nil => exact absurd hs (split_ne_nil sep s)
      | cons l ls => rfl

/-- The fields joined are the text. -/
theorem intercalate_split (sep : Char) (s : Text) : [sep].intercalate (split sep s) = s := by
  induction s with
  | nil => rfl
  | cons c s ih =>
    obtain ⟨l, ls, hs⟩ := List.exists_cons_of_ne_nil (split_ne_nil sep s)
    rw [split, hs]
    rw [hs] at ih
    split_ifs with hc
    · rw [List.intercalate_cons_cons, ih, hc]
      rfl
    · rw [← ih]
      cases ls with
      | nil => rfl
      | cons m ms => rw [List.intercalate_cons_cons, List.intercalate_cons_cons]; rfl

theorem joinLines_eq_intercalate (ls : List Text) : joinLines ls = ['\n'].intercalate ls := by
  induction ls with
  | nil => rfl
  | cons l ls ih =>
    cases ls with
    | nil => exact (List.intercalate_singleton).symm
    | cons m ms =>
      rw [joinLines, ih, List.intercalate_cons_cons, List.append_assoc]
      · rfl
      · exact List.cons_ne_nil m ms

theorem joinLines_split (s : Text) : joinLines (split '\n' s) = s :=
  (joinLines_eq_intercalate _).trans (intercalate_split '\n' s)

/-- A field has no separator. -/
theorem notMem_of_mem_split {sep : Char} {s : Text} (hl : l ∈ split sep s) : sep ∉ l := by
  induction s generalizing l with
  | nil =>
    rw [List.mem_singleton.mp hl]
    exact List.not_mem_nil
  | cons c s ih =>
    obtain ⟨m, ms, hs⟩ := List.exists_cons_of_ne_nil (split_ne_nil sep s)
    rw [split, hs] at hl
    rw [hs] at ih
    split_ifs at hl with hc
    · rcases List.mem_cons.mp hl with rfl | hl
      · exact List.not_mem_nil
      · exact ih hl
    · rcases List.mem_cons.mp hl with rfl | hl
      · intro hmem
        rcases List.mem_cons.mp hmem with heq | hmem
        · exact hc heq.symm
        · exact ih List.mem_cons_self hmem
      · exact ih (List.mem_cons_of_mem m hl)

theorem split_inj {sep : Char} {s t : Text} : split sep s = split sep t ↔ s = t := by
  constructor
  · intro h
    rw [← intercalate_split sep s, h, intercalate_split]
  · rintro rfl
    rfl

/-- Lines without newlines are split off their join. -/
theorem split_joinLines (hne : ls ≠ []) (h : ∀ l ∈ ls, '\n' ∉ l) :
    split '\n' (joinLines ls) = ls := by
  induction ls with
  | nil => exact absurd rfl hne
  | cons l ls ih =>
    cases ls with
    | nil => exact split_of_notMem (h l List.mem_cons_self)
    | cons m ms =>
      rw [joinLines, split_append (h l List.mem_cons_self),
        ih (List.cons_ne_nil m ms) fun l hl => h l (List.mem_cons_of_mem _ hl)]
      exact List.cons_ne_nil m ms

theorem joinLines_append (xs ys : List Text) (a b : Text) :
    joinLines (xs ++ [a]) ++ joinLines (b :: ys) = joinLines (xs ++ (a ++ b) :: ys) := by
  induction xs with
  | nil =>
    cases ys with
    | nil => rfl
    | cons y ys => exact (List.append_assoc a b _).symm
  | cons x xs ih =>
    obtain ⟨m, ms, hms⟩ := List.exists_cons_of_ne_nil
      (List.append_ne_nil_of_right_ne_nil xs (List.cons_ne_nil a []))
    obtain ⟨n, ns, hns⟩ := List.exists_cons_of_ne_nil
      (List.append_ne_nil_of_right_ne_nil xs (List.cons_ne_nil (a ++ b) ys))
    rw [hms, hns] at ih
    rw [List.cons_append, List.cons_append, hms, hns]
    change x ++ '\n' :: joinLines (m :: ms) ++ joinLines (b :: ys) =
      x ++ '\n' :: joinLines (n :: ns)
    rw [List.append_assoc, List.cons_append, ih]

/-- The last line of a text goes on with the first line of the next. -/
theorem split_append_split {s t a b : Text} {xs ys : List Text} (hs : split '\n' s = xs ++ [a])
    (ht : split '\n' t = b :: ys) : split '\n' (s ++ t) = xs ++ (a ++ b) :: ys := by
  have hjoin : s ++ t = joinLines (xs ++ (a ++ b) :: ys) := by
    rw [← joinLines_append, ← hs, ← ht, joinLines_split, joinLines_split]
  have hsmem : ∀ l ∈ xs ++ [a], '\n' ∉ l := fun l hl => notMem_of_mem_split (hs ▸ hl)
  have htmem : ∀ l ∈ b :: ys, '\n' ∉ l := fun l hl => notMem_of_mem_split (ht ▸ hl)
  rw [hjoin, split_joinLines]
  · exact List.append_ne_nil_of_right_ne_nil xs (List.cons_ne_nil _ ys)
  · intro l hl hmem
    rcases List.mem_append.mp hl with hl | hl
    · exact hsmem l (List.mem_append_left _ hl) hmem
    · rcases List.mem_cons.mp hl with rfl | hl
      · rcases List.mem_append.mp hmem with hmem | hmem
        · exact hsmem a (List.mem_append_right xs (List.mem_singleton_self a)) hmem
        · exact htmem b List.mem_cons_self hmem
      · exact htmem l (List.mem_cons_of_mem b hl) hmem

theorem joinLines_inj (hls : ls ≠ []) (hms : ms ≠ []) (hl : ∀ l ∈ ls, '\n' ∉ l)
    (hm : ∀ l ∈ ms, '\n' ∉ l) : joinLines ls = joinLines ms ↔ ls = ms := by
  constructor
  · intro h
    rw [← split_joinLines hls hl, h, split_joinLines hms hm]
  · rintro rfl
    rfl

end Join

/-! ## The breaks of `str.splitlines` -/

section Breaks

variable {s acc l : Text} {c : Char}

/-- `s.rstrip()`. -/
def rstrip (s : Text) : Text := s.rdropWhile isSpace

/-- The lines that newlines end. -/
def newlineLines (s : Text) : List Text := linesBy (fun c => c = '\n') s

/-- `str.splitlines` finds the lines that newlines end, but for blanks at their ends. -/
def PlainBreaks (s : Text) : Prop :=
  (splitlines s).map rstrip = (newlineLines s).map rstrip

instance (s : Text) : Decidable (PlainBreaks s) :=
  inferInstanceAs (Decidable ((splitlines s).map rstrip = (newlineLines s).map rstrip))

theorem rstrip_append_of_isSpace (h : ∀ c ∈ l, isSpace c = true) : rstrip (s ++ l) = rstrip s :=
  rdropWhile_append_of_pos h

theorem ne_newline_of_mem_reverse (hacc : OneLine acc) :
    ∀ c ∈ acc.reverse, (fun c => decide (c = '\n')) c = false := by
  intro c hc
  refine decide_eq_false ?_
  rintro rfl
  exact absurd (hacc _ (List.mem_reverse.mp hc)) (by decide)

theorem newlineLines_newline (hacc : OneLine acc) :
    newlineLines (acc.reverse ++ '\n' :: s) = acc.reverse :: newlineLines s :=
  linesBy_append (ne_newline_of_mem_reverse hacc) rfl

/-- `str.splitlines` finds no fewer lines, and where it finds as many they are the same but for
blanks at their ends. -/
theorem splitlinesAux_newlineLines (hacc : OneLine acc) :
    (newlineLines (acc.reverse ++ s)).length ≤ (splitlinesAux s acc).length ∧
      ((splitlinesAux s acc).length = (newlineLines (acc.reverse ++ s)).length →
        (splitlinesAux s acc).map rstrip = (newlineLines (acc.reverse ++ s)).map rstrip) := by
  fun_induction splitlinesAux s acc with
  | case1 => exact ⟨le_rfl, fun _ => rfl⟩
  | case2 acc hne =>
    have hrev : acc.reverse ≠ [] := fun h => hne (List.reverse_eq_nil_iff.mp h)
    rw [List.append_nil, newlineLines, linesBy_line (ne_newline_of_mem_reverse hacc) hrev]
    exact ⟨le_rfl, fun _ => rfl⟩
  | case3 s acc ih =>
    have hcr : ∀ c ∈ acc.reverse ++ ['\r'], (fun c => decide (c = '\n')) c = false := by
      intro c hc
      rcases List.mem_append.mp hc with hc | hc
      · exact ne_newline_of_mem_reverse hacc c hc
      · rw [List.mem_singleton.mp hc]
        rfl
    have hlines : newlineLines (acc.reverse ++ '\r' :: '\n' :: s) =
        (acc.reverse ++ ['\r']) :: newlineLines s := by
      rw [newlineLines, List.append_cons, linesBy_append hcr rfl]
      rfl
    obtain ⟨hle, heq⟩ := ih oneLine_nil
    rw [hlines, List.length_cons, List.length_cons, List.map_cons, List.map_cons,
      rstrip_append_of_isSpace (List.forall_mem_singleton.mpr (by decide))]
    exact ⟨Nat.succ_le_succ hle, fun h => congrArg _ (heq (Nat.succ.inj h))⟩
  | case4 c s acc hne hc ih =>
    obtain ⟨hle, heq⟩ := ih oneLine_nil
    rw [List.reverse_nil, List.nil_append] at hle heq
    by_cases hnl : c = '\n'
    · rw [hnl, newlineLines_newline hacc, List.length_cons, List.length_cons, List.map_cons,
        List.map_cons]
      exact ⟨Nat.succ_le_succ hle, fun h => congrArg _ (heq (Nat.succ.inj h))⟩
    · have hline : ∀ d ∈ acc.reverse ++ [c], (fun c => decide (c = '\n')) d = false := by
        intro d hd
        rcases List.mem_append.mp hd with hd | hd
        · exact ne_newline_of_mem_reverse hacc d hd
        · rw [List.mem_singleton.mp hd]
          exact decide_eq_false hnl
      rw [newlineLines, List.append_cons]
      by_cases hs : s = []
      · -- a break at the end of the text ends the last line
        rw [hs, List.append_nil,
          linesBy_line hline (List.append_ne_nil_of_right_ne_nil _ (List.cons_ne_nil c []))]
        refine ⟨le_rfl, fun _ => ?_⟩
        rw [splitlinesAux, List.map_cons, List.map_cons, rstrip_append_of_isSpace]
        intro d hd
        rw [List.mem_singleton.mp hd]
        exact isSpace_of_isLineBreak hc
      · -- any other break makes a line too many
        rw [length_linesBy_append hline hs, List.length_cons]
        exact ⟨Nat.le_succ_of_le hle, fun h => absurd h (Nat.lt_succ_of_le hle).ne'⟩
  | case5 c s acc hne hc ih =>
    have hacc' : OneLine (c :: acc) := by
      intro d hd
      rcases List.mem_cons.mp hd with rfl | hd
      · exact Bool.eq_false_iff.mpr hc
      · exact hacc d hd
    have hrec := ih hacc'
    rwa [List.reverse_cons, List.append_assoc, List.singleton_append] at hrec

theorem splitlines_eq_nil : splitlines s = [] ↔ s = [] := by
  constructor
  · intro h
    have hle := (@splitlinesAux_newlineLines s [] oneLine_nil).1
    rw [List.reverse_nil, List.nil_append, ← splitlines, h, List.length_nil, Nat.le_zero,
      List.length_eq_zero_iff] at hle
    exact linesBy_eq_nil.mp hle
  · rintro rfl
    rfl

/-- **The breaks are plain where they make no line of their own.** -/
theorem plainBreaks_iff : PlainBreaks s ↔ (splitlines s).length = (newlineLines s).length := by
  constructor
  · intro h
    have hlen := congrArg List.length h
    rwa [List.length_map, List.length_map] at hlen
  · exact (splitlinesAux_newlineLines oneLine_nil).2

end Breaks

end Sysforge.Text
