import Mathlib.Data.List.Chain
import Mathlib.Data.List.TakeWhile
import Sysforge.Foundations.RegexScan
import Sysforge.Pkgbuild.Braces

/-!
# The items of an array

`_parse_array_items` reads the items of an array by one pattern: a text in single quotes, one in
double quotes, or a run without white space. The shell reads words, in which quoted and unquoted
pieces stand side by side (`ArrayWord`). `parseArrayItems_iff` says for which arrays the two agree.
-/

namespace Sysforge.Pkgbuild

open Text Re

/-! ## The code -/

/-- The pattern of `_parse_array_items`. -/
def itemRe : Re := .alt (quoted 1 '\'') (.alt (quoted 2 '"') (.group 3 (plus nonSpace)))

/-- The items that one match gives. -/
def matchItems (sq dq unq : Text) : List Text :=
  if sq ≠ [] then [sq]
  else if dq ≠ [] then [dq]
  else if unq ≠ [] then expandBraces unq
  else []

/-- `_parse_array_items`. -/
def parseArrayItems (raw : Text) : List Text :=
  (finditer itemRe raw).flatMap fun m => matchItems (m.group raw 1) (m.group raw 2) (m.group raw 3)

/-! ## The words of the shell -/

/-- A piece of a word. -/
inductive Segment
  | single (s : Text)
  | double (s : Text)
  | bare (s : Text)

namespace Segment

/-- The piece as it is written. -/
def text : Segment → Text
  | single s => '\'' :: s ++ ['\'']
  | double s => '"' :: s ++ ['"']
  | bare s => s

/-- What the shell makes of it. -/
def value : Segment → Text
  | single s | double s | bare s => s

def isBare : Segment → Bool
  | bare _ => true
  | _ => false

/-- The characters that expand, escape or are braces. -/
def special : Text := ['$', '\x60', '\\', '\x7b', '\x7d']

/-- The characters that cannot stand unquoted in a word without a meaning of their own: quotes,
blanks, operators and those of patterns. -/
def operators : Text :=
  ['\'', '"', ' ', '\t', '\n', ';', '&', '|', '(', ')', '<', '>', '*', '?', '[']

/-- The piece reads back and is free of expansions, backslashes and braces. A tilde expands at the
start of a word (`Begins`) and behind an equals sign or a colon. -/
def Ok : Segment → Prop
  | single s => ∀ c ∈ s, c ≠ '\'' ∧ c ∉ special
  | double s => ∀ c ∈ s, c ≠ '"' ∧ c ∉ special
  | bare s => s ≠ [] ∧ (∀ c ∈ s, c ∉ operators ∧ c ∉ special) ∧
    ¬['=', '~'] <:+: s ∧ ¬[':', '~'] <:+: s

/-- No comment and no home directory begins here. -/
def Begins : Segment → Prop
  | bare s => s.head? ≠ some '#' ∧ s.head? ≠ some '~'
  | _ => True

end Segment

/-- A word of an array, in the pieces it is written in. -/
structure ArrayWord where
  segments : List Segment
  nonempty : segments ≠ []
  ok : ∀ s ∈ segments, s.Ok
  /-- Unquoted pieces are as long as they can be. -/
  apart : segments.IsChain fun a b => ¬(a.isBare = true ∧ b.isBare = true)
  begins : ∀ s ∈ segments.head?, s.Begins

/-- The pieces as they are written. -/
def segmentsText (segs : List Segment) : Text := segs.flatMap Segment.text

/-- The value of a word: its pieces joined without their quotes. -/
def segmentsValue (segs : List Segment) : Text := segs.flatMap Segment.value

/-- What stands between words. -/
def isGap (c : Char) : Bool := c = ' ' || c = '\t' || c = '\n'

/-- Words, each with what stands behind it. -/
def entriesText (es : List (ArrayWord × Text)) : Text :=
  es.flatMap fun e => segmentsText e.1.segments ++ e.2

/-- The text of an array: words separated by blanks or newlines. -/
structure ArrayText where
  lead : Text
  entries : List (ArrayWord × Text)
  lead_gap : ∀ c ∈ lead, isGap c = true
  gap : ∀ e ∈ entries, ∀ c ∈ e.2, isGap c = true
  separated : ∀ e ∈ entries.dropLast, e.2 ≠ []

def ArrayText.text (a : ArrayText) : Text := a.lead ++ entriesText a.entries

/-- The words of the array as the shell values them. -/
def ArrayText.words (a : ArrayText) : List Text := a.entries.map fun e => segmentsValue e.1.segments

/-- Beside empty quotes the word is one quoted piece, or ends in one unquoted piece without white
space. -/
def keeps : List Segment → Bool
  | [] => false
  | .bare s :: segs => segs.isEmpty && s.all fun c => !isSpace c
  | seg :: segs =>
    if seg.value.isEmpty then keeps segs else segs.all fun s => s.value.isEmpty

/-! ## One item at a time -/

variable {s t u w : Text} {m : Match} {seg : Segment} {segs : List Segment}

theorem itemRe_forward : itemRe.Forward := by
  refine ⟨⟨trivial, trivial, trivial⟩, ⟨trivial, trivial, trivial⟩, trivial, trivial⟩

theorem parseArrayItems_append (hm : matchAt itemRe (u ++ t) 0 = some m)
    (hstop : m.stop = u.length) (hu : u ≠ []) : parseArrayItems (u ++ t) =
      matchItems (m.group (u ++ t) 1) (m.group (u ++ t) 2) (m.group (u ++ t) 3) ++
        parseArrayItems t := by
  rw [parseArrayItems, finditer_append itemRe_forward hm hstop hu, List.flatMap_cons,
    List.flatMap_map]
  simp only [group_shift]
  rfl

theorem parseArrayItems_nil : parseArrayItems [] = [] := by decide

theorem parseArrayItems_space {c : Char} (hc : isSpace c = true) (s : Text) :
    parseArrayItems (c :: s) = parseArrayItems s := by
  have hquote : ∀ q, isSpace q = false → (c :: s)[0]? ≠ some q := fun q hq h =>
    Bool.false_ne_true (hq.symm.trans (Option.some.inj h ▸ hc))
  have hm : matchAt itemRe (c :: s) 0 = none := by
    have hrun : run (c :: s) itemRe 0 [] = [] := by
      rw [itemRe, run_alt, run_quoted_of_ne (hquote _ (by decide)), run_alt,
        run_quoted_of_ne (hquote _ (by decide)), run_group, nonSpace,
        run_plus_char_of_not (by rw [List.getElem?_cons_zero, Option.any_some, hc]; rfl)]
      rfl
    rw [matchAt, hrun]
    rfl
  rw [parseArrayItems, finditer_cons itemRe_forward hm, List.flatMap_map]
  have hshift : ∀ m n, (Match.shift 1 m).group (c :: s) n = m.group s n :=
    fun m n => @group_shift s [c] m n
  simp only [hshift]
  rfl

theorem parseArrayItems_gap {g : Text} (hg : ∀ c ∈ g, isSpace c = true) (s : Text) :
    parseArrayItems (g ++ s) = parseArrayItems s := by
  induction g with
  | nil => rfl
  | cons c g ih =>
    rw [List.cons_append, parseArrayItems_space (hg c List.mem_cons_self),
      ih fun c hc => hg c (List.mem_cons_of_mem _ hc)]

/-- The items of a quoted piece. -/
def quotedItems (u : Text) : List Text := if u ≠ [] then [u] else []

theorem slice_quoted {q : Char} : slice (q :: u ++ q :: s) 1 (1 + u.length) = u := by
  rw [slice, Nat.add_comm 1, List.cons_append, List.take_succ_cons, List.take_left',
    List.drop_one, List.tail_cons]
  rfl

theorem parseArrayItems_single (hu : '\'' ∉ u) (s : Text) :
    parseArrayItems ('\'' :: u ++ '\'' :: s) = quotedItems u ++ parseArrayItems s := by
  have hrun := @run_quoted ('\'' :: u ++ '\'' :: s) u s 0 1 [] '\'' rfl hu
  have hm : matchAt itemRe (('\'' :: u ++ ['\'']) ++ s) 0 =
      some ⟨0, u.length + 2, [(1, 1, 1 + u.length)]⟩ := by
    rw [List.append_assoc, List.singleton_append, matchAt, itemRe, run_alt, hrun]
    simp only [Nat.zero_add]
    rfl
  have key := parseArrayItems_append hm (by simp) (by simp)
  rw [List.append_assoc, List.singleton_append] at key
  rw [key]
  refine congrArg (· ++ _) ?_
  show matchItems (slice ('\'' :: u ++ '\'' :: s) 1 (1 + u.length)) [] [] = _
  rw [slice_quoted]
  rfl

theorem parseArrayItems_double (hu : '"' ∉ u) (s : Text) :
    parseArrayItems ('"' :: u ++ '"' :: s) = quotedItems u ++ parseArrayItems s := by
  have hrun := @run_quoted ('"' :: u ++ '"' :: s) u s 0 2 [] '"' rfl hu
  have hm : matchAt itemRe (('"' :: u ++ ['"']) ++ s) 0 =
      some ⟨0, u.length + 2, [(2, 1, 1 + u.length)]⟩ := by
    rw [List.append_assoc, List.singleton_append, matchAt, itemRe, run_alt,
      run_quoted_of_ne (by rw [List.cons_append, List.getElem?_cons_zero]; decide), run_alt, hrun]
    simp only [Nat.zero_add]
    rfl
  have key := parseArrayItems_append hm (by simp) (by simp)
  rw [List.append_assoc, List.singleton_append] at key
  rw [key]
  refine congrArg (· ++ _) ?_
  show matchItems [] (slice ('"' :: u ++ '"' :: s) 1 (1 + u.length)) [] = _
  rw [slice_quoted]
  rfl

/-- A run that begins with no quote is one item, up to the next white space. -/
theorem parseArrayItems_run (hne : w ≠ []) (hw : ∀ c ∈ w, isSpace c = false)
    (hbrace : '\x7b' ∉ w) (hquote : ∀ c ∈ w.head?, c ≠ '\'' ∧ c ≠ '"')
    (hs : ∀ c ∈ s.head?, isSpace c = true) :
    parseArrayItems (w ++ s) = w :: parseArrayItems s := by
  have hget : (w ++ s)[0]? = w.head? := by
    rw [← List.head?_eq_getElem?, List.head?_append_of_ne_nil _ hne]
  have hrun := @run_plus_char (w ++ s) w s 0 [] (fun c => !isSpace c) rfl
    (fun c hc => by rw [hw c hc]; rfl) hne fun c hc => by rw [hs c hc]; rfl
  have hm : matchAt itemRe (w ++ s) 0 = some ⟨0, w.length, [(3, 0, w.length)]⟩ := by
    rw [matchAt, itemRe, run_alt, run_quoted_of_ne (fun h => (hquote _ (hget ▸ h)).1 rfl), run_alt,
      run_quoted_of_ne (fun h => (hquote _ (hget ▸ h)).2 rfl), run_group, List.nil_append,
      List.nil_append, List.head?_map, nonSpace, hrun, Nat.zero_add]
    rfl
  rw [parseArrayItems_append hm rfl hne]
  show matchItems [] [] (slice (w ++ s) 0 w.length) ++ _ = _
  have hslice : slice (w ++ s) 0 w.length = w := by
    rw [slice, List.take_left, List.drop_zero]
  have hitems : matchItems [] [] w = [w] := by
    rw [matchItems, if_neg (not_not.mpr rfl), if_neg (not_not.mpr rfl), if_pos hne, expandBraces,
      expandBracesFrom_of_notMem hbrace, List.nil_append]
  rw [hslice, hitems]
  rfl

/-! ## The items of a word -/

theorem Segment.brace_notMem (h : seg.Ok) : '\x7b' ∉ seg.text := by
  cases seg with
  | single u =>
    rw [text, List.mem_append, List.mem_cons]
    rintro ((h' | h') | h')
    · exact absurd h' (by decide)
    · exact (h _ h').2 (by decide)
    · exact absurd h' (by decide)
  | double u =>
    rw [text, List.mem_append, List.mem_cons]
    rintro ((h' | h') | h')
    · exact absurd h' (by decide)
    · exact (h _ h').2 (by decide)
    · exact absurd h' (by decide)
  | bare u => exact fun h' => (h.2.1 _ h').2 (by decide)

theorem parseArrayItems_quoted (h : seg.Ok) (hseg : seg.isBare = false) (s : Text) :
    parseArrayItems (seg.text ++ s) = quotedItems seg.value ++ parseArrayItems s := by
  cases seg with
  | single u =>
    have hu : '\'' ∉ u := fun h' => (h _ h').1 rfl
    rw [Segment.text, List.append_assoc, List.singleton_append]
    exact parseArrayItems_single hu s
  | double u =>
    have hu : '"' ∉ u := fun h' => (h _ h').1 rfl
    rw [Segment.text, List.append_assoc, List.singleton_append]
    exact parseArrayItems_double hu s
  | bare u => cases hseg

/-- The quotes are the only characters that the value has not, and they are no white space. -/
theorem Segment.mem_value {c : Char} (hc : c ∈ seg.text) :
    c ∈ seg.value ∨ isSpace c = false := by
  cases seg with
  | single u =>
    rw [text, List.mem_append, List.mem_cons, List.mem_singleton] at hc
    obtain (rfl | hc) | rfl := hc
    · exact .inr (by decide)
    · exact .inl hc
    · exact .inr (by decide)
  | double u =>
    rw [text, List.mem_append, List.mem_cons, List.mem_singleton] at hc
    obtain (rfl | hc) | rfl := hc
    · exact .inr (by decide)
    · exact .inl hc
    · exact .inr (by decide)
  | bare u => exact .inl hc

theorem Segment.length_value : seg.value.length ≤ seg.text.length ∧
    (seg.isBare = false → seg.value.length < seg.text.length) := by
  cases seg with
  | single u =>
    rw [text, List.length_append, List.length_cons]
    exact ⟨by rw [value]; omega, fun _ => by rw [value]; omega⟩
  | double u =>
    rw [text, List.length_append, List.length_cons]
    exact ⟨by rw [value]; omega, fun _ => by rw [value]; omega⟩
  | bare u => exact ⟨le_rfl, nofun⟩

theorem length_segmentsValue_le (segs : List Segment) :
    (segmentsValue segs).length ≤ (segmentsText segs).length := by
  induction segs with
  | nil => exact le_rfl
  | cons seg segs ih =>
    rw [segmentsValue, segmentsText, List.flatMap_cons, List.flatMap_cons, List.length_append,
      List.length_append]
    exact Nat.add_le_add Segment.length_value.1 ih

theorem mem_segmentsValue {c : Char} (hc : c ∈ segmentsText segs) :
    c ∈ segmentsValue segs ∨ isSpace c = false := by
  obtain ⟨seg, hseg, hc⟩ := List.mem_flatMap.mp hc
  exact (Segment.mem_value hc).imp_left fun h => List.mem_flatMap.mpr ⟨seg, hseg, h⟩

theorem segmentsText_cons : segmentsText (seg :: segs) = seg.text ++ segmentsText segs :=
  List.flatMap_cons

theorem segmentsValue_cons : segmentsValue (seg :: segs) = seg.value ++ segmentsValue segs :=
  List.flatMap_cons

/-- A text of white space only. -/
def IsBlank (v : Text) : Prop := ∀ c ∈ v, isSpace c = true

theorem parseArrayItems_empties (hok : ∀ s ∈ segs, s.Ok) (hval : segmentsValue segs = [])
    (t : Text) : parseArrayItems (segmentsText segs ++ t) = parseArrayItems t := by
  induction segs with
  | nil => rfl
  | cons seg segs ih =>
    obtain ⟨h₁, h₂⟩ := List.append_eq_nil_iff.mp (segmentsValue_cons ▸ hval)
    have hseg : seg.isBare = false := by
      cases seg with
      | bare u => exact absurd h₁ (hok _ List.mem_cons_self).1
      | single u | double u => rfl
    rw [segmentsText_cons, List.append_assoc,
      parseArrayItems_quoted (hok _ List.mem_cons_self) hseg, h₁,
      ih (fun s hs => hok s (List.mem_cons_of_mem _ hs)) h₂]
    rfl

theorem segmentsValue_eq_nil : segmentsValue segs = [] ↔
    segs.all (fun s => s.value.isEmpty) = true := by
  rw [segmentsValue, List.flatMap_eq_nil_iff, List.all_eq_true]
  simp only [List.isEmpty_iff]

theorem keeps_quoted (hseg : seg.isBare = false) : keeps (seg :: segs) =
    if seg.value.isEmpty then keeps segs else segs.all fun s => s.value.isEmpty := by
  cases seg with
  | bare u => cases hseg
  | single u | double u => rfl

theorem Segment.head_bare {u : Text} (h : (bare u).Ok) : ∀ c ∈ u.head?, c ≠ '\'' ∧ c ≠ '"' := by
  intro c hc
  have hc := (h.2.1 c (List.mem_of_head? hc)).1
  exact ⟨fun h' => hc (h' ▸ by decide), fun h' => hc (h' ▸ by decide)⟩

/-- A word of that shape is one item. -/
theorem parseArrayItems_keeps (hok : ∀ s ∈ segs, s.Ok) (hk : keeps segs = true)
    (ht : ∀ c ∈ t.head?, isSpace c = true) : parseArrayItems (segmentsText segs ++ t) =
      segmentsValue segs :: parseArrayItems t := by
  induction segs with
  | nil => cases hk
  | cons seg segs ih =>
    have hseg := hok seg List.mem_cons_self
    have hrest : ∀ s ∈ segs, s.Ok := fun s hs => hok s (List.mem_cons_of_mem _ hs)
    rw [segmentsText_cons, segmentsValue_cons, List.append_assoc]
    by_cases hb : seg.isBare = true
    · cases seg with
      | bare u =>
        rw [keeps, Bool.and_eq_true, List.isEmpty_iff, List.all_eq_true] at hk
        obtain ⟨rfl, hu⟩ := hk
        have hspace : ∀ c ∈ u, isSpace c = false := fun c hc => by
          rw [← Bool.not_eq_true']
          exact hu c hc
        show parseArrayItems (u ++ t) = (u ++ []) :: parseArrayItems t
        rw [List.append_nil]
        exact parseArrayItems_run hseg.1 hspace (Segment.brace_notMem hseg)
          (Segment.head_bare hseg) ht
      | single u | double u => cases hb
    · rw [Bool.not_eq_true] at hb
      rw [keeps_quoted hb] at hk
      rw [parseArrayItems_quoted hseg hb]
      by_cases hv : seg.value = []
      · rw [hv, if_pos (by rfl)] at hk
        rw [hv, ih hrest hk]
        rfl
      · rw [if_neg (by rwa [List.isEmpty_iff])] at hk
        have hnil := segmentsValue_eq_nil.mpr hk
        rw [quotedItems, if_pos hv, parseArrayItems_empties hrest hnil, hnil, List.append_nil]
        rfl

/-- Where a run without white space in front of an end of word ends. -/
theorem takeWhile_segmentsText (hval : ∀ c ∈ segmentsValue segs, isSpace c = false)
    (ht : ∀ c ∈ t.head?, isSpace c = true) :
    (segmentsText segs ++ t).takeWhile (fun c => !isSpace c) = segmentsText segs := by
  have htext : ∀ c ∈ segmentsText segs, isSpace c = false := fun c hc =>
    (mem_segmentsValue hc).elim (hval c) id
  rw [List.takeWhile_append_of_pos (fun c hc => by rw [htext c hc]; rfl)]
  cases t with
  | nil => rw [List.takeWhile_nil, List.append_nil]
  | cons c t => rw [List.takeWhile_cons_of_neg (by rw [ht c rfl]; decide), List.append_nil]

theorem brace_notMem_segmentsText (hok : ∀ s ∈ segs, s.Ok) : '\x7b' ∉ segmentsText segs := by
  intro h
  obtain ⟨seg, hseg, h⟩ := List.mem_flatMap.mp h
  exact Segment.brace_notMem (hok seg hseg) h

theorem isSpace_of_mem_run {c : Char} (h : c ∈ s.takeWhile fun c => !isSpace c) :
    isSpace c = false := by
  simpa using List.mem_takeWhile_imp h

/-- The first item of an unquoted piece that is not blank runs up to the next white space. -/
theorem parseArrayItems_bare (hseg : (Segment.bare u).Ok) (hbrace : '\x7b' ∉ t)
    (hu : ¬IsBlank u) :
    parseArrayItems (u ++ t) =
      (u.dropWhile isSpace ++ t).takeWhile (fun c => !isSpace c) ::
        parseArrayItems ((u.dropWhile isSpace ++ t).dropWhile fun c => !isSpace c) := by
  have hne : u.dropWhile isSpace ≠ [] := by
    rw [Ne, List.dropWhile_eq_nil_iff]
    exact hu
  obtain ⟨a, u', hu'⟩ := List.exists_cons_of_ne_nil hne
  have ha : isSpace a = false := by
    have hhead := List.head?_dropWhile_not isSpace u
    rw [hu'] at hhead
    exact hhead
  have hmem : ∀ c ∈ a :: u', c ∈ u := fun c hc => (List.dropWhile_sublist isSpace).mem (hu' ▸ hc)
  have hsplit : parseArrayItems (u ++ t) = parseArrayItems (a :: u' ++ t) := by
    have hwhole := List.takeWhile_append_dropWhile (p := isSpace) (l := u)
    rw [hu'] at hwhole
    rw [← hwhole, List.append_assoc, parseArrayItems_gap fun c hc => List.mem_takeWhile_imp hc]
  rw [hu', hsplit]
  conv_lhs => rw [← List.takeWhile_append_dropWhile (p := fun c => !isSpace c) (l := a :: u' ++ t)]
  have htake : (a :: u' ++ t).takeWhile (fun c => !isSpace c) =
      a :: (u' ++ t).takeWhile fun c => !isSpace c := by
    rw [List.cons_append, List.takeWhile_cons_of_pos (by rw [ha]; rfl)]
  refine parseArrayItems_run ?_ ?_ ?_ ?_ ?_
  · rw [htake]
    exact List.cons_ne_nil _ _
  · exact fun c hc => isSpace_of_mem_run hc
  · intro h
    rcases List.mem_append.mp ((List.takeWhile_sublist _).mem h) with h | h
    · exact (hseg.2.1 _ (hmem _ h)).2 (by decide)
    · exact hbrace h
  · rw [htake]
    intro c hc
    obtain rfl : a = c := Option.some.inj hc
    have hop := (hseg.2.1 a (hmem a List.mem_cons_self)).1
    exact ⟨fun h' => hop (h' ▸ by decide), fun h' => hop (h' ▸ by decide)⟩
  · intro c hc
    have hhead := List.head?_dropWhile_not (fun c => !isSpace c) (a :: u' ++ t)
    rw [hc] at hhead
    simpa using hhead

/-- If the items of a word and of what follows are blank ones and then the word, then there are no
blank ones, and the word has the shape. `v` is what was read of the word before. -/
theorem keeps_of_parseArrayItems {ws : List Text} (hok : ∀ s ∈ segs, s.Ok)
    (hapart : segs.IsChain fun a b => ¬(a.isBare = true ∧ b.isBare = true))
    (hbrace : '\x7b' ∉ t) (ht : ∀ c ∈ t.head?, isSpace c = true) (hnil : [] ∉ parseArrayItems t)
    (hrest : ∀ P : List Text, (∀ p ∈ P, p ≠ [] ∧ IsBlank p) →
      parseArrayItems t = P ++ ws → P = [])
    {P : List Text} (hP : ∀ p ∈ P, p ≠ [] ∧ IsBlank p) {v : Text} (hv : IsBlank v)
    (h : parseArrayItems (segmentsText segs ++ t) = P ++ (v ++ segmentsValue segs) :: ws) :
    P = [] ∧ v = [] ∧ keeps segs = true ∧ parseArrayItems t = ws := by
  induction segs generalizing P v with
  | nil =>
    have h : parseArrayItems t = P ++ v :: ws := by
      rw [segmentsValue, List.flatMap_nil, List.append_nil] at h
      exact h
    by_cases hv' : v = []
    · exact absurd (h ▸ List.mem_append_right P (hv' ▸ List.mem_cons_self)) hnil
    · have hnot := hrest (P ++ [v]) (fun p hp => by
        rcases List.mem_append.mp hp with hp | hp
        · exact hP p hp
        · obtain rfl := List.mem_singleton.mp hp
          exact ⟨hv', hv⟩) (by rw [h, List.append_assoc]; rfl)
      exact absurd hnot (by simp)
  | cons seg segs ih =>
    have hseg := hok seg List.mem_cons_self
    have hsegs : ∀ s ∈ segs, s.Ok := fun s hs => hok s (List.mem_cons_of_mem _ hs)
    have htail : segs.IsChain fun a b => ¬(a.isBare = true ∧ b.isBare = true) := by
      cases hapart with
      | singleton => exact .nil
      | cons_cons _ htail => exact htail
    have ih := @ih hsegs htail
    rw [segmentsText_cons, segmentsValue_cons, List.append_assoc] at h
    cases hb : seg.isBare with
    | false =>
      rw [parseArrayItems_quoted hseg hb] at h
      rw [keeps_quoted hb]
      by_cases hval : seg.value = []
      · -- empty quotes are read over
        rw [hval] at h ⊢
        exact ih hP hv h
      · rw [quotedItems, if_pos hval, List.singleton_append] at h
        rw [if_neg (by rwa [List.isEmpty_iff])]
        cases P with
        | nil =>
          -- the item is the word: the rest of it is empty
          rw [List.nil_append, List.cons.injEq] at h
          have hlen := congrArg List.length h.1
          rw [List.length_append, List.length_append] at hlen
          have hv' : v = [] := List.length_eq_zero_iff.mp (by omega)
          have hrest' : segmentsValue segs = [] := List.length_eq_zero_iff.mp (by omega)
          refine ⟨rfl, hv', segmentsValue_eq_nil.mp hrest', ?_⟩
          rw [← h.2, parseArrayItems_empties hsegs hrest']
        | cons p P =>
          -- the item is a blank one: the word goes on, and was not empty before
          rw [List.cons_append, List.cons.injEq] at h
          have hp := hP p List.mem_cons_self
          have hblank : IsBlank (v ++ seg.value) := fun c hc =>
            (List.mem_append.mp hc).elim (hv c) fun hc => hp.2 c (h.1 ▸ hc)
          have hnext := ih (fun p' hp' => hP p' (List.mem_cons_of_mem _ hp')) hblank
            (by rw [h.2, List.append_assoc])
          exact absurd (List.append_eq_nil_iff.mp hnext.2.1).2 hval
    | true =>
      cases seg with
      | single u => cases hb
      | double u => cases hb
      | bare u =>
        by_cases hblank : IsBlank u
        · -- white space to the code, a part of the word to the shell
          rw [Segment.text, Segment.value, parseArrayItems_gap hblank, ← List.append_assoc] at h
          have hnext := ih hP (fun c hc => (List.mem_append.mp hc).elim (hv c) (hblank c)) h
          exact absurd (List.append_eq_nil_iff.mp hnext.2.1).2 hseg.1
        · -- the item is the word, which has no white space and nothing behind
          have hseg' := parseArrayItems_bare hseg (t := segmentsText segs ++ t) (by
            rw [List.mem_append, not_or]
            exact ⟨brace_notMem_segmentsText hsegs, hbrace⟩) hblank
          rw [Segment.text, Segment.value, hseg'] at h
          cases P with
          | nil =>
            rw [List.nil_append, List.cons.injEq] at h
            have hrun : ∀ c ∈ v ++ (u ++ segmentsValue segs), isSpace c = false := fun c hc =>
              isSpace_of_mem_run (h.1 ▸ hc)
            have hv' : v = [] := List.eq_nil_iff_forall_not_mem.mpr fun c hc =>
              Bool.false_ne_true ((hrun c (List.mem_append_left _ hc)).symm.trans (hv c hc))
            have hu : ∀ c ∈ u, isSpace c = false := fun c hc =>
              hrun c (List.mem_append_right _ (List.mem_append_left _ hc))
            have hdrop : u.dropWhile isSpace = u := by
              cases u with
              | nil => rfl
              | cons a u =>
                rw [List.dropWhile_cons_of_neg (by rw [hu a List.mem_cons_self]; decide)]
            have hall : ∀ c ∈ u, (!isSpace c) = true := fun c hc => by rw [hu c hc]; rfl
            rw [hdrop, List.takeWhile_append_of_pos hall, List.dropWhile_append_of_pos hall, hv',
              List.nil_append, List.append_cancel_left_eq] at h
            have hval : ∀ c ∈ segmentsValue segs, isSpace c = false := fun c hc =>
              hrun c (List.mem_append_right _ (List.mem_append_right _ hc))
            rw [takeWhile_segmentsText hval ht] at h
            cases segs with
            | nil =>
              refine ⟨rfl, hv', ?_, ?_⟩
              · rw [keeps, Bool.and_eq_true, List.all_eq_true]
                exact ⟨rfl, hall⟩
              · have hend : t.dropWhile (fun c => !isSpace c) = t := by
                  cases t with
                  | nil => rfl
                  | cons a t => rw [List.dropWhile_cons_of_neg (by rw [ht a rfl]; decide)]
                rw [← h.2]
                exact congrArg parseArrayItems hend.symm
            | cons seg' segs =>
              -- the quotes of a piece behind would stand in the item
              have hb' : seg'.isBare = false := by
                have hne := (List.isChain_cons_cons.mp hapart).1
                cases hb' : seg'.isBare with
                | false => rfl
                | true => exact absurd ⟨rfl, hb'⟩ hne
              have hlen := congrArg List.length h.1
              rw [segmentsText_cons, segmentsValue_cons, List.length_append,
                List.length_append] at hlen
              have hlt := (@Segment.length_value seg').2 hb'
              have hle := length_segmentsValue_le segs
              omega
          | cons p P =>
            rw [List.cons_append, List.cons.injEq] at h
            obtain ⟨hne, hp⟩ := hP p List.mem_cons_self
            obtain ⟨a, p', rfl⟩ := List.exists_cons_of_ne_nil hne
            have hfalse : isSpace a = false := isSpace_of_mem_run (h.1 ▸ List.mem_cons_self)
            exact absurd (hfalse.symm.trans (hp a List.mem_cons_self)) Bool.false_ne_true

/-! ## The items of an array -/

theorem isSpace_of_isGap {c : Char} (h : isGap c = true) : isSpace c = true := by
  simp only [isGap, Bool.or_eq_true, decide_eq_true_iff] at h
  obtain (rfl | rfl) | rfl := h <;> decide

theorem mem_of_mem_group {c : Char} {n : ℕ} (h : c ∈ m.group s n) : c ∈ s := by
  rw [Match.group] at h
  cases hg : m.groups.lookup n with
  | none =>
    rw [hg] at h
    cases h
  | some g =>
    rw [hg] at h
    exact List.mem_of_mem_take (List.mem_of_mem_drop h)

/-- Without braces no item is empty. -/
theorem nil_notMem_parseArrayItems (h : '\x7b' ∉ s) : [] ∉ parseArrayItems s := by
  intro hmem
  obtain ⟨m, -, hmem⟩ := List.mem_flatMap.mp hmem
  rw [matchItems] at hmem
  by_cases h₁ : m.group s 1 ≠ []
  · rw [if_pos h₁] at hmem
    exact h₁ (List.mem_singleton.mp hmem).symm
  rw [if_neg h₁] at hmem
  by_cases h₂ : m.group s 2 ≠ []
  · rw [if_pos h₂] at hmem
    exact h₂ (List.mem_singleton.mp hmem).symm
  rw [if_neg h₂] at hmem
  by_cases h₃ : m.group s 3 ≠ []
  · rw [if_pos h₃, expandBraces, expandBracesFrom_of_notMem fun hb => h (mem_of_mem_group hb)]
      at hmem
    exact h₃ (List.mem_singleton.mp hmem).symm
  · rw [if_neg h₃] at hmem
    cases hmem

/-- The gaps are as in an array. -/
structure Gaps (es : List (ArrayWord × Text)) : Prop where
  gap : ∀ e ∈ es, ∀ c ∈ e.2, isGap c = true
  separated : ∀ e ∈ es.dropLast, e.2 ≠ []

section Entries

variable {e : ArrayWord × Text} {es : List (ArrayWord × Text)}

theorem Gaps.tail (h : Gaps (e :: es)) : Gaps es := by
  refine ⟨fun e' he' => h.gap e' (List.mem_cons_of_mem _ he'), fun e' he' => ?_⟩
  cases es with
  | nil => cases he'
  | cons e₁ es => exact h.separated e' (List.mem_cons_of_mem _ he')

theorem entriesText_cons :
    entriesText (e :: es) = segmentsText e.1.segments ++ (e.2 ++ entriesText es) := by
  rw [entriesText, List.flatMap_cons, List.append_assoc]
  rfl

/-- White space ends a word. -/
theorem Gaps.head (h : Gaps (e :: es)) :
    ∀ c ∈ (e.2 ++ entriesText es).head?, isSpace c = true := by
  intro c hc
  cases hg : e.2 with
  | nil =>
    cases es with
    | nil =>
      rw [hg] at hc
      cases hc
    | cons e₁ es => exact absurd hg (h.separated e List.mem_cons_self)
  | cons a g =>
    rw [hg] at hc
    obtain rfl : a = c := Option.some.inj hc
    exact isSpace_of_isGap (h.gap e List.mem_cons_self a (hg ▸ List.mem_cons_self))

theorem Gaps.parseArrayItems_gap (h : Gaps (e :: es)) :
    parseArrayItems (e.2 ++ entriesText es) = parseArrayItems (entriesText es) :=
  Pkgbuild.parseArrayItems_gap
    (fun c hc => isSpace_of_isGap (h.gap e List.mem_cons_self c hc)) _

theorem Gaps.brace_notMem (h : Gaps es) : '\x7b' ∉ entriesText es := by
  intro hb
  obtain ⟨e, he, hb⟩ := List.mem_flatMap.mp hb
  rcases List.mem_append.mp hb with hb | hb
  · exact brace_notMem_segmentsText e.1.ok hb
  · exact absurd (h.gap e he _ hb) (by decide)

theorem parseArrayItems_entries (h : Gaps es) (hk : ∀ e ∈ es, keeps e.1.segments = true) :
    parseArrayItems (entriesText es) = es.map fun e => segmentsValue e.1.segments := by
  induction es with
  | nil => exact parseArrayItems_nil
  | cons e es ih =>
    rw [entriesText_cons, parseArrayItems_keeps e.1.ok (hk e List.mem_cons_self) h.head,
      h.parseArrayItems_gap, ih h.tail fun e' he' => hk e' (List.mem_cons_of_mem _ he')]
    rfl

theorem keeps_of_entries (h : Gaps es) {P : List Text} (hP : ∀ p ∈ P, p ≠ [] ∧ IsBlank p)
    (heq : parseArrayItems (entriesText es) =
      P ++ es.map fun e => segmentsValue e.1.segments) :
    P = [] ∧ ∀ e ∈ es, keeps e.1.segments = true := by
  induction es generalizing P with
  | nil =>
    rw [entriesText, List.flatMap_nil, parseArrayItems_nil, List.map_nil, List.append_nil] at heq
    exact ⟨heq.symm, nofun⟩
  | cons e es ih =>
    have hbrace : '\x7b' ∉ e.2 ++ entriesText es := by
      rw [List.mem_append, not_or]
      exact ⟨fun hb => absurd (h.gap e List.mem_cons_self _ hb) (by decide), h.tail.brace_notMem⟩
    rw [entriesText_cons] at heq
    obtain ⟨hnil, -, hk, hrest⟩ := keeps_of_parseArrayItems (v := []) e.1.ok e.1.apart hbrace h.head
      (nil_notMem_parseArrayItems hbrace)
      (fun P hP heq => (ih h.tail hP (h.parseArrayItems_gap ▸ heq)).1) hP nofun heq
    rw [h.parseArrayItems_gap] at hrest
    refine ⟨hnil, List.forall_mem_cons.mpr ⟨hk, ?_⟩⟩
    exact (@ih h.tail [] nofun hrest).2

end Entries

/-- **The items are the words of the shell exactly if every word is, beside empty quotes, one
quoted piece or ends in its one unquoted piece, without white space.** -/
theorem parseArrayItems_iff (a : ArrayText) :
    parseArrayItems a.text = a.words ↔ ∀ e ∈ a.entries, keeps e.1.segments = true := by
  have hgaps : Gaps a.entries := ⟨a.gap, a.separated⟩
  have hlead : parseArrayItems a.text = parseArrayItems (entriesText a.entries) :=
    parseArrayItems_gap (fun c hc => isSpace_of_isGap (a.lead_gap c hc)) _
  rw [hlead]
  exact ⟨fun h => (@keeps_of_entries _ hgaps [] nofun h).2, parseArrayItems_entries hgaps⟩

/-- `''`. -/
def emptyWord : ArrayWord where
  segments := [.single []]
  nonempty := List.cons_ne_nil _ _
  ok := List.forall_mem_singleton.mpr nofun
  apart := .singleton _
  begins := by
    rintro s ⟨⟩
    trivial

/-- `lib'x'`. -/
def joinedWord : ArrayWord where
  segments := [.bare ['l', 'i', 'b'], .single ['x']]
  nonempty := List.cons_ne_nil _ _
  ok := by
    refine List.forall_mem_cons.mpr ⟨⟨nofun, ?_, by decide, by decide⟩,
      List.forall_mem_singleton.mpr (List.forall_mem_singleton.mpr (by decide))⟩
    exact List.forall_mem_cons.mpr ⟨by decide, List.forall_mem_cons.mpr ⟨by decide,
      List.forall_mem_singleton.mpr (by decide)⟩⟩
  apart := .cons_cons nofun (.singleton _)
  begins := by
    rintro s ⟨⟩
    exact ⟨by decide, by decide⟩

/-- `'' lib'x'`. -/
def quotedArray : ArrayText where
  lead := []
  entries := [(emptyWord, [' ']), (joinedWord, [])]
  lead_gap := nofun
  gap := List.forall_mem_cons.mpr ⟨List.forall_mem_singleton.mpr (by decide),
    List.forall_mem_singleton.mpr nofun⟩
  separated := List.forall_mem_singleton.mpr (List.cons_ne_nil _ _)

/-- The empty word is lost, and the other keeps its quotes. -/
theorem not_parseArrayItems_quotedArray :
    parseArrayItems quotedArray.text = [['l', 'i', 'b', '\'', 'x', '\'']] ∧
      quotedArray.words = [[], ['l', 'i', 'b', 'x']] :=
  ⟨by decide, by decide⟩

end Sysforge.Pkgbuild
