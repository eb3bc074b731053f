import Sysforge.Foundations.Erasure
import Sysforge.Foundations.Utf8
import Sysforge.Terminal.QueryFilter

/-!
# Cargo's progress frames

`_CargoFrameClip` cuts cargo's progress frames to the width of the terminal. A line that starts like a
frame, read without its escape sequences, is held until it ends and is forwarded cut; any other is
passed on as it arrives, and the line after a frame starts with an erase.

What the filter gives is a function of the lines of the stream (`rendered`), whatever the chunks, as
long as no cut falls into a frame where its start reads neither as a frame nor as the start of one
(`Split`): there the frame is passed on like any other line (`steady_iff`).
-/

namespace Sysforge.Terminal

open Sysforge.Erasure Sysforge.Utf8

/-! ## Escape sequences -/

def escape : Char := '\x1b'

def bell : Char := '\x07'

/-- `[^\x07\x1b]` -/
def isStringChar (c : Char) : Bool := c != bell && c != escape

/-- `[0-9;:?]` -/
def isParam (c : Char) : Bool := ('0' ≤ c && c ≤ '9') || c == ';' || c == ':' || c == '?'

/-- `[\x20-\x2f]` -/
def isIntermediate (c : Char) : Bool := ' ' ≤ c && c ≤ '/'

/-- `[@-~]` -/
def isControlFinal (c : Char) : Bool := '@' ≤ c && c ≤ '~'

/-- `[0-~]` -/
def isDesignationFinal (c : Char) : Bool := '0' ≤ c && c ≤ '~'

/-- `[@-Z\\-_]` -/
def isTwoByteFinal (c : Char) : Bool := ('@' ≤ c && c ≤ 'Z') || ('\\' ≤ c && c ≤ '_')

/-- `(?:\x07|\x1b\\)?` -/
def stringTerminator (s : Text) : Text :=
  ((lit bell s).or ((lit escape s).bind (lit '\\'))).getD s

/-- `\x1b\][^\x07\x1b]*(?:\x07|\x1b\\)?` -/
def stringEscape (s : Text) : Option Text :=
  (lit escape s).bind fun s => (lit ']' s).map fun s => stringTerminator (s.dropWhile isStringChar)

/-- `\x1b\[[0-9;:?]*[\x20-\x2f]*[@-~]` -/
def controlEscape (s : Text) : Option Text :=
  (lit escape s).bind fun s => (lit '[' s).bind fun s =>
    one isControlFinal ((s.dropWhile isParam).dropWhile isIntermediate)

/-- `\x1b[\x20-\x2f]+[0-~]` -/
def designation (s : Text) : Option Text :=
  (lit escape s).bind fun s => (one isIntermediate s).bind fun s =>
    one isDesignationFinal (s.dropWhile isIntermediate)

/-- `\x1b[@-Z\\-_]` -/
def twoByteEscape (s : Text) : Option Text := (lit escape s).bind (one isTwoByteFinal)

/-- `_ANSI_ESCAPE_RE` at a place. Its repetitions stop where the next character of the pattern is,
which is in none of their classes. -/
def ansiEscape (s : Text) : Option Text :=
  (stringEscape s).or ((controlEscape s).or ((designation s).or (twoByteEscape s)))

/-- `$`: at the end, or before a newline that ends the text. -/
def atTextEnd (s : Text) : Bool := s == [] || s == ['\n']

/-- `_PARTIAL_ESCAPE_RE` at a place. -/
def partialEscape (s : Text) : Option Text :=
  (lit escape s).bind fun s =>
    match (lit '[' s).map fun s => (s.dropWhile isParam).dropWhile isIntermediate with
    | some rest => if atTextEnd rest then some rest else none
    | none => if atTextEnd s then some s else none

/-! ## Frames -/

def isSpaceChar (c : Char) : Bool := c == ' '

/-- `[A-Z]` -/
def isUpper (c : Char) : Bool := 'A' ≤ c && c ≤ 'Z'

/-- `[a-z]` -/
def isLower (c : Char) : Bool := 'a' ≤ c && c ≤ 'z'

/-- `_CARGO_FRAME_RE.match`: ` +[A-Z][a-z]+ \[`. -/
def cargoFrame (t : Text) : Bool :=
  ((one isSpaceChar t).bind fun t => (one isUpper (t.dropWhile isSpaceChar)).bind fun t =>
    (one isLower t).bind fun t => (lit ' ' (t.dropWhile isLower)).bind (lit '[')).isSome

/-- `_CARGO_FRAME_PREFIX_RE.fullmatch`: ` *(?:[A-Z][a-z]*(?: \[?)?)?`. -/
def cargoFramePrefix (t : Text) : Bool :=
  match t.dropWhile isSpaceChar with
  | [] => true
  | c :: t => isUpper c && [[], [' '], [' ', '[']].contains (t.dropWhile isLower)

/-- `_CARGO_FRAME_MAX` -/
def cargoFrameMax : ℕ := 4096

/-- `_ERASE_LINE` -/
def eraseLine : Bytes := [esc, bracket, 0x4b]

/-- `"\x1b[0m"` -/
def reset : Text := [escape, '[', '0', 'm']

/-- The loop of `_clip_visible` over the matches, each with the plain text before it: what is kept
where a plain text goes over the width. -/
def clipFrom (width : ℕ) : Text → ℕ → List (Text × Text) → Text → Option Text
  | out, seen, [], plain =>
    if width < seen + plain.length then some (out ++ plain.take (width - seen) ++ reset) else none
  | out, seen, (plain, m) :: ms, rest =>
    if width < seen + plain.length then some (out ++ plain.take (width - seen) ++ reset)
    else clipFrom width (out ++ (plain ++ m)) (seen + plain.length) ms rest

/-- `_clip_visible` -/
def clipVisible (seg : Bytes) (width : ℕ) : Bytes :=
  let text := pieces ansiEscape (decode seg)
  match clipFrom width [] 0 text.1 text.2 with
  | some out => encode out
  | none => seg

/-! ## The filter -/

def carriageReturn : UInt8 := 0x0d

def isTerminator (b : UInt8) : Bool := b == carriageReturn || b == newline

/-- `re.split(rb"([\r\n])", chunk)` -/
def splitTerminators : Bytes → List Bytes
  | [] => [[]]
  | b :: s =>
    if isTerminator b then [] :: [b] :: splitTerminators s
    else
      match splitTerminators s with
      | [] => [[b]]
      | piece :: rest => (b :: piece) :: rest

/-- `_visible_head` -/
def visibleHead (line : Bytes) : Text :=
  erase ansiEscape (erase partialEscape (decode (line.take 256)))

/-- `_is_frame` -/
def isFrame (line : Bytes) : Bool := cargoFrame (visibleHead line)

/-- `_could_be_frame` -/
def couldBeFrame (line : Bytes) : Bool := cargoFramePrefix (visibleHead line)

/-- `_CargoFrameClip` -/
structure CargoFrameClip where
  cols : ℕ
  line : Bytes := []
  holding : Bool := true
  frameShown : Bool := false

namespace CargoFrameClip

/-- `_release` -/
def release (f : CargoFrameClip) (frame : Bool) : Bytes × CargoFrameClip :=
  let erase := f.frameShown && !eraseLine.isPrefixOf f.line
  let out := if frame then clipVisible f.line (max 1 (f.cols - 1)) else f.line
  (if erase then eraseLine ++ out else out,
    { f with line := [], holding := false, frameShown := false })

/-- The turn of the loop of `feed` for a piece. -/
def feedPiece (f : CargoFrameClip) (piece : Bytes) : Bytes × CargoFrameClip :=
  if piece = [carriageReturn] ∨ piece = [newline] then
    let frame := f.holding && isFrame f.line
    let r := if f.holding then f.release frame else ([], f)
    (r.1 ++ piece,
      { r.2 with line := [], holding := true, frameShown := frame && piece == [carriageReturn] })
  else if piece = [] then ([], f)
  else if !f.holding then (piece, f)
  else
    let f := { f with line := f.line ++ piece }
    if isFrame f.line then
      if cargoFrameMax < f.line.length then f.release false else ([], f)
    else if !couldBeFrame f.line then f.release false
    else ([], f)

/-- The loop of `feed`. -/
def feedPieces (f : CargoFrameClip) : List Bytes → Bytes × CargoFrameClip
  | [] => ([], f)
  | piece :: pieces =>
    let r := f.feedPiece piece
    let r' := feedPieces r.2 pieces
    (r.1 ++ r'.1, r'.2)

/-- `feed` -/
def feed (f : CargoFrameClip) (chunk : Bytes) : Bytes × CargoFrameClip :=
  f.feedPieces (splitTerminators chunk)

/-- `flush` -/
def flush (f : CargoFrameClip) : Bytes := if f.holding then (f.release false).1 else []

/-- What the chunks of a stream give, with the flush at its end. -/
def outputs (f : CargoFrameClip) : List Bytes → Bytes
  | [] => f.flush
  | c :: cs => (f.feed c).1 ++ outputs (f.feed c).2 cs

/-! ## What the filter gives -/

/-- The lines of a stream with their terminators, and what follows the last terminator. -/
def rows : Bytes → List (Bytes × UInt8) × Bytes
  | [] => ([], [])
  | b :: s =>
    if isTerminator b then (([], b) :: (rows s).1, (rows s).2)
    else
      match rows s with
      | ([], rest) => ([], b :: rest)
      | ((line, t) :: rs, rest) => ((b :: line, t) :: rs, rest)

/-- The lines of a stream, the unended last one included. -/
def lines (s : Bytes) : List Bytes := (rows s).1.map Prod.fst ++ [(rows s).2]

/-- The erase before a line. -/
def erasing (shown : Bool) (line : Bytes) : Bytes :=
  if shown && !eraseLine.isPrefixOf line then eraseLine else []

/-- A line as it is forwarded. -/
def clipped (width : ℕ) (line : Bytes) : Bytes :=
  if isFrame line then clipVisible line width else line

/-- Lines as they are forwarded, and whether a frame is shown behind them. -/
def renderRows (width : ℕ) : Bool → List (Bytes × UInt8) → Bytes × Bool
  | shown, [] => ([], shown)
  | shown, (line, t) :: rs =>
    let r := renderRows width (isFrame line && t == carriageReturn) rs
    (erasing shown line ++ (clipped width line ++ t :: r.1), r.2)

/-- A stream as it is forwarded. -/
def rendered (width : ℕ) (shown : Bool) (rs : List (Bytes × UInt8)) (rest : Bytes) : Bytes :=
  (renderRows width shown rs).1 ++ (erasing (renderRows width shown rs).2 rest ++ rest)

/-- Each line that is not a frame is in the output, with at most an erase before it, and that only
after a frame. -/
inductive Passed : Bool → List (Bytes × UInt8) → Bytes → Bytes → Prop
  | last {shown e : Bool} {line : Bytes} : (e = true → shown = true) →
      Passed shown [] line ((if e then eraseLine else []) ++ line)
  | row {shown e : Bool} {line body rest out : Bytes} {t : UInt8} {rs : List (Bytes × UInt8)} :
      (e = true → shown = true) → (isFrame line = false → body = line) →
      Passed (isFrame line) rs rest out →
      Passed shown ((line, t) :: rs) rest ((if e then eraseLine else []) ++ (body ++ t :: out))

/-- A stream that gives the same for every way of cutting it, with the lines that are no frames
passed on. -/
def Steady (cols : ℕ) (s : Bytes) : Prop :=
  ∀ chunks : List Bytes, chunks.flatten = s →
    outputs { cols } chunks = outputs { cols } [s] ∧
      Passed false (rows s).1 (rows s).2 (outputs { cols } chunks)

/-- No start of a line that reads as a frame is longer than `_CARGO_FRAME_MAX`. -/
def FramesFit (s : Bytes) : Prop :=
  ∀ line ∈ lines s, ∀ p, p <+: line → isFrame p = true → p.length ≤ cargoFrameMax

/-- A start of the line reads neither as a frame nor as the start of one. -/
def Refused (line : Bytes) : Prop := ∃ p, p <+: line ∧ isFrame p = false ∧ couldBeFrame p = false

/-- The line that comes first. -/
def nextLine : List (Bytes × UInt8) → Bytes → Bytes
  | [], rest => rest
  | (line, _) :: _, _ => line

/-- A frame with a start that is refused, which is cut or has a line behind it that gets an erase. -/
def Split (width : ℕ) (s : Bytes) : Prop :=
  ∃ before line t after, (rows s).1 = before ++ (line, t) :: after ∧ isFrame line = true ∧
    Refused line ∧ (clipVisible line width ≠ line ∨
      t = carriageReturn ∧ ¬eraseLine <+: nextLine after (rows s).2)

/-! ## Lines and pieces -/

section Rows

variable {b t : UInt8} {p s v line : Bytes}

/-- A piece of a line. -/
def Plain (s : Bytes) : Prop := ∀ b ∈ s, isTerminator b = false

theorem rows_terminator (ht : isTerminator t = true) (s : Bytes) :
    rows (t :: s) = (([], t) :: (rows s).1, (rows s).2) := by
  rw [rows, if_pos ht]

theorem rows_plain (hp : Plain p) : rows p = ([], p) := by
  induction p with
  | nil => rfl
  | cons b p ih =>
    have hb : ¬isTerminator b = true := by
      rw [hp b List.mem_cons_self]
      exact Bool.false_ne_true
    rw [rows, if_neg hb, ih fun c hc => hp c (List.mem_cons_of_mem b hc)]

/-- A piece in front of a terminator is its line. -/
theorem rows_append_terminator (hp : Plain p) (ht : isTerminator t = true) (s : Bytes) :
    rows (p ++ t :: s) = ((p, t) :: (rows s).1, (rows s).2) := by
  induction p with
  | nil => exact rows_terminator ht s
  | cons b p ih =>
    have hb : ¬isTerminator b = true := by
      rw [hp b List.mem_cons_self]
      exact Bool.false_ne_true
    rw [List.cons_append, rows, if_neg hb, ih fun c hc => hp c (List.mem_cons_of_mem b hc)]

theorem exists_lines_cons (hb : isTerminator b = false) (s : Bytes) :
    ∃ line ls, lines s = line :: ls ∧ lines (b :: s) = (b :: line) :: ls := by
  have hb' : ¬isTerminator b = true := by
    rw [hb]
    exact Bool.false_ne_true
  rw [lines, lines, rows, if_neg hb']
  cases hrows : rows s with
  | mk rs rest =>
    cases rs with
    | nil => exact ⟨rest, [], rfl, rfl⟩
    | cons r rs => exact ⟨r.1, rs.map Prod.fst ++ [rest], rfl, rfl⟩

/-- A piece in front of a stream begins its first line. -/
theorem exists_line (hp : Plain p) (s : Bytes) : ∃ line ls, lines (p ++ s) = line :: ls ∧ p <+: line := by
  induction p with
  | nil =>
    obtain ⟨line, ls, h⟩ := List.exists_cons_of_ne_nil
      (List.append_ne_nil_of_right_ne_nil ((rows s).1.map Prod.fst) (List.cons_ne_nil (rows s).2 []))
    exact ⟨line, ls, h, List.nil_prefix⟩
  | cons b p ih =>
    obtain ⟨line, ls, hline, hpre⟩ := ih fun c hc => hp c (List.mem_cons_of_mem b hc)
    obtain ⟨line', ls', hline', hcons⟩ := exists_lines_cons (hp b List.mem_cons_self) (p ++ s)
    obtain ⟨rfl, rfl⟩ := List.cons.inj (hline.symm.trans hline')
    exact ⟨b :: line, ls, hcons, List.cons_prefix_cons.mpr ⟨rfl, hpre⟩⟩

/-- The pieces of a stream that comes whole. -/
def rowPieces (rs : List (Bytes × UInt8)) : List Bytes := rs.flatMap fun r => [r.1, [r.2]]

theorem rowPieces_cons (r : Bytes × UInt8) (rs : List (Bytes × UInt8)) :
    rowPieces (r :: rs) = r.1 :: [r.2] :: rowPieces rs := rfl

theorem rowPieces_append (rs rs' : List (Bytes × UInt8)) :
    rowPieces (rs ++ rs') = rowPieces rs ++ rowPieces rs' := List.flatMap_append

theorem splitTerminators_eq (s : Bytes) :
    splitTerminators s = rowPieces (rows s).1 ++ [(rows s).2] := by
  induction s with
  | nil => rfl
  | cons b s ih =>
    rw [splitTerminators, rows]
    by_cases hb : isTerminator b = true
    · rw [if_pos hb, if_pos hb, ih]
      rfl
    · rw [if_neg hb, if_neg hb, ih]
      cases rows s with
      | mk rs rest =>
        cases rs with
        | nil => rfl
        | cons r rs => rfl

/-- The lines of a stream with their terminators are the stream. -/
theorem rows_spec (s : Bytes) : (rowPieces (rows s).1).flatten ++ (rows s).2 = s ∧ Plain (rows s).2 ∧
    ∀ r ∈ (rows s).1, Plain r.1 ∧ isTerminator r.2 = true := by
  induction s with
  | nil => exact ⟨rfl, fun _ h => absurd h List.not_mem_nil, fun _ h => absurd h List.not_mem_nil⟩
  | cons b s ih =>
    obtain ⟨hflat, hrest, hrows⟩ := ih
    rw [rows]
    by_cases hb : isTerminator b = true
    · rw [if_pos hb]
      refine ⟨congrArg (b :: ·) hflat, hrest, List.forall_mem_cons.mpr ⟨⟨?_, hb⟩, hrows⟩⟩
      exact fun _ h => absurd h List.not_mem_nil
    · rw [if_neg hb]
      have hplain : isTerminator b = false := Bool.eq_false_iff.mpr hb
      generalize rows s = r at hflat hrest hrows
      obtain ⟨rs, rest⟩ := r
      cases rs with
      | nil => exact ⟨congrArg (b :: ·) hflat, List.forall_mem_cons.mpr ⟨hplain, hrest⟩, hrows⟩
      | cons r rs =>
        obtain ⟨hr, hrs⟩ := List.forall_mem_cons.mp hrows
        refine ⟨congrArg (b :: ·) hflat, hrest, List.forall_mem_cons.mpr ⟨⟨?_, hr.2⟩, hrs⟩⟩
        exact List.forall_mem_cons.mpr ⟨hplain, hr.1⟩

/-- Whole lines in front of a stream are its first lines. -/
theorem rows_flatten (rs : List (Bytes × UInt8)) (h : ∀ r ∈ rs, Plain r.1 ∧ isTerminator r.2 = true)
    (s : Bytes) : rows ((rowPieces rs).flatten ++ s) = (rs ++ (rows s).1, (rows s).2) := by
  induction rs with
  | nil => rfl
  | cons r rs ih =>
    obtain ⟨hr, hrs⟩ := List.forall_mem_cons.mp h
    have heq : (rowPieces (r :: rs)).flatten ++ s = r.1 ++ r.2 :: ((rowPieces rs).flatten ++ s) := by
      simp only [rowPieces_cons, List.flatten_cons, List.append_assoc, List.cons_append, List.nil_append]
    rw [heq, rows_append_terminator hr.1 hr.2, ih hrs]
    rfl

/-- A chunk's pieces are terminators and pieces of lines. -/
def IsPiece (piece : Bytes) : Prop := Plain piece ∨ ∃ t, isTerminator t = true ∧ piece = [t]

theorem isPiece_of_mem {piece : Bytes} (h : piece ∈ splitTerminators s) : IsPiece piece := by
  obtain ⟨-, hrest, hrows⟩ := rows_spec s
  rw [splitTerminators_eq] at h
  rcases List.mem_append.mp h with h | h
  · obtain ⟨r, hr, hpiece⟩ := List.mem_flatMap.mp h
    rcases List.mem_cons.mp hpiece with rfl | hpiece
    · exact .inl (hrows r hr).1
    · exact .inr ⟨r.2, (hrows r hr).2, List.mem_singleton.mp hpiece⟩
  · rw [List.mem_singleton.mp h]
    exact .inl hrest

theorem flatten_splitTerminators (s : Bytes) : (splitTerminators s).flatten = s := by
  rw [splitTerminators_eq, List.flatten_append, List.flatten_singleton]
  exact (rows_spec s).1

end Rows

/-! ## The erase -/

section Erase

variable {p q line : Bytes} {shown : Bool}

/-- What is refused is not just a start of an erase. -/
theorem eraseLine_prefix_iff (hframe : isFrame q = false) (hcould : couldBeFrame q = false)
    (h : q <+: p) : eraseLine <+: p ↔ eraseLine <+: q := by
  refine ⟨fun he => ?_, fun he => he.trans h⟩
  rcases List.prefix_or_prefix_of_prefix he h with h' | h'
  · exact h'
  · -- the starts of an erase may be starts of frames
    obtain ⟨v, hv⟩ := h'
    rw [eraseLine] at hv
    rcases q with _ | ⟨a, _ | ⟨b, _ | ⟨c, q⟩⟩⟩
    · exact absurd hcould (by decide)
    · simp only [List.cons_append, List.nil_append, List.cons.injEq] at hv
      obtain ⟨rfl, -⟩ := hv
      exact absurd hcould (by decide)
    · simp only [List.cons_append, List.nil_append, List.cons.injEq] at hv
      obtain ⟨rfl, rfl, -⟩ := hv
      exact absurd hcould (by decide)
    · simp only [List.cons_append, List.cons.injEq, List.append_eq_nil_iff] at hv
      obtain ⟨rfl, rfl, rfl, rfl, -⟩ := hv
      exact List.prefix_refl _

theorem erasing_eq (shown : Bool) (h : eraseLine <+: p ↔ eraseLine <+: q) :
    erasing shown p = erasing shown q := by
  have hbool : eraseLine.isPrefixOf p = eraseLine.isPrefixOf q := by
    rw [Bool.eq_iff_iff, List.isPrefixOf_iff_prefix, List.isPrefixOf_iff_prefix, h]
  rw [erasing, erasing, hbool]

end Erase

/-! ## One line -/

section Feed

variable {t : UInt8} {p e x : Bytes} {f : CargoFrameClip} {shown : Bool} {pieces : List Bytes}

theorem feedPieces_append (f : CargoFrameClip) (ps qs : List Bytes) :
    f.feedPieces (ps ++ qs) =
      ((f.feedPieces ps).1 ++ ((f.feedPieces ps).2.feedPieces qs).1,
        ((f.feedPieces ps).2.feedPieces qs).2) := by
  induction ps generalizing f with
  | nil => rfl
  | cons p ps ih =>
    rw [List.cons_append, feedPieces, feedPieces, ih]
    dsimp only
    rw [List.append_assoc]

/-- The outputs are those of the pieces of all chunks. -/
theorem outputs_eq_feedPieces (f : CargoFrameClip) (chunks : List Bytes) :
    f.outputs chunks = (f.feedPieces (chunks.flatMap splitTerminators)).1 ++
      (f.feedPieces (chunks.flatMap splitTerminators)).2.flush := by
  induction chunks generalizing f with
  | nil => rfl
  | cons c cs ih =>
    rw [outputs, ih, List.flatMap_cons, feedPieces_append, List.append_assoc]
    rfl

theorem release_fst (f : CargoFrameClip) (frame : Bool) :
    (f.release frame).1 = erasing f.frameShown f.line ++
      (if frame then clipVisible f.line (max 1 (f.cols - 1)) else f.line) := by
  rw [release, erasing]
  dsimp only
  by_cases h : (f.frameShown && !eraseLine.isPrefixOf f.line) = true
  · rw [if_pos h, if_pos h]
  · rw [if_neg h, if_neg h]
    rfl

/-- Where the filter stands in a line: `p` is there of it and `e` was forwarded. Either the start is
held, or it was let through from a start on that was refused. -/
inductive Within (f : CargoFrameClip) (shown : Bool) (p e : Bytes) : Prop
  | held (holding : f.holding = true) (line : f.line = p) (frameShown : f.frameShown = shown)
      (out : e = [])
  | released (holding : f.holding = false) (line : f.line = []) (out : e = erasing shown p ++ p)
      (refused : Refused p)

theorem Refused.mono {q : Bytes} (h : Refused p) (hq : p <+: q) : Refused q := by
  obtain ⟨r, hr, hframe⟩ := h
  exact ⟨r, hr.trans hq, hframe⟩

/-- Behind a refused start nothing more is known about an erase. -/
theorem Refused.erasing_append (h : Refused p) (shown : Bool) (x : Bytes) :
    erasing shown (p ++ x) = erasing shown p := by
  obtain ⟨q, hq, hframe, hcould⟩ := h
  refine erasing_eq shown ?_
  rw [eraseLine_prefix_iff hframe hcould (hq.trans (List.prefix_append p x)),
    eraseLine_prefix_iff hframe hcould hq]

/-- A filter that stands at the start of a line. -/
def fresh (cols : ℕ) (shown : Bool) : CargoFrameClip := { cols, frameShown := shown }

theorem within_fresh (cols : ℕ) (shown : Bool) : Within (fresh cols shown) shown [] [] :=
  .held rfl rfl rfl rfl

theorem not_terminator_piece (hx : Plain x) : ¬(x = [carriageReturn] ∨ x = [newline]) := by
  rintro (rfl | rfl)
  · exact Bool.noConfusion (hx carriageReturn List.mem_cons_self)
  · exact Bool.noConfusion (hx newline List.mem_cons_self)

/-- A piece of a line is held with the rest of it, let through with the rest of it, or let through. -/
theorem Within.feed_plain (h : Within f shown p e) (hx : Plain x)
    (hfit : isFrame (p ++ x) = true → (p ++ x).length ≤ cargoFrameMax) :
    Within (f.feedPiece x).2 shown (p ++ x) (e ++ (f.feedPiece x).1) ∧
      (f.feedPiece x).2.cols = f.cols := by
  rw [feedPiece, if_neg (not_terminator_piece hx)]
  by_cases hnil : x = []
  · rw [if_pos hnil, hnil, List.append_nil, List.append_nil]
    exact ⟨h, rfl⟩
  rw [if_neg hnil]
  cases h with
  | held holding line frameShown out =>
    rw [holding, line, out]
    dsimp only
    rw [Bool.not_true, if_neg Bool.false_ne_true, List.nil_append]
    have hheld : Within { cols := f.cols, line := p ++ x, frameShown := f.frameShown } shown (p ++ x) [] :=
      .held rfl rfl frameShown rfl
    by_cases hframe : isFrame (p ++ x) = true
    · rw [if_pos hframe, if_neg (Nat.not_lt_of_le (hfit hframe))]
      exact ⟨hheld, rfl⟩
    rw [if_neg hframe]
    cases hcould : couldBeFrame (p ++ x) with
    | true =>
      rw [Bool.not_true, if_neg Bool.false_ne_true]
      exact ⟨hheld, rfl⟩
    | false =>
      rw [Bool.not_false, if_pos rfl]
      refine ⟨.released rfl rfl ?_ ⟨p ++ x, List.prefix_refl _, Bool.eq_false_iff.mpr hframe, hcould⟩, rfl⟩
      rw [release_fst, if_neg Bool.false_ne_true, frameShown]
  | released holding line out refused =>
    rw [holding, Bool.not_false, if_pos rfl]
    refine ⟨.released holding line ?_ (refused.mono (List.prefix_append p x)), rfl⟩
    rw [out, refused.erasing_append, List.append_assoc]

theorem terminator_piece (ht : isTerminator t = true) : [t] = [carriageReturn] ∨ [t] = [newline] := by
  rw [isTerminator, Bool.or_eq_true, beq_iff_eq, beq_iff_eq] at ht
  rcases ht with rfl | rfl
  · exact .inl rfl
  · exact .inr rfl

/-- A terminator ends a line that is held: it is forwarded as a whole, cut where it is a frame. -/
theorem feed_terminator_held (ht : isTerminator t = true) (holding : f.holding = true) :
    f.feedPiece [t] = (erasing f.frameShown f.line ++ (clipped (max 1 (f.cols - 1)) f.line ++ [t]),
      fresh f.cols (isFrame f.line && t == carriageReturn)) := by
  have hbeq : ([t] == [carriageReturn]) = (t == carriageReturn) := Bool.and_true _
  rw [feedPiece, if_pos (terminator_piece ht), hbeq, holding]
  dsimp only
  rw [Bool.true_and, if_pos rfl, release_fst, List.append_assoc]
  rfl

/-- A terminator ends a line that was let through. -/
theorem feed_terminator_released (ht : isTerminator t = true) (holding : f.holding = false) :
    f.feedPiece [t] = ([t], fresh f.cols false) := by
  rw [feedPiece, if_pos (terminator_piece ht), holding]
  dsimp only
  rw [Bool.false_and, if_neg Bool.false_ne_true]
  rfl

/-! ## Whole streams -/

theorem rendered_plain (width : ℕ) (shown : Bool) (hp : Plain p) :
    rendered width shown (rows p).1 (rows p).2 = erasing shown p ++ p := by
  rw [rows_plain hp]
  rfl

theorem rendered_cons (width : ℕ) (shown : Bool) (line : Bytes) (t : UInt8)
    (rs : List (Bytes × UInt8)) (rest : Bytes) : rendered width shown ((line, t) :: rs) rest =
      erasing shown line ++ (clipped width line ++ t ::
        rendered width (isFrame line && t == carriageReturn) rs rest) := by
  rw [rendered, rendered, renderRows]
  dsimp only
  simp only [List.append_assoc, List.cons_append]

theorem erasing_false (line : Bytes) : erasing false line = [] := rfl

/-- A frame shown before is an erase before the first line. -/
theorem rendered_true (width : ℕ) (rs : List (Bytes × UInt8)) (rest : Bytes) :
    rendered width true rs rest = erasing true (nextLine rs rest) ++ rendered width false rs rest := by
  cases rs with
  | nil => rfl
  | cons r rs =>
    rw [rendered_cons, rendered_cons]
    rfl

theorem erasing_true_eq_nil_iff {line : Bytes} : erasing true line = [] ↔ eraseLine <+: line := by
  rw [erasing, Bool.true_and, ← List.isPrefixOf_iff_prefix]
  cases eraseLine.isPrefixOf line with
  | false => exact iff_of_false (List.cons_ne_nil _ _) Bool.false_ne_true
  | true => exact iff_of_true rfl rfl

/-- What a refused frame must be so that nothing is seen of it. -/
def Harmless (width : ℕ) (rs : List (Bytes × UInt8)) (rest : Bytes) : Prop :=
  ∀ before line t after, rs = before ++ (line, t) :: after → isFrame line = true → Refused line →
    clipVisible line width = line ∧ (t = carriageReturn → eraseLine <+: nextLine after rest)

theorem Harmless.tail {width : ℕ} {r : Bytes × UInt8} {rs : List (Bytes × UInt8)} {rest : Bytes}
    (h : Harmless width (r :: rs) rest) : Harmless width rs rest :=
  fun before line t after hrs => h (r :: before) line t after (congrArg (r :: ·) hrs)

theorem not_split_iff {width : ℕ} {s : Bytes} :
    ¬Split width s ↔ Harmless width (rows s).1 (rows s).2 := by
  constructor
  · intro h before line t after hrows hframe hrefused
    by_contra hnot
    refine h ⟨before, line, t, after, hrows, hframe, hrefused, ?_⟩
    by_cases hclip : clipVisible line width = line
    · refine .inr ?_
      rw [not_and, Classical.not_imp] at hnot
      exact hnot hclip
    · exact .inl hclip
  · rintro h ⟨before, line, t, after, hrows, hframe, hrefused, hclip | ⟨ht, hnext⟩⟩
    · exact hclip (h before line t after hrows hframe hrefused).1
    · exact hnext ((h before line t after hrows hframe hrefused).2 ht)

/-- What a filter gives from a place in a line on is what the lines give, up to frames that were let
through and look the same. -/
theorem Within.rendered (h : Within f shown p e) (hp : Plain p) (hpieces : ∀ x ∈ pieces, IsPiece x)
    (hfit : FramesFit (p ++ pieces.flatten))
    (hgood : Harmless (max 1 (f.cols - 1)) (rows (p ++ pieces.flatten)).1
      (rows (p ++ pieces.flatten)).2) :
    e ++ ((f.feedPieces pieces).1 ++ (f.feedPieces pieces).2.flush) =
      CargoFrameClip.rendered (max 1 (f.cols - 1)) shown (rows (p ++ pieces.flatten)).1
        (rows (p ++ pieces.flatten)).2 := by
  induction pieces generalizing f shown p e with
  | nil =>
    rw [List.flatten_nil, List.append_nil, rendered_plain _ _ hp, feedPieces, List.nil_append, flush]
    dsimp only
    cases h with
    | held holding line frameShown out =>
      rw [if_pos holding, out, List.nil_append, release_fst, line, frameShown,
        if_neg Bool.false_ne_true]
    | released holding line out refused =>
      rw [holding, if_neg Bool.false_ne_true, out, List.append_nil]
  | cons x pieces ih =>
    obtain ⟨hx, hrest⟩ := List.forall_mem_cons.mp hpieces
    rw [feedPieces]
    dsimp only
    rw [List.append_assoc, ← List.append_assoc e]
    rcases hx with hx | ⟨t, ht, rfl⟩
    · have hflat : p ++ (x :: pieces).flatten = p ++ x ++ pieces.flatten := by
        rw [List.flatten_cons, List.append_assoc]
      rw [hflat] at hfit hgood ⊢
      have hpx : Plain (p ++ x) := List.forall_mem_append.mpr ⟨hp, hx⟩
      obtain ⟨line, ls, hlines, hpre⟩ := exists_line hpx pieces.flatten
      have hlen := hfit line (hlines ▸ List.mem_cons_self) (p ++ x) hpre
      obtain ⟨hnext, hcols⟩ := h.feed_plain hx hlen
      rw [← hcols] at hgood
      rw [ih hnext hpx hrest hfit hgood, hcols]
    · have hflat : p ++ ([t] :: pieces).flatten = p ++ t :: pieces.flatten := rfl
      have hrows := rows_append_terminator hp ht pieces.flatten
      rw [hflat] at hfit hgood ⊢
      rw [FramesFit, lines, hrows] at hfit
      rw [hrows] at hgood ⊢
      rw [rendered_cons]
      have htail := fun shown' => ih (within_fresh f.cols shown')
        (fun _ hb => absurd hb List.not_mem_nil) hrest
        (fun line hline => hfit line (List.mem_cons_of_mem p hline)) hgood.tail
      simp only [List.nil_append] at htail
      cases h with
      | held holding line frameShown out =>
        rw [feed_terminator_held ht holding, line, frameShown, out, List.nil_append, List.append_assoc,
          List.append_assoc, htail]
        rfl
      | released holding line out refused =>
        rw [feed_terminator_released ht holding, out, htail, List.append_assoc, List.append_assoc]
        by_cases hframe : isFrame p = true
        · obtain ⟨hclip, herase⟩ := hgood [] p t _ rfl hframe refused
          rw [clipped, if_pos hframe, hclip, hframe, Bool.true_and]
          cases hcr : t == carriageReturn with
          | false => rfl
          | true =>
            rw [rendered_true, erasing_true_eq_nil_iff.mpr (herase (eq_of_beq hcr))]
            rfl
        · rw [clipped, if_neg hframe, Bool.eq_false_iff.mpr hframe, Bool.false_and]
          rfl

/-! ## A stream that comes whole, and one that is cut -/

theorem feedPiece_plain (cols : ℕ) (shown : Bool) (hx : Plain x) (hnil : x ≠ []) :
    (fresh cols shown).feedPiece x =
      if isFrame x then
        if cargoFrameMax < x.length then release { fresh cols shown with line := x } false
        else ([], { fresh cols shown with line := x })
      else if !couldBeFrame x then release { fresh cols shown with line := x } false
      else ([], { fresh cols shown with line := x }) := by
  rw [feedPiece, if_neg (not_terminator_piece hx), if_neg hnil]
  rfl

/-- A frame that comes whole is held. -/
theorem feed_frame (cols : ℕ) (shown : Bool) (hx : Plain x) (hframe : isFrame x = true)
    (hlen : x.length ≤ cargoFrameMax) :
    (fresh cols shown).feedPiece x = ([], { fresh cols shown with line := x }) := by
  have hnil : x ≠ [] := by
    rintro rfl
    exact absurd hframe (by decide)
  rw [feedPiece_plain cols shown hx hnil, if_pos hframe, if_neg (Nat.not_lt_of_le hlen)]

/-- A start that is refused is let through. -/
theorem feed_refused (cols : ℕ) (shown : Bool) (hx : Plain x) (hframe : isFrame x = false)
    (hcould : couldBeFrame x = false) : (fresh cols shown).feedPiece x =
      (erasing shown x ++ x, { fresh cols false with holding := false }) := by
  have hnil : x ≠ [] := by
    rintro rfl
    exact absurd hcould (by decide)
  rw [feedPiece_plain cols shown hx hnil, hframe, hcould, if_neg Bool.false_ne_true, Bool.not_false,
    if_pos rfl]
  exact Prod.ext (release_fst _ false) rfl

theorem feed_released (holding : f.holding = false) (hx : Plain x) : f.feedPiece x = (x, f) := by
  rw [feedPiece, if_neg (not_terminator_piece hx), holding, Bool.not_false, if_pos rfl]
  by_cases hnil : x = []
  · rw [if_pos hnil, hnil]
  · rw [if_neg hnil]

/-- A frame that is cut behind a refused start is let through. -/
theorem feed_split (cols : ℕ) (shown : Bool) {q : Bytes} (hq : Plain q) (hframe : isFrame q = false)
    (hcould : couldBeFrame q = false) (hx : Plain x) (ht : isTerminator t = true) (ps : List Bytes) :
    (fresh cols shown).feedPieces (q :: x :: [t] :: ps) =
      (erasing shown q ++ (q ++ (x ++ t :: ((fresh cols false).feedPieces ps).1)),
        ((fresh cols false).feedPieces ps).2) := by
  rw [feedPieces, feed_refused cols shown hq hframe hcould, feedPieces]
  dsimp only
  rw [feed_released rfl hx, feedPieces]
  dsimp only
  rw [feed_terminator_released ht rfl, List.append_assoc]
  rfl

/-- A line that comes whole is forwarded cut where it is a frame, refused or not. -/
theorem feed_row (cols : ℕ) (shown : Bool) (hx : Plain x) (ht : isTerminator t = true)
    (hlen : isFrame x = true → x.length ≤ cargoFrameMax) : (fresh cols shown).feedPieces [x, [t]] =
      (erasing shown x ++ (clipped (max 1 (cols - 1)) x ++ [t]),
        fresh cols (isFrame x && t == carriageReturn)) := by
  rw [feedPieces, feedPieces, feedPieces]
  dsimp only
  rw [List.append_nil]
  by_cases hframe : isFrame x = true
  · rw [feed_frame cols shown hx hframe (hlen hframe)]
    dsimp only
    rw [feed_terminator_held ht rfl, List.nil_append]
    rfl
  · obtain ⟨hwithin, hcols⟩ := (within_fresh cols shown).feed_plain hx hlen
    rw [List.nil_append] at hwithin
    cases hwithin with
    | held holding line frameShown out =>
      rw [List.nil_append] at out
      rw [feed_terminator_held ht holding, hcols, line, frameShown, out, List.nil_append]
      rfl
    | released holding line out refused =>
      rw [List.nil_append] at out
      rw [feed_terminator_released ht holding, hcols, out, clipped, if_neg hframe,
        Bool.eq_false_iff.mpr hframe, List.append_assoc]
      rfl

theorem feed_rows (cols : ℕ) (shown : Bool) (rs : List (Bytes × UInt8))
    (hrs : ∀ r ∈ rs, Plain r.1 ∧ isTerminator r.2 = true)
    (hlen : ∀ r ∈ rs, isFrame r.1 = true → r.1.length ≤ cargoFrameMax) :
    (fresh cols shown).feedPieces (rowPieces rs) =
      ((renderRows (max 1 (cols - 1)) shown rs).1, fresh cols (renderRows (max 1 (cols - 1)) shown rs).2) := by
  induction rs generalizing shown with
  | nil => rfl
  | cons r rs ih =>
    obtain ⟨hr, hrs⟩ := List.forall_mem_cons.mp hrs
    obtain ⟨hlenr, hlen⟩ := List.forall_mem_cons.mp hlen
    have hpieces : rowPieces (r :: rs) = [r.1, [r.2]] ++ rowPieces rs := rowPieces_cons r rs
    rw [hpieces, feedPieces_append, feed_row cols shown hr.1 hr.2 hlenr]
    dsimp only
    rw [ih _ hrs hlen, renderRows]
    dsimp only
    simp only [List.append_assoc, List.cons_append, List.nil_append]

/-- A last line that is not ended is forwarded as it is. -/
theorem feed_rest (cols : ℕ) (shown : Bool) (hx : Plain x)
    (hlen : isFrame x = true → x.length ≤ cargoFrameMax) :
    ((fresh cols shown).feedPieces [x]).1 ++ ((fresh cols shown).feedPieces [x]).2.flush =
      erasing shown x ++ x := by
  obtain ⟨hwithin, hcols⟩ := (within_fresh cols shown).feed_plain hx hlen
  rw [List.nil_append, List.nil_append] at hwithin
  rw [feedPieces, feedPieces, List.append_nil]
  dsimp only
  rw [flush]
  cases hwithin with
  | held holding line frameShown out =>
    rw [if_pos holding, out, List.nil_append, release_fst, line, frameShown, if_neg Bool.false_ne_true]
  | released holding line out refused =>
    rw [holding, if_neg Bool.false_ne_true, out, List.append_nil]

/-- Lines that come whole, behind a place where a line begins, are rendered. -/
theorem feed_whole (cols : ℕ) (shown : Bool) (rs : List (Bytes × UInt8)) (hx : Plain x)
    (hrs : ∀ r ∈ rs, Plain r.1 ∧ isTerminator r.2 = true)
    (hlen : ∀ r ∈ rs, isFrame r.1 = true → r.1.length ≤ cargoFrameMax)
    (hlenx : isFrame x = true → x.length ≤ cargoFrameMax) :
    ((fresh cols shown).feedPieces (rowPieces rs ++ [x])).1 ++
        ((fresh cols shown).feedPieces (rowPieces rs ++ [x])).2.flush =
      CargoFrameClip.rendered (max 1 (cols - 1)) shown rs x := by
  rw [feedPieces_append, feed_rows cols shown rs hrs hlen]
  dsimp only
  rw [List.append_assoc, feed_rest cols _ hx hlenx]
  rfl

end Feed

/-! ## Cut lines -/

section Clip

variable {c : Char} {width seen : ℕ} {out out' plain s : Text} {ms : List (Text × Text)}

theorem mem_clipFrom (hout : ∀ c ∈ out, c ∈ s) (hms : ∀ p ∈ ms, (∀ c ∈ p.1, c ∈ s) ∧ ∀ c ∈ p.2, c ∈ s)
    (hplain : ∀ c ∈ plain, c ∈ s) (h : clipFrom width out seen ms plain = some out') (hc : c ∈ out') :
    c ∈ s ∨ c ∈ reset := by
  have cut : ∀ {out plain : Text} {k : ℕ}, (∀ c ∈ out, c ∈ s) → (∀ c ∈ plain, c ∈ s) →
      c ∈ out ++ plain.take k ++ reset → c ∈ s ∨ c ∈ reset := by
    intro out plain k hout hplain hc
    rcases List.mem_append.mp hc with hc | hc
    · rcases List.mem_append.mp hc with hc | hc
      · exact .inl (hout c hc)
      · exact .inl (hplain c (List.mem_of_mem_take hc))
    · exact .inr hc
  induction ms generalizing out seen with
  | nil =>
    rw [clipFrom] at h
    split_ifs at h
    exact cut hout hplain (Option.some.inj h ▸ hc)
  | cons m ms ih =>
    obtain ⟨⟨hm₁, hm₂⟩, hms⟩ := List.forall_mem_cons.mp hms
    rw [clipFrom] at h
    split_ifs at h
    · exact cut hout hm₁ (Option.some.inj h ▸ hc)
    · refine ih ?_ hms h
      exact List.forall_mem_append.mpr ⟨hout, List.forall_mem_append.mpr ⟨hm₁, hm₂⟩⟩

theorem toNat_ofNat_byte (b : UInt8) : (Char.ofNat b.toNat).toNat = b.toNat := by
  have hlt := b.toNat_lt
  have hvalid : b.toNat.isValidChar := by
    rw [Nat.isValidChar]
    omega
  rw [Char.ofNat, dif_pos hvalid]
  rfl

/-- A cut line has no terminators either. -/
theorem plain_clipVisible {seg : Bytes} (hseg : Plain seg) (width : ℕ) : Plain (clipVisible seg width) := by
  intro b hb
  rw [clipVisible] at hb
  obtain ⟨hms, hrest⟩ := @mem_of_mem_piecesFrom _ ansiEscape 0 (decode seg)
  cases hclip : clipFrom width [] 0 (pieces ansiEscape (decode seg)).1 (pieces ansiEscape (decode seg)).2 with
  | none =>
    rw [hclip] at hb
    exact hseg b hb
  | some out =>
    rw [hclip] at hb
    rw [Bool.eq_false_iff]
    intro ht
    have hnat : b.toNat = 0x0d ∨ b.toNat = 0x0a := by
      rw [isTerminator, Bool.or_eq_true, beq_iff_eq, beq_iff_eq] at ht
      rcases ht with rfl | rfl
      · exact .inl rfl
      · exact .inr rfl
    obtain ⟨c, hc, hcb⟩ := mem_encode hb (by omega)
    rcases mem_clipFrom (fun _ h => absurd h List.not_mem_nil) hms hrest hclip hc with hmem | hmem
    · rcases mem_decode hmem with hwide | ⟨b', hb', rfl⟩
      · rw [Wide] at hwide
        omega
      · rw [toNat_ofNat_byte, UInt8.toNat_inj] at hcb
        rw [← hcb, hseg b' hb'] at ht
        exact Bool.false_ne_true ht
    · rw [← hcb] at hnat
      simp only [reset, List.mem_cons, List.not_mem_nil, or_false] at hmem
      rcases hmem with rfl | rfl | rfl | rfl
      all_goals exact absurd hnat (by decide)

end Clip

/-! ## Every way of cutting a stream -/

section Streams

variable {cols width : ℕ} {s rest : Bytes} {rs : List (Bytes × UInt8)} {shown shown' : Bool}

/-- Rendered lines are passed on, but for frames. -/
theorem passed_rendered (h : shown' = true → shown = true) (rs : List (Bytes × UInt8)) (rest : Bytes) :
    Passed shown rs rest (rendered width shown' rs rest) := by
  have herase : ∀ {shown shown' : Bool} {line : Bytes}, (shown' = true → shown = true) →
      ((shown' && !eraseLine.isPrefixOf line) = true → shown = true) := by
    intro shown shown' line h he
    rw [Bool.and_eq_true] at he
    exact h he.1
  induction rs generalizing shown shown' with
  | nil => exact .last (herase h)
  | cons r rs ih =>
    obtain ⟨line, t⟩ := r
    rw [rendered_cons]
    refine .row (herase h) (fun hframe => ?_) (ih fun hshown => ?_)
    · rw [clipped, hframe, if_neg Bool.false_ne_true]
    · rw [Bool.and_eq_true] at hshown
      exact hshown.1

theorem row_fits (hfit : FramesFit s) : ∀ r ∈ (rows s).1, isFrame r.1 = true → r.1.length ≤ cargoFrameMax :=
  fun r hr => hfit r.1 (List.mem_append_left _ (List.mem_map_of_mem hr)) r.1 (List.prefix_refl _)

theorem rest_fits (hfit : FramesFit s) : isFrame (rows s).2 = true → (rows s).2.length ≤ cargoFrameMax :=
  hfit _ (List.mem_append_right _ List.mem_cons_self) _ (List.prefix_refl _)

/-- A stream that comes whole is rendered. -/
theorem outputs_singleton (cols : ℕ) (hfit : FramesFit s) :
    outputs { cols } [s] = rendered (max 1 (cols - 1)) false (rows s).1 (rows s).2 := by
  obtain ⟨-, hrest, hrows⟩ := rows_spec s
  rw [outputs_eq_feedPieces, List.flatMap_singleton, splitTerminators_eq]
  exact feed_whole cols false _ hrest hrows (row_fits hfit) (rest_fits hfit)

/-- Without a refused frame that shows, every way of cutting the stream renders it. -/
theorem outputs_of_harmless (hfit : FramesFit s)
    (h : Harmless (max 1 (cols - 1)) (rows s).1 (rows s).2) {chunks : List Bytes}
    (hchunks : chunks.flatten = s) :
    outputs { cols } chunks = rendered (max 1 (cols - 1)) false (rows s).1 (rows s).2 := by
  have hflat : (chunks.flatMap splitTerminators).flatten = s := by
    rw [← hchunks]
    clear hchunks
    induction chunks with
    | nil => rfl
    | cons c cs ih => rw [List.flatMap_cons, List.flatten_append, ih, flatten_splitTerminators, List.flatten_cons]
  have hpieces : ∀ x ∈ chunks.flatMap splitTerminators, IsPiece x := by
    intro x hx
    obtain ⟨c, -, hc⟩ := List.mem_flatMap.mp hx
    exact isPiece_of_mem hc
  have hrendered := (within_fresh cols false).rendered (fun _ hb => absurd hb List.not_mem_nil) hpieces
    (hflat.symm ▸ hfit) (hflat.symm ▸ h)
  rw [List.nil_append, List.nil_append, hflat] at hrendered
  rw [outputs_eq_feedPieces]
  exact hrendered

theorem eq_of_append_terminator {p q a b : Bytes} {t : UInt8} (hp : Plain p) (hq : Plain q)
    (ht : isTerminator t = true) (h : p ++ t :: a = q ++ t :: b) : p = q ∧ a = b := by
  have hrows := congrArg rows h
  rw [rows_append_terminator hp ht, rows_append_terminator hq ht] at hrows
  obtain rfl : p = q := congrArg Prod.fst (List.cons.inj (congrArg Prod.fst hrows)).1
  exact ⟨rfl, (List.cons.inj (List.append_cancel_left h)).2⟩

theorem renderRows_append (width : ℕ) (shown : Bool) (rs rs' : List (Bytes × UInt8)) (rest : Bytes) :
    rendered width shown (rs ++ rs') rest =
      (renderRows width shown rs).1 ++ rendered width (renderRows width shown rs).2 rs' rest := by
  induction rs generalizing shown with
  | nil => rfl
  | cons r rs ih =>
    rw [List.cons_append, rendered_cons, ih, renderRows]
    dsimp only
    simp only [List.append_assoc, List.cons_append]

/-- A cut into a frame behind a refused start lets the frame through. -/
theorem exists_outputs_split (cols : ℕ) (hfit : FramesFit s) {before after : List (Bytes × UInt8)}
    {line : Bytes} {t : UInt8} (hrows : (rows s).1 = before ++ (line, t) :: after)
    (hrefused : Refused line) : ∃ chunks : List Bytes, chunks.flatten = s ∧
      outputs { cols } chunks = (renderRows (max 1 (cols - 1)) false before).1 ++
        (erasing (renderRows (max 1 (cols - 1)) false before).2 line ++
          (line ++ t :: rendered (max 1 (cols - 1)) false after (rows s).2)) := by
  obtain ⟨hflat, hrest, hvalid⟩ := rows_spec s
  have hlen := row_fits hfit
  rw [hrows] at hflat hvalid hlen
  obtain ⟨hbefore, hline, hafter⟩ := (List.forall_mem_append.trans
    (and_congr_right fun _ => List.forall_mem_cons)).mp hvalid
  obtain ⟨hlenb, -, hlena⟩ := (List.forall_mem_append.trans
    (and_congr_right fun _ => List.forall_mem_cons)).mp hlen
  obtain ⟨q, ⟨x, rfl⟩, hframe, hcould⟩ := hrefused
  obtain ⟨hq, hx⟩ := List.forall_mem_append.mp hline.1
  have hterminator := hline.2
  refine ⟨[(rowPieces before).flatten ++ q, x ++ t :: ((rowPieces after).flatten ++ (rows s).2)], ?_, ?_⟩
  · refine Eq.trans ?_ hflat
    rw [rowPieces_append, rowPieces_cons]
    simp only [List.flatten_append, List.flatten_cons, List.flatten_nil, List.append_nil,
      List.append_assoc, List.cons_append, List.nil_append]
  · have hfirst : splitTerminators ((rowPieces before).flatten ++ q) = rowPieces before ++ [q] := by
      rw [splitTerminators_eq, rows_flatten before hbefore, rows_plain hq, List.append_nil]
    have hsecond : splitTerminators (x ++ t :: ((rowPieces after).flatten ++ (rows s).2)) =
        x :: [t] :: (rowPieces after ++ [(rows s).2]) := by
      rw [splitTerminators_eq, rows_append_terminator hx hterminator, rows_flatten after hafter,
        rows_plain hrest, List.append_nil]
      rfl
    rw [outputs_eq_feedPieces, List.flatMap_cons, List.flatMap_singleton, hfirst, hsecond,
      List.append_assoc, feedPieces_append]
    have hwhole := feed_whole cols false after hrest hafter hlena (rest_fits hfit)
    have herasing := erasing_eq (renderRows (max 1 (cols - 1)) false before).2
      (eraseLine_prefix_iff hframe hcould (List.prefix_append q x))
    have hrows := feed_rows cols false before hbefore hlenb
    rw [fresh] at hrows
    rw [hrows]
    dsimp only
    rw [List.singleton_append, feed_split cols _ hq hframe hcould hx hterminator]
    dsimp only
    rw [← hwhole, herasing]
    simp only [List.append_assoc, List.cons_append]

/-- **The frame clip gives the same for every way of cutting a stream, and passes on what is no frame,
exactly when no frame with a refused start shows.** -/
theorem steady_iff (cols : ℕ) (s : Bytes) (hfit : FramesFit s) :
    Steady cols s ↔ ¬Split (max 1 (cols - 1)) s := by
  constructor
  · rintro h ⟨before, line, t, after, hrows, hframe, hrefused, hshows⟩
    obtain ⟨-, -, hvalid⟩ := rows_spec s
    obtain ⟨hline, ht⟩ := hvalid (line, t) (hrows ▸ List.mem_append_right before List.mem_cons_self)
    obtain ⟨chunks, hchunks, houtputs⟩ := exists_outputs_split cols hfit hrows hrefused
    have heq := (h chunks hchunks).1
    rw [houtputs, outputs_singleton cols hfit, hrows, renderRows_append, rendered_cons,
      List.append_cancel_left_eq, List.append_cancel_left_eq, clipped, if_pos hframe, hframe,
      Bool.true_and] at heq
    obtain ⟨hclip, hrest⟩ := eq_of_append_terminator hline (plain_clipVisible hline _) ht heq
    rcases hshows with hne | ⟨rfl, hnext⟩
    · exact hne hclip.symm
    · -- the erase behind the frame is missing
      rw [beq_self_eq_true, rendered_true] at hrest
      have hnil := List.append_left_eq_self.mp hrest.symm
      exact hnext (erasing_true_eq_nil_iff.mp hnil)
  · intro h chunks hchunks
    rw [outputs_of_harmless hfit (not_split_iff.mp h) hchunks, outputs_singleton cols hfit]
    exact ⟨rfl, passed_rendered (fun h => h) _ _⟩

end Streams

end CargoFrameClip

end Sysforge.Terminal
