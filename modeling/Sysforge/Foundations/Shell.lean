import Sysforge.Foundations.Text

/-!
# Shell text

A text of the shell as the shell reads it: words of plain characters, escapes, quoted strings and
parameter expansions, the characters that break words, and comments. A `Script` carries the proof
that the shell reads it so. Command substitutions and here-documents are not part of it.
-/

namespace Sysforge.Shell

/-! ## Pieces -/

/-- A piece of a word, or a character that breaks words. -/
inductive Piece
  | char (c : Char)
  /-- a backslash and a character -/
  | escape (c : Char)
  /-- `'…'` -/
  | single (s : Text)
  /-- `$'…'` -/
  | ansi (ps : List Piece)
  /-- `"…"` -/
  | double (ps : List Piece)
  /-- `${…}` -/
  | param (ps : List Piece)

mutual

/-- How a piece is written. -/
def Piece.text : Piece → Text
  | .char c => [c]
  | .escape c => ['\\', c]
  | .single s => '\'' :: s ++ ['\'']
  | .ansi ps => '$' :: '\'' :: texts ps ++ ['\'']
  | .double ps => '"' :: texts ps ++ ['"']
  | .param ps => '$' :: '\x7b' :: texts ps ++ ['\x7d']

def texts : List Piece → Text
  | [] => []
  | p :: ps => p.text ++ texts ps

end

/-- Where a piece stands. -/
inductive Ctx
  | word
  | ansi
  | double
  /-- in a parameter expansion, which can be within double quotes -/
  | param (quoted : Bool)
  deriving DecidableEq

/-- The characters that do not stand for themselves. In a parameter expansion within double quotes
an apostrophe can be one, or open a quoted string. -/
def special : Ctx → List Char
  | .word => ['\'', '"', '\\', '\x60']
  | .ansi => ['\'', '\\']
  | .double => ['"', '\\', '\x60']
  | .param true => ['"', '\\', '\x60', '\x7d']
  | .param false => ['\'', '"', '\\', '\x60', '\x7d']

/-- Quoted strings are read there. -/
def Ctx.quotes : Ctx → Bool
  | .word => true
  | .param _ => true
  | _ => false

/-- Two characters that the shell reads as one operator. -/
def joins : Option Char → Char → Bool
  | some '$', c => c = '\x7b' || c = '('
  | some '<', c => c = '<'
  | _, _ => false

/-- The last character of a piece, when it stands for itself. -/
def Piece.plain : Piece → Option Char
  | .char c => some c
  | _ => none

mutual

/-- The shell reads the piece so, after the plain character `prev`. -/
def Piece.ok (ctx : Ctx) (prev : Option Char) : Piece → Bool
  | .char c => c ∉ special ctx && !joins prev c
  | .escape _ => true
  | .single s => ctx.quotes && prev ≠ some '$' && '\'' ∉ s
  | .ansi ps => ctx.quotes && oks .ansi none ps
  | .double ps => ctx.quotes && oks .double none ps
  | .param ps => ctx ≠ .ansi && oks (.param (ctx = .double || ctx = .param true)) none ps

def oks (ctx : Ctx) (prev : Option Char) : List Piece → Bool
  | [] => true
  | p :: ps => p.ok ctx prev && oks ctx p.plain ps

end

/-! ## Scripts -/

/-- A word begins after these. -/
def breaksWord (c : Char) : Bool :=
  c ∈ [' ', '\t', '\n', ';', '&', '|', '(', ')', '<', '>']

/-- A piece of the script, or a comment without its `#`. -/
inductive Item
  | piece (p : Piece)
  | comment (s : Text)

/-- A word begins after the piece, if one could before it. -/
def Piece.starts (start : Bool) : Piece → Bool
  | .char c => breaksWord c
  -- a line that is continued continues the word
  | .escape c => if c = '\n' then start else false
  | _ => false

/-- The line ends here. -/
def endsLine : List Item → Bool
  | [] => true
  | .piece (.char c) :: _ => c = '\n'
  | _ => false

/-- The shell reads the items so; a word can begin before them if `start`. -/
def itemsOk (start : Bool) (prev : Option Char) : List Item → Bool
  | [] => true
  | .piece p :: is =>
    -- at the start of a word it would be a comment
    p.ok .word prev && !(start && p.plain = some '#') && itemsOk (p.starts start) p.plain is
  | .comment s :: is => start && '\n' ∉ s && endsLine is && itemsOk false none is

/-- A text as the shell reads it. -/
structure Script where
  items : List Item
  ok : itemsOk true none items = true

/-- The characters of an item; those of a comment are marked. -/
def Item.marks : Item → List (Char × Bool)
  | .piece p => p.text.map fun c => (c, false)
  | .comment s => ('#' :: s).map fun c => (c, true)

/-- The characters of a script; those of comments are marked. -/
def Script.marks (d : Script) : List (Char × Bool) := d.items.flatMap Item.marks

/-- The script as it is written. -/
def Script.text (d : Script) : Text := d.marks.map Prod.fst

/-! ## Comments -/

/-- What can follow what: a comment begins with `#` where a word can begin, and goes on to the end
of its line. -/
def Follows (x y : Char × Bool) : Prop :=
  if y.2 then y.1 ≠ '\n' ∧ (x.2 = false → y.1 = '#' ∧ breaksWord x.1 = true)
  else x.2 = true → y.1 = '\n'

section Marks

variable {start : Bool} {prev : Option Char} {is : List Item} {p : Piece} {s : Text}
  {x : Char × Bool} {l : List (Char × Bool)}

theorem Piece.text_ne_nil (p : Piece) : p.text ≠ [] := by
  cases p <;> exact List.cons_ne_nil _ _

/-- Only a character that breaks words lets a word begin. -/
theorem Piece.breaksWord_getLast (h : p.starts start = true) :
    breaksWord (p.text.getLast p.text_ne_nil) = true := by
  cases p with
  | char c => exact h
  | escape c =>
    by_cases hc : c = '\n'
    · rw [hc]
      rfl
    · exact absurd ((if_neg hc).symm.trans h) Bool.false_ne_true
  | _ => cases h

/-- Characters outside comments follow each other, and a comment only where its line ends. -/
theorem isChain_unmarked (hs : s ≠ []) (hl : List.IsChain Follows ((s.getLast hs, false) :: l))
    (hx : x.2 = true → s.head? = some '\n') :
    List.IsChain Follows (x :: (s.map (fun c => (c, false)) ++ l)) := by
  induction s generalizing x with
  | nil => exact absurd rfl hs
  | cons c s ih =>
    rw [List.map_cons, List.cons_append]
    refine List.isChain_cons_cons.mpr ⟨?_, ?_⟩
    · exact fun hmark => Option.some.inj (hx hmark)
    · cases s with
      | nil => exact hl
      | cons d s => exact ih (List.cons_ne_nil d s) (by rwa [List.getLast_cons] at hl) nofun

/-- The characters of a comment follow each other. -/
theorem isChain_marked (hs : '\n' ∉ s) (hx : x.2 = true)
    (hl : ∀ y : Char × Bool, y.2 = true → List.IsChain Follows (y :: l)) :
    List.IsChain Follows (x :: (s.map (fun c => (c, true)) ++ l)) := by
  induction s generalizing x with
  | nil => exact hl x hx
  | cons c s ih =>
    rw [List.mem_cons, not_or] at hs
    refine List.isChain_cons_cons.mpr ⟨⟨Ne.symm hs.1, fun h => ?_⟩, ih hs.2 rfl⟩
    rw [hx] at h
    cases h

theorem head?_text_of_endsLine (h : endsLine (.piece p :: is) = true) :
    p.text.head? = some '\n' := by
  cases p with
  | char c => exact congrArg some (of_decide_eq_true h)
  | _ => cases h

theorem isChain_flatMap_marks (hok : itemsOk start prev is = true)
    (hstart : x.2 = false → start = true → breaksWord x.1 = true)
    (hend : x.2 = true → endsLine is = true) :
    List.IsChain Follows (x :: is.flatMap Item.marks) := by
  induction is generalizing start prev x with
  | nil => exact .singleton x
  | cons i is ih =>
    rw [List.flatMap_cons]
    cases i with
    | piece p =>
      rw [itemsOk, Bool.and_eq_true] at hok
      refine isChain_unmarked p.text_ne_nil (ih hok.2 (fun _ h => p.breaksWord_getLast h) nofun) ?_
      exact fun hx => head?_text_of_endsLine (hend hx)
    | comment s =>
      rw [itemsOk, Bool.and_eq_true, Bool.and_eq_true, Bool.and_eq_true, decide_eq_true_iff] at hok
      obtain ⟨⟨⟨hst, hs⟩, hline⟩, hrest⟩ := hok
      rw [Item.marks, List.map_cons, List.cons_append]
      refine List.isChain_cons_cons.mpr ⟨⟨?_, fun hx => ⟨rfl, hstart hx hst⟩⟩, ?_⟩
      · exact (by decide : ¬ '#' = '\n')
      · refine isChain_marked hs rfl fun y hy => ih hrest (fun h => ?_) fun _ => hline
        rw [hy] at h
        cases h

/-- **The characters of a script follow each other as the shell reads them.** -/
theorem Script.isChain_marks (d : Script) : List.IsChain Follows (('\n', false) :: d.marks) :=
  isChain_flatMap_marks d.ok (fun _ _ => rfl) nofun

end Marks

end Sysforge.Shell
