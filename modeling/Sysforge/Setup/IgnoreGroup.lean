import Mathlib.Data.List.TakeWhile
import Sysforge.Foundations.Replacing

/-!
# sf-build in pacman's IgnoreGroup

`_patch_conf_text` adds `sf-build` to the first active `IgnoreGroup` line of a `pacman.conf`, found
again as text, or adds a line to `[options]`; `drop_ignore_group` takes it out of every active line.
`Reversible` says that the addition is one line of `[options]` that the removal takes back, and
`Restorable` when it is. A match of `IGNOREGROUP_RE` is one line of the text.
-/

namespace Sysforge.Setup

open Text

/-! ## The code -/

/-- `IGNORE_GROUP`. -/
def sfBuild : Text := ['s', 'f', '-', 'b', 'u', 'i', 'l', 'd']

/-- A small letter of a pattern takes a character, the case ignored. -/
def sameLetter (p c : Char) : Bool :=
  c = p || c.toNat + 32 = p.toNat || (p = 'i' && (c = 'İ' || c = 'ı')) || (p = 's' && c = 'ſ')

/-- What follows a word at the start of a text, the case ignored. -/
def dropWord : Text → Text → Option Text
  | [], s => some s
  | _ :: _, [] => none
  | p :: w, c :: s => if sameLetter p c then dropWord w s else none

/-- `[ \t]`. -/
def isBlank (c : Char) : Bool := c = ' ' || c = '\t'

/-- `IgnoreGroup`. -/
def ignoreGroupWord : Text := ['i', 'g', 'n', 'o', 'r', 'e', 'g', 'r', 'o', 'u', 'p']

/-- `options`. -/
def optionsWord : Text := ['o', 'p', 't', 'i', 'o', 'n', 's']

/-- `[ \t]*IgnoreGroup[ \t]*` -/
def isKey (t : Text) : Bool :=
  match dropWord ignoreGroupWord (t.dropWhile isBlank) with
  | some s => s.all isBlank
  | none => false

/-- The text behind the first `=`. -/
def afterEq (l : Text) : Text := (l.dropWhile fun c => c ≠ '=').tail

/-- `m.group(1)` for a match of `IGNOREGROUP_RE` at a line. Of a value of blanks alone the last one
is left to the group. -/
def valueOf (l : Text) : Option Text :=
  if isKey (l.takeWhile fun c => c ≠ '=') ∧ afterEq l ≠ [] then
    some (if (afterEq l).dropWhile isBlank ≠ [] then (afterEq l).dropWhile isBlank
      else (afterEq l).drop ((afterEq l).length - 1))
  else none

/-- No active line. -/
def isInactive (l : Text) : Bool := (valueOf l).isNone

/-- The groups of an active line. -/
def groupsOf (l : Text) : List Text := ((valueOf l).map words).getD []

/-- `has_ignore_group`. -/
def hasIgnoreGroup (conf : Text) : Bool := (split '\n' conf).any fun l => sfBuild ∈ groupsOf l

/-- The marker of a line that goes. -/
def marker : Char := '\x00'

/-- `_drop`, for a line. -/
def dropLine (l : Text) : Text :=
  match valueOf l with
  | none => l
  | some v =>
    let kept := (words v).filter fun g => g ≠ sfBuild
    if kept = [] then [marker] else replace v (unwords kept) l

/-- `re.sub(r"^\0\n?", "", text, flags=re.MULTILINE)`, at the start of a line or not. -/
def removeMarkers (start : Bool) : Text → Text
  | [] => []
  | [c] => if start = true ∧ c = marker then [] else [c]
  | c :: d :: s =>
    if start = true ∧ c = marker then
      if d = '\n' then removeMarkers true s else removeMarkers false (d :: s)
    else c :: removeMarkers (c = '\n') (d :: s)

/-- `drop_ignore_group`. -/
def dropIgnoreGroup (conf : Text) : Text :=
  removeMarkers true (joinLines ((split '\n' conf).map dropLine))

/-- A line ends here: a carriage return before a newline goes with it. -/
def endsLine (c : Char) (s : Text) : Bool :=
  isLineBreak c && !(c = '\r' && s.head? = some '\n')

/-- `s.splitlines(keepends=True)`, with the current line accumulated in reverse. -/
def splitKeepAux : Text → Text → List Text
  | [], acc => if acc = [] then [] else [acc.reverse]
  | c :: s, acc =>
    if endsLine c s then (acc.reverse ++ [c]) :: splitKeepAux s [] else splitKeepAux s (c :: acc)

/-- `conf_text.splitlines(keepends=True)`. -/
def splitKeep (conf : Text) : List Text := splitKeepAux conf []

/-- `re.match(r"^\[options\]", line.strip(), re.IGNORECASE)`. -/
def isOptionsLine (line : Text) : Bool :=
  match strip line with
  | '[' :: s => (dropWord optionsWord s).any fun rest => rest.head? = some ']'
  | _ => false

/-- `line.strip().startswith("[")`. -/
def startsSection (line : Text) : Bool := (strip line).head? = some '['

/-- The loop that finds `insert_after`, from line `i` on. -/
def insertLoop (i : ℕ) (inOptions : Bool) (insertAfter : Option ℕ) : List Text → Option ℕ
  | [] => insertAfter
  | line :: lines =>
    if isOptionsLine line then insertLoop (i + 1) true (some i) lines
    else if inOptions && startsSection line then insertAfter
    else if inOptions then insertLoop (i + 1) inOptions (some i) lines
    else insertLoop (i + 1) inOptions insertAfter lines

/-- `"IgnoreGroup = sf-build"`. -/
def groupLine : Text :=
  ['I', 'g', 'n', 'o', 'r', 'e', 'G', 'r', 'o', 'u', 'p', ' ', '=', ' '] ++ sfBuild

/-- `original.rstrip() + " sf-build"`. -/
def patchedLine (original : Text) : Text := rstrip original ++ ' ' :: sfBuild

/-- `_patch_conf_text`. -/
def patchConfText (conf : Text) : Text :=
  match (split '\n' conf).find? fun l => (valueOf l).isSome with
  | some original => replaceFirst original (patchedLine original) conf
  | none =>
    let lines := splitKeep conf
    match insertLoop 0 false none lines with
    | some insertAfter =>
      (lines.take (insertAfter + 1) ++
        (groupLine ++ ['\n']) :: lines.drop (insertAfter + 1)).flatten
    | none => conf.rdropWhile (fun c => c = '\n') ++ ['\n', '\n'] ++ groupLine ++ ['\n']

/-! ## The property -/

/-- pacman's `[options]`. -/
def optionsHeader : Text := ['[', 'o', 'p', 't', 'i', 'o', 'n', 's', ']']

/-- pacman takes the line for the header of a section. -/
def isHeader (l : Text) : Bool := (strip l).head? = some '[' && (strip l).getLast? = some ']'

/-- The section after some lines. -/
def sectionAfter (current : Text) : List Text → Text
  | [] => current
  | l :: ls => sectionAfter (if isHeader l then strip l else current) ls

/-- The lines with their sections. -/
def inSections (current : Text) : List Text → List (Text × Text)
  | [] => []
  | l :: ls =>
    let current := if isHeader l then strip l else current
    (current, l) :: inSections current ls

/-- The lines of a text with their sections. -/
def annotated (conf : Text) : List (Text × Text) := inSections [] (split '\n' conf)

/-- The patch edits or adds one active line of `[options]` with the group and keeps the other lines
in their sections; the removal restores the text but for blanks on that line. -/
def Reversible (conf : Text) : Prop :=
  let out := patchConfText conf
  let back := dropIgnoreGroup out
  ∃ before after new, sfBuild ∈ groupsOf new ∧
    ((∃ old old', annotated conf = before ++ (optionsHeader, old) :: after ∧
        annotated out = before ++ (optionsHeader, new) :: after ∧
        annotated back = before ++ (optionsHeader, old') :: after ∧ inked old' = inked old) ∨
      ∃ current line line', annotated conf = before ++ (current, line) :: after ∧
        annotated out = before ++ (optionsHeader, new) :: (current, line') :: after ∧
        annotated back = before ++ (current, line') :: after ∧
        (line' = line ∨ inked line = [] ∧ inked line' = []))

/-- The line goes on with `[options]`, as the code takes it. -/
def staysInOptions (l : Text) : Bool := isOptionsLine l || !startsSection l

/-- The lines that the code takes for the ones up to the end of `[options]`. -/
def throughOptions (lines : List Text) : List Text :=
  lines.takeWhile (fun l => !isOptionsLine l) ++
    (lines.dropWhile fun l => !isOptionsLine l).takeWhile staysInOptions

/-- pacman finds an options section. -/
def HasOptions (conf : Text) : Prop := ∃ l ∈ split '\n' conf, strip l = optionsHeader

/-- With an active line: the first one is in `[options]`, is no part of a line before and has a
group, and the groups of the later ones stand one blank apart behind their blanks. With none: the
lines through `[options]` end a line but for blanks, and pacman is in `[options]` there. -/
def RestorableLines (front before : List Text) : List Text → Prop
  | original :: after =>
    sectionAfter [] before = optionsHeader ∧ (∀ l ∈ before, ¬original <:+: l) ∧
      groupsOf original ≠ [] ∧ ∀ l ∈ after, ∀ v ∈ valueOf l, unwords (words v) = v
  | [] => (∀ l ∈ front.getLast?, ∀ c ∈ l, isBlank c = true) ∧ sectionAfter [] front = optionsHeader

/-- No line begins with the marker, and the first active line, or the place of the added one, is as
the patch needs it. -/
def Restorable (conf : Text) : Prop :=
  (∀ l ∈ split '\n' conf, l.head? ≠ some marker) ∧
    RestorableLines (split '\n' (throughOptions (splitKeep conf)).flatten)
      ((split '\n' conf).takeWhile isInactive) ((split '\n' conf).dropWhile isInactive)

instance (conf : Text) : Decidable (HasOptions conf) :=
  inferInstanceAs (Decidable (∃ l ∈ split '\n' conf, strip l = optionsHeader))

instance (front before : List Text) : ∀ ls, Decidable (RestorableLines front before ls)
  | _ :: _ => inferInstanceAs (Decidable (_ ∧ _ ∧ _ ∧ _))
  | [] => inferInstanceAs (Decidable (_ ∧ _))

instance (conf : Text) : Decidable (Restorable conf) := inferInstanceAs (Decidable (_ ∧ _))

end Sysforge.Setup
