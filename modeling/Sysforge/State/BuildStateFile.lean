import Sysforge.State.BuildState

/-!
# The build state file

`serialize` writes `build_state.toml` by hand, section by section, with two quoting helpers: one
for values (`tomlEscape`) and one for the names in headers (`escapeName`). `load` is the reader
behind `BuildState.__init__`, and `RoundTrips` says that it gives back what was written. The file
is the text of four blocks of sections (`serialize_eq`).
-/

namespace Sysforge.BuildState

open Toml

/-! ## Writing -/

/-- `_toml_escape`, on the text of the value. -/
def tomlEscape (s : Text) : Text :=
  .replaceChar '\r' ['\\', 'r'] <| .replaceChar '\n' ['\\', 'n'] <|
    .replaceChar '"' ['\\', '"'] <| .replaceChar '\\' ['\\', '\\'] s

/-- The escaping of a name in a header. -/
def escapeName (s : Text) : Text :=
  .replaceChar '"' ['\\', '"'] <| .replaceChar '\\' ['\\', '\\'] s

/-- `str(value)` of a field. -/
def Scalar.text : Scalar → Text
  | .str s => s.toList
  | .bool b => if b then "True".toList else "False".toList

/-- The line `key = "value"`. -/
def fieldLine (p : String × Scalar) : Text :=
  p.1.toList ++ " = \"".toList ++ tomlEscape p.2.text ++ ['"']

/-- A line of an install record: a boolean is written natively. -/
def entryLine (p : String × Scalar) : Text :=
  match p.2 with
  | .bool b => p.1.toList ++ " = ".toList ++ if b then "true".toList else "false".toList
  | .str _ => fieldLine p

/-- The lines of the install records. -/
def dataLines (s : BuildState) : List Text :=
  s.data.sorted.flatMap fun p =>
    ("[\"".toList ++ escapeName p.1.toList ++ "\"]".toList) :: p.2.items.map entryLine ++ [[]]

/-- The lines of a section `[space."name"]` per entry. -/
def spaceLines (space : String) (l : List (String × List (String × Scalar))) : List Text :=
  l.flatMap fun p =>
    ('[' :: space.toList ++ ".\"".toList ++ escapeName p.1.toList ++ "\"]".toList) ::
      p.2.map fieldLine ++ [[]]

/-- The lines of the failures. -/
def failuresLines (s : BuildState) : List Text :=
  if s.failures.items = [] then []
  else [("# Build failures and review refusals (kind = \"review\"); " ++
      "each clears on the next successful build.").toList, []] ++
    spaceLines "failures" (s.failures.sorted.map fun p => (p.1, p.2.items))

/-- The lines of the reverted builds. -/
def revertedLines (s : BuildState) : List Text :=
  if s.reverted.items = [] then []
  else ["# Builds whose install was refused, restored if the artifact installs.".toList, []] ++
    spaceLines "reverted" (s.reverted.sorted.map fun p => (p.1, p.2.items))

/-- The lines of the review baselines. -/
def reviewedLines (s : BuildState) : List Text :=
  if s.reviewed.items = [] then []
  else ["# PKGBUILD review baseline: the source HEAD last accepted, by pkgbase.".toList,
      "[reviewed]".toList] ++
    s.reviewed.sorted.map (fun p => ['"'] ++ escapeName p.1.toList ++ "\" = \"".toList ++
      tomlEscape p.2.toList ++ ['"']) ++ [[]]

/-- `_serialize`. -/
def serialize (s : BuildState) : Text :=
  Text.joinLines (["# SysForge build state".toList,
    "# Records per-package build metadata for use by sysforge update.".toList, []] ++
    s.dataLines ++ s.failuresLines ++ s.revertedLines ++ s.reviewedLines)

/-! ## Reading -/

/-- What `__init__` takes from the file, as the dictionaries read. -/
structure Loaded where
  data : Table
  failures : Table
  reverted : Table
  reviewed : Table

/-- `raw.pop(key, {})`, replaced by `{}` when it is not a dictionary. -/
def popTable (key : String) (raw : Table) : Table :=
  match raw.lookup key with
  | some (.table t) => t
  | _ => []

/-- The reserved top-level keys. -/
def reservedKeys : List String := ["failures", "reverted", "reviewed"]

/-- `__init__`: the reserved namespaces are split out of the install mirror. -/
def split (raw : Table) : Loaded where
  data := raw.filter fun p => p.1 ∉ reservedKeys
  failures := popTable "failures" raw
  reverted := popTable "reverted" raw
  reviewed := popTable "reviewed" raw

/-- `_load` and `__init__` on the text of the file. -/
def load (txt : Text) : Option Loaded := (loads txt).map split

/-! ## The round trip -/

/-- The TOML value of a field. -/
def Scalar.value : Scalar → Value
  | .str s => .str s
  | .bool b => .bool b

/-- Two dictionaries hold corresponding values under the same keys. -/
def SameDict {β γ : Type*} (same : β → γ → Prop) (t : List (String × β)) (l : List (String × γ)) :
    Prop := ∀ k, Option.Rel same (t.lookup k) (l.lookup k)

/-- A value read back is a dictionary with exactly these fields, types included. -/
def SameRecord (v : Value) (items : List (String × Scalar)) : Prop :=
  ∃ t, v = .table t ∧ SameDict (fun v x => v = x.value) t items

/-- The file a state is written to loads, and gives back exactly what the state holds. -/
def RoundTrips (s : BuildState) : Prop :=
  ∃ l, load s.serialize = some l ∧
    SameDict (fun v e => SameRecord v (Entry.items e)) l.data s.data.items ∧
    SameDict (fun v e => SameRecord v (Failure.items e)) l.failures s.failures.items ∧
    SameDict (fun v e => SameRecord v (Stash.items e)) l.reverted s.reverted.items ∧
    SameDict (fun v c => v = .str c) l.reviewed s.reviewed.items

/-! ## Texts the helpers encode -/

/-- A name the header encoding keeps: no control character but tab. -/
def NameOk (n : String) : Prop := ∀ c ∈ n.toList, isLegal c ∧ c ≠ '\n'

/-- A value the value encoding keeps: no control character but tab, newline and return. -/
def ValueOk (v : String) : Prop := ∀ c ∈ v.toList, isLegal c ∨ c = '\r'

instance (n : String) : Decidable (NameOk n) :=
  List.decidableBAll _ n.toList

instance (v : String) : Decidable (ValueOk v) :=
  List.decidableBAll _ v.toList

/-- What the header encoding makes of one character. -/
def nameChar (c : Char) : Text :=
  if c = '\\' then ['\\', '\\'] else if c = '"' then ['\\', '"'] else [c]

/-- What the value encoding makes of one character. -/
def valueChar (c : Char) : Text :=
  if c = '\\' then ['\\', '\\'] else if c = '"' then ['\\', '"']
  else if c = '\n' then ['\\', 'n'] else if c = '\r' then ['\\', 'r'] else [c]

theorem escapeName_eq (s : Text) : escapeName s = s.flatMap nameChar := by
  induction s with
  | nil => rfl
  | cons c s ih =>
    have hc : escapeName [c] = nameChar c := by
      unfold escapeName nameChar
      split_ifs <;> simp_all
    have happ : escapeName ([c] ++ s) = escapeName [c] ++ escapeName s := by simp [escapeName]
    rw [List.flatMap_cons, ← ih, ← hc, ← happ, List.singleton_append]

theorem tomlEscape_eq (s : Text) : tomlEscape s = s.flatMap valueChar := by
  induction s with
  | nil => rfl
  | cons c s ih =>
    have hc : tomlEscape [c] = valueChar c := by
      unfold tomlEscape valueChar
      split_ifs <;> simp_all
    have happ : tomlEscape ([c] ++ s) = tomlEscape [c] ++ tomlEscape s := by simp [tomlEscape]
    rw [List.flatMap_cons, ← ih, ← hc, ← happ, List.singleton_append]

theorem decodes_nameChar {c : Char} (h : isLegal c ∧ c ≠ '\n') : Decodes (nameChar c) c := by
  unfold nameChar
  split_ifs with hb hq
  · exact decodes_escape (by decide) (by decide) (by rw [hb]; decide)
  · exact decodes_escape (by decide) (by decide) (by rw [hq]; decide)
  · exact decodes_self hq h.2 hb

theorem legal_nameChar {c : Char} (h : isLegal c) : Legal (nameChar c) := by
  unfold nameChar
  split_ifs
  · exact .cons (by decide) (.cons (by decide) .nil)
  · exact .cons (by decide) (.cons (by decide) .nil)
  · exact .cons h .nil

theorem decodes_valueChar (c : Char) : Decodes (valueChar c) c := by
  unfold valueChar
  split_ifs with hb hq hn hr
  · exact decodes_escape (by decide) (by decide) (by rw [hb]; decide)
  · exact decodes_escape (by decide) (by decide) (by rw [hq]; decide)
  · exact decodes_escape (by decide) (by decide) (by rw [hn]; decide)
  · exact decodes_escape (by decide) (by decide) (by rw [hr]; decide)
  · exact decodes_self hq hn hb

theorem legal_valueChar {c : Char} (h : isLegal c ∨ c = '\r') : Legal (valueChar c) := by
  unfold valueChar
  split_ifs with hb hq hn hr
  all_goals first
    | exact .cons (by decide) (.cons (by decide) .nil)
    | exact .cons (h.resolve_right hr) .nil

theorem valueChar_head (c : Char) : ∃ x l, valueChar c = x :: l ∧ x ≠ '"' := by
  unfold valueChar
  split_ifs with hb hq
  all_goals first
    | exact ⟨_, _, rfl, by decide⟩
    | exact ⟨_, _, rfl, hq⟩

/-! ## The blocks of the file -/

/-- The header part of a name. -/
def namePart (n : String) : Text × String := (quoted nameChar n.toList, n)

theorem isKeyPart_name {n : String} (h : NameOk n) : IsKeyPart (namePart n).1 (namePart n).2 :=
  isKeyPart_quoted fun c hc => decodes_nameChar (h c hc)

theorem legal_name {n : String} (h : NameOk n) : Legal (namePart n).1 :=
  legal_quoted fun c hc => legal_nameChar (h c hc).1

/-- The text of a string value. -/
def strText (s : Text) : Text := quoted valueChar s

theorem isValue_str (s : String) : IsValue (strText s.toList) (.str s) := by
  have h : IsValue (quoted valueChar s.toList) (.str (String.ofList s.toList)) :=
    isValue_quoted (fun c _ => decodes_valueChar c) fun c _ => valueChar_head c
  rwa [String.ofList_toList] at h

theorem legal_str {s : String} (h : ValueOk s) : Legal (strText s.toList) :=
  legal_quoted fun c hc => legal_valueChar (h c hc)

/-- A field an install record writes. -/
def entryPair (p : String × Scalar) : PairText :=
  ⟨p.1.toList, match p.2 with | .bool b => boolText b | .str s => strText s.toList, p.1, p.2.value⟩

/-- A field every other section writes: always a string. -/
def strPair (p : String × Scalar) : PairText :=
  ⟨p.1.toList, strText p.2.text, p.1, .str (String.ofList p.2.text)⟩

theorem entryLine_eq (p : String × Scalar) :
    entryLine p = pairLine (entryPair p).key (entryPair p).value := by
  obtain ⟨k, b | b⟩ := p
  · simp [entryLine, entryPair, fieldLine, pairLine, Scalar.text, strText, quoted, tomlEscape_eq]
  · cases b <;> simp [entryLine, entryPair, pairLine, boolText]

theorem fieldLine_eq (p : String × Scalar) :
    fieldLine p = pairLine (strPair p).key (strPair p).value := by
  simp [strPair, fieldLine, pairLine, strText, quoted, tomlEscape_eq]

/-- The section of an install record. -/
def dataSection (p : String × Entry) : SectionText := ⟨[namePart p.1], p.2.items.map entryPair⟩

/-- A section `[space."name"]`. -/
def spaceSection (space : String) (p : String × List (String × Scalar)) : SectionText :=
  ⟨[(space.toList, space), namePart p.1], p.2.map strPair⟩

/-- The section of the review baselines. -/
def reviewedSection (s : BuildState) : SectionText :=
  ⟨[("reviewed".toList, "reviewed")],
    s.reviewed.sorted.map fun p => ⟨(namePart p.1).1, strText p.2.toList, p.1, .str p.2⟩⟩

/-- A commented block of sections, absent when there are none. -/
def optBlock (intro : List Text) (ss : List SectionText) : Block :=
  if ss = [] then ⟨[], []⟩ else ⟨intro, ss⟩

/-- The title and the install records. -/
def dataBlock (s : BuildState) : Block :=
  ⟨["# SysForge build state".toList,
      "# Records per-package build metadata for use by sysforge update.".toList, []],
    s.data.sorted.map dataSection⟩

/-- The failures. -/
def failuresBlock (s : BuildState) : Block :=
  optBlock [("# Build failures and review refusals (kind = \"review\"); " ++
      "each clears on the next successful build.").toList, []]
    (s.failures.sorted.map fun p => spaceSection "failures" (p.1, p.2.items))

/-- The reverted builds. -/
def revertedBlock (s : BuildState) : Block :=
  optBlock ["# Builds whose install was refused, restored if the artifact installs.".toList, []]
    (s.reverted.sorted.map fun p => spaceSection "reverted" (p.1, p.2.items))

/-- The review baselines. -/
def reviewedBlock (s : BuildState) : Block :=
  optBlock ["# PKGBUILD review baseline: the source HEAD last accepted, by pkgbase.".toList]
    (if s.reviewed.items = [] then [] else [reviewedSection s])

/-- The blocks of the file. -/
def blocks (s : BuildState) : List Block :=
  [s.dataBlock, s.failuresBlock, s.revertedBlock, s.reviewedBlock]

theorem dataSection_lines (p : String × Entry) : (dataSection p).lines =
    ("[\"".toList ++ escapeName p.1.toList ++ "\"]".toList) :: p.2.items.map entryLine ++ [[]] := by
  simp [SectionText.lines, dataSection, headerLine, namePart, quoted, escapeName_eq,
    entryLine_eq, Function.comp_def]

theorem spaceSection_lines (space : String) (p : String × List (String × Scalar)) :
    (spaceSection space p).lines =
      ('[' :: space.toList ++ ".\"".toList ++ escapeName p.1.toList ++ "\"]".toList) ::
        p.2.map fieldLine ++ [[]] := by
  simp [SectionText.lines, spaceSection, headerLine, namePart, quoted, escapeName_eq,
    fieldLine_eq, Function.comp_def]

theorem reviewedSection_lines (s : BuildState) : (reviewedSection s).lines =
    "[reviewed]".toList :: s.reviewed.sorted.map (fun p => ['"'] ++ escapeName p.1.toList ++
      "\" = \"".toList ++ tomlEscape p.2.toList ++ ['"']) ++ [[]] := by
  simp [SectionText.lines, reviewedSection, headerLine, namePart, quoted, escapeName_eq,
    tomlEscape_eq, strText, pairLine, Function.comp_def]

theorem optBlock_lines {α : Type*} (intro : List Text) (f : α → SectionText) (l : List α) :
    (optBlock intro (l.map f)).lines =
      if l = [] then [] else intro ++ l.flatMap fun a => (f a).lines := by
  unfold optBlock Block.lines
  split_ifs with h h' h'
  · rfl
  · exact absurd (List.map_eq_nil_iff.1 h) h'
  · exact absurd (List.map_eq_nil_iff.2 h') h
  · simp only [List.flatMap_map]

theorem failuresBlock_lines (s : BuildState) : s.failuresBlock.lines = s.failuresLines := by
  simp only [failuresBlock, failuresLines, optBlock_lines, Dict.sorted_eq_nil, spaceLines,
    List.flatMap_map, spaceSection_lines]

theorem revertedBlock_lines (s : BuildState) : s.revertedBlock.lines = s.revertedLines := by
  simp only [revertedBlock, revertedLines, optBlock_lines, Dict.sorted_eq_nil, spaceLines,
    List.flatMap_map, spaceSection_lines]

theorem reviewedBlock_lines (s : BuildState) : s.reviewedBlock.lines = s.reviewedLines := by
  unfold reviewedBlock reviewedLines
  split_ifs with h
  · rfl
  · simp [optBlock, Block.lines, reviewedSection_lines]

/-- The file is the text of its blocks. -/
theorem serialize_eq (s : BuildState) :
    s.serialize = Text.joinLines (s.blocks.flatMap Block.lines) := by
  have hd : s.dataBlock.lines = ["# SysForge build state".toList,
      "# Records per-package build metadata for use by sysforge update.".toList, []] ++
      s.dataLines := by
    simp only [dataBlock, Block.lines, dataLines, List.flatMap_map, dataSection_lines]
  simp only [serialize, blocks, List.flatMap_cons, List.flatMap_nil, List.append_nil,
    List.append_assoc, failuresBlock_lines, revertedBlock_lines, reviewedBlock_lines, hd]

end Sysforge.BuildState
