import Sysforge.State.PipelineState
import Sysforge.Toml.Nest
import Sysforge.Toml.Values

/-!
# The pipeline state file

`serialize` writes `pipeline_state.toml`: a header per stage, and below it the progress, the
errors and the result. Only error texts and string results are escaped; statuses, times and
package names are written as they are, package names of errors and keys of results as bare keys,
and a result that is no string by its `repr`. `RoundTrips` says that reading the file gives the
state back.
-/

namespace Sysforge.PipelineState

open Toml

/-! ## Writing -/

/-- `f"{n:04x}"`. -/
def hex4 (n : ℕ) : Text := List.leftpad 4 '0' (Nat.toDigits 16 n)

/-- What `_escape_toml_str` makes of a character it has not replaced yet. -/
def controlChar (c : Char) : Text :=
  if 0x20 ≤ c.toNat ∧ c.toNat ≠ 0x7f then [c] else '\\' :: 'u' :: hex4 c.toNat

/-- `_escape_toml_str`. -/
def escapeTomlStr (s : Text) : Text :=
  (Text.replaceChar '\t' ['\\', 't'] <| .replaceChar '\r' ['\\', 'r'] <|
    .replaceChar '\n' ['\\', 'n'] <| .replaceChar '"' ['\\', '"'] <|
      .replaceChar '\\' ['\\', '\\'] s).flatMap controlChar

/-- `key = "text"`, the text as it is. -/
def rawLine (p : String × String) : Text :=
  p.1.toList ++ " = \"".toList ++ p.2.toList ++ ['"']

/-- `key = "text"`, the text escaped. -/
def escapedLine (p : String × String) : Text :=
  p.1.toList ++ " = \"".toList ++ escapeTomlStr p.2.toList ++ ['"']

/-- A line of the progress: `key = ["a", "b"]`. -/
def listLine (p : String × List String) : Text :=
  p.1.toList ++ " = [".toList ++
    [',', ' '].intercalate (p.2.map fun v => ['"'] ++ v.toList ++ ['"']) ++ [']']

/-- `repr(val)` of a boolean or an integer. -/
def ResultValue.repr : ResultValue → Text
  | .str s => s.toList
  | .bool b => if b then "True".toList else "False".toList
  | .int n => Text.ofInt n

/-- A line of the result. -/
def resultLine (p : String × ResultValue) : Text :=
  match p.2 with
  | .str s => escapedLine (p.1, s)
  | v => p.1.toList ++ " = ".toList ++ v.repr

/-- The items of a dictionary of optional texts that are there. -/
def present (l : List (String × Option String)) : List (String × String) :=
  l.filterMap fun p => p.2.map fun v => (p.1, v)

/-- The items of `meta`. -/
def metaItems (s : PipelineState) : List (String × String) :=
  present [("started_at", s.startedAt), ("last_updated", s.lastUpdated)]

namespace Stage

/-- The status and the times of a stage. -/
def items (st : Stage) : List (String × String) :=
  present [("status", st.status.map Status.text), ("started_at", st.startedAt),
    ("completed_at", st.completedAt), ("first_done_at", st.firstDoneAt)]

/-- A stage with neither a status nor a first completion is not written. -/
def isWritten (st : Stage) : Bool := st.status.isSome || st.firstDoneAt.isSome

end Stage

/-- The lists of a progress. -/
def Progress.items (p : Progress) : List (String × List String) :=
  [("built", p.built), ("failed", p.failed), ("skipped", p.skipped), ("remaining", p.remaining)]

/-- `[stages.name…]`. -/
def stageHeader (name : String) (sub : Text) : Text :=
  "[stages.".toList ++ name.toList ++ sub ++ [']']

/-- The lines of a stage's status, times and error. -/
def statusLines (p : String × Stage) : List Text :=
  stageHeader p.1 [] :: p.2.items.map rawLine ++
    (p.2.error.toList.map fun e => escapedLine ("error", e)) ++ [[]]

/-- The lines of a stage's progress. -/
def progressLines (p : String × Stage) : List Text :=
  match p.2.progress with
  | none => []
  | some q => stageHeader p.1 ".progress".toList :: q.items.map listLine ++ [[]]

/-- The lines of a stage's errors; the package names are bare keys. -/
def errorsLines (p : String × Stage) : List Text :=
  if p.2.errors.items = [] then []
  else stageHeader p.1 ".errors".toList :: p.2.errors.items.map escapedLine ++ [[]]

/-- The lines of a stage's result. -/
def resultLines (p : String × Stage) : List Text :=
  if p.2.result.items = [] then []
  else stageHeader p.1 ".result".toList :: p.2.result.items.map resultLine ++ [[]]

/-- The lines of a stage. -/
def stageLines (p : String × Stage) : List Text :=
  if p.2.isWritten then statusLines p ++ progressLines p ++ errorsLines p ++ resultLines p else []

/-- `_serialize`. -/
def serialize (s : PipelineState) : Text :=
  Text.joinLines (["# SysForge pipeline state".toList,
    "# Do not edit while the pipeline is running.".toList, []] ++
    (if s.metaItems = [] then [] else "[meta]".toList :: s.metaItems.map rawLine ++ [[]]) ++
    s.stages.items.flatMap stageLines)

/-! ## Reading -/

/-- `data.get(key, {})`. -/
def getTable (key : String) (t : Table) : Table :=
  match t.lookup key with
  | some (.table u) => u
  | _ => []

/-- The TOML value of a result. -/
def ResultValue.value : ResultValue → Value
  | .str s => .str s
  | .bool b => .bool b
  | .int n => .int n

/-- A progress list as it is read. -/
def namesValue (l : List String) : Value := .array (l.map .str)

/-- A dictionary read back has the items of a stage: status, times and error, the progress lists,
the errors under the same package names, and the results with the same types. -/
structure SameStage (t : Table) (st : Stage) : Prop where
  status : t.lookup "status" = st.status.map fun x => .str x.text
  startedAt : t.lookup "started_at" = st.startedAt.map .str
  completedAt : t.lookup "completed_at" = st.completedAt.map .str
  firstDoneAt : t.lookup "first_done_at" = st.firstDoneAt.map .str
  error : t.lookup "error" = st.error.map .str
  progress : ∀ k, (getTable "progress" t).lookup k =
    (st.progress.bind fun p => p.items.lookup k).map namesValue
  errors : ∀ k, (getTable "errors" t).lookup k = (st.errors.get k).map .str
  result : ∀ k, (getTable "result" t).lookup k = (st.result.get k).map ResultValue.value

/-- The file a state is written to is valid and gives every stage back. -/
def RoundTrips (s : PipelineState) : Prop :=
  ∃ t, loads s.serialize = some t ∧ ∀ name,
    Option.Rel (fun v st => ∃ u, v = Value.table u ∧ SameStage u st)
      ((getTable "stages" t).lookup name) (s.stages.get name)

end Sysforge.PipelineState
