import Sysforge.Foundations.Dict
import Sysforge.Foundations.Text
import Mathlib.Data.String.Basic

/-!
# The pipeline state

`PipelineState` mirrors `pipeline_state.toml`: the status of every stage with the times of its
last attempt, and for the `packages` stage the progress over its package list and the errors by
package. This module holds the record of a stage and every transition; the file is in
`State/PipelineStateFile.lean`.
-/

namespace Sysforge

namespace PipelineState

/-- `STAGE_STATUSES`. -/
inductive Status
  | pending
  | running
  | done
  | failed
  | skippedTo
  deriving DecidableEq

/-- The text of a status. -/
def Status.text : Status → String
  | .pending => "pending"
  | .running => "running"
  | .done => "done"
  | .failed => "failed"
  | .skippedTo => "skipped_to"

/-- A value of a result dictionary. -/
inductive ResultValue
  | str (s : String)
  | bool (b : Bool)
  | int (n : ℤ)
  deriving DecidableEq

/-- The progress dictionary; `_progress` creates its four lists together. -/
structure Progress where
  built : List String := []
  failed : List String := []
  skipped : List String := []
  remaining : List String := []
  deriving DecidableEq

/-- The dictionary of a stage. No reader tells an absent `errors` or `result` from an empty one. -/
structure Stage where
  status : Option Status := none
  startedAt : Option String := none
  completedAt : Option String := none
  firstDoneAt : Option String := none
  error : Option String := none
  progress : Option Progress := none
  errors : Dict String String := .empty
  result : Dict String ResultValue := .empty

end PipelineState

/-- The state `pipeline_state.toml` mirrors: the two times of `meta` and the stages. -/
structure PipelineState where
  startedAt : Option String
  lastUpdated : Option String
  stages : Dict String PipelineState.Stage

namespace PipelineState

/-- The state of an absent file. -/
def empty : PipelineState := ⟨none, none, .empty⟩

/-- The dictionary of a stage, empty when it was not seen yet. -/
def stage (s : PipelineState) (name : String) : Stage := (s.stages.get name).getD {}

/-! ## Meta -/

/-- `init_meta`, which reads the clock twice. -/
def initMeta (s : PipelineState) (now later : String) : PipelineState :=
  { s with startedAt := some (s.startedAt.getD now), lastUpdated := some later }

/-- `touch`. -/
def touch (s : PipelineState) (now : String) : PipelineState := { s with lastUpdated := some now }

/-! ## Stage status -/

/-- `stage_status`. -/
def stageStatus (s : PipelineState) (name : String) : Status :=
  (s.stage name).status.getD .pending

/-- Replace the dictionary of a stage, then `touch`. -/
def setStage (s : PipelineState) (name : String) (st : Stage) (later : String) : PipelineState :=
  ({ s with stages := s.stages.set name st }).touch later

/-- `mark_running`. -/
def markRunning (s : PipelineState) (name now later : String) : PipelineState :=
  s.setStage name
    { s.stage name with error := none, status := some .running, startedAt := some now } later

/-- `mark_done`; the first completion is kept across later failures. -/
def markDone (s : PipelineState) (name now later : String) : PipelineState :=
  s.setStage name { s.stage name with
    error := none
    status := some .done
    completedAt := some now
    firstDoneAt := some ((s.stage name).firstDoneAt.getD now) } later

/-- `note_completed`. -/
def noteCompleted (s : PipelineState) (name now later : String) : PipelineState :=
  s.setStage name
    { s.stage name with firstDoneAt := some ((s.stage name).firstDoneAt.getD now) } later

/-- `mark_failed`. -/
def markFailed (s : PipelineState) (name error now later : String) : PipelineState :=
  s.setStage name { s.stage name with
    status := some .failed
    completedAt := some now
    error := some error } later

/-- `mark_skipped_to`. -/
def markSkippedTo (s : PipelineState) (name later : String) : PipelineState :=
  s.setStage name { s.stage name with status := some .skippedTo } later

/-! ## Package progress -/

/-- `_progress`: the dictionary of the `packages` stage with a status and a progress. -/
def progressStage (s : PipelineState) : Stage :=
  { s.stage "packages" with
    status := some ((s.stage "packages").status.getD .running)
    progress := some ((s.stage "packages").progress.getD {}) }

/-- The progress `_progress` returns. -/
def progress (s : PipelineState) : Progress := (s.stage "packages").progress.getD {}

/-- Change the progress of the `packages` stage. -/
def setProgress (s : PipelineState) (p : Progress) (later : String) : PipelineState :=
  s.setStage "packages" { s.progressStage with progress := some p } later

/-- The package list `init_package_list` leaves in `remaining`: on resume, a listed package in no
bucket is requeued in list order. -/
def requeue (p : Progress) (names : List String) : List String :=
  if p.remaining = [] ∧ p.built = [] then names
  else
    let lost := names.filter fun n =>
      n ∉ p.remaining ∧ n ∉ p.built ∧ n ∉ p.failed ∧ n ∉ p.skipped
    if lost = [] then p.remaining
    else names.filter (fun n => n ∈ p.remaining ∨ n ∈ lost) ++ p.remaining.filter (· ∉ names)

/-- `init_package_list`. -/
def initPackageList (s : PipelineState) (names : List String) (later : String) : PipelineState :=
  s.setProgress { s.progress with remaining := requeue s.progress names } later

/-- `l` with `name` added at the end, unless it is there. -/
def addName (l : List String) (name : String) : List String := if name ∈ l then l else l ++ [name]

/-- `mark_package_building`. -/
def markPackageBuilding (s : PipelineState) (name later : String) : PipelineState :=
  s.setProgress { s.progress with remaining := s.progress.remaining.filter (· ≠ name) } later

/-- `mark_package_built`. -/
def markPackageBuilt (s : PipelineState) (name later : String) : PipelineState :=
  s.setProgress { s.progress with
    built := addName s.progress.built name
    remaining := s.progress.remaining.filter (· ≠ name)
    failed := s.progress.failed.filter (· ≠ name) } later

/-- `mark_package_failed`. -/
def markPackageFailed (s : PipelineState) (name error later : String) : PipelineState :=
  s.setStage "packages" { s.progressStage with
    progress := some { s.progress with
      failed := addName s.progress.failed name
      remaining := s.progress.remaining.filter (· ≠ name) }
    errors := (s.stage "packages").errors.set name error } later

/-- `mark_package_skipped`. -/
def markPackageSkipped (s : PipelineState) (name later : String) : PipelineState :=
  s.setProgress { s.progress with
    skipped := addName s.progress.skipped name
    remaining := s.progress.remaining.filter (· ≠ name)
    failed := s.progress.failed.filter (· ≠ name) } later

/-- `set_stage_result`. -/
def setStageResult (s : PipelineState) (name : String) (result : Dict String ResultValue)
    (later : String) : PipelineState :=
  s.setStage name { s.stage name with result := result } later

/-! ## Runs -/

/-- One call on a pipeline state; `now` and `later` are the clock readings it takes. -/
inductive Op
  | initMeta (now later : String)
  | markRunning (name now later : String)
  | markDone (name now later : String)
  | markFailed (name error now later : String)
  | markSkippedTo (name later : String)
  | noteCompleted (name now later : String)
  | initPackageList (names : List String) (later : String)
  | markPackageBuilding (name later : String)
  | markPackageBuilt (name later : String)
  | markPackageFailed (name error later : String)
  | markPackageSkipped (name later : String)
  | setStageResult (name : String) (result : Dict String ResultValue) (later : String)

/-- The state after one call. -/
def step (s : PipelineState) : Op → PipelineState
  | .initMeta now later => s.initMeta now later
  | .markRunning name now later => s.markRunning name now later
  | .markDone name now later => s.markDone name now later
  | .markFailed name error now later => s.markFailed name error now later
  | .markSkippedTo name later => s.markSkippedTo name later
  | .noteCompleted name now later => s.noteCompleted name now later
  | .initPackageList names later => s.initPackageList names later
  | .markPackageBuilding name later => s.markPackageBuilding name later
  | .markPackageBuilt name later => s.markPackageBuilt name later
  | .markPackageFailed name error later => s.markPackageFailed name error later
  | .markPackageSkipped name later => s.markPackageSkipped name later
  | .setStageResult name result later => s.setStageResult name result later

end PipelineState

end Sysforge
