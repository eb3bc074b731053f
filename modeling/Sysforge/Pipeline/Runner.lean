import Sysforge.State.PipelineState

/-!
# The pipeline runner

`runPipeline` and `runStageStandalone` as traces of events: every save of the checkpoint and every
stage run, in order. What a stage run does is the caller's: the writes it makes to the state (its
result, or the package progress of the `packages` stage), which of them it saves, and how it ends.
A process that dies is a trace that stops early. A state that is loaded is the one last saved; that
the file gives it back is the subject of `State/PipelineStateRoundTrip.lean`.
-/

namespace Sysforge.Pipeline

open PipelineState (Status Op)

/-! ## Stages -/

/-- What the runner reads of a stage. -/
structure Stage where
  name : String
  dependsOn : List String := []
  stateless : Bool := false
  makepkgBearing : Bool := false

/-- What the runner reads of `RunOptions`. -/
structure RunOptions where
  resume : Bool := false
  startFrom : Option String := none
  dryRun : Bool := false

/-- An exception of `stage.run()`: the name of its type, whether that is a `RuntimeError`, and its
text. -/
structure Raised where
  typeName : String
  isRuntimeError : Bool
  text : String

/-- The `detail` recorded for an exception. -/
def Raised.detail (e : Raised) : String :=
  if e.isRuntimeError then e.text else e.typeName ++ ": " ++ e.text

/-- How `stage.run()` ends. `NotImplementedError` is a `RuntimeError`. -/
inductive Outcome
  | completed
  | notImplemented (text : String)
  | rebootRequired (text : String)
  | raised (e : Raised)

/-- A stage completed. -/
def Outcome.isCompleted : Outcome → Bool
  | .completed => true
  | _ => false

/-- What the stage `name` may write to the state in its run: its result, and the package progress
if it is the `packages` stage. -/
def isContent (name : String) : Op → Bool
  | .setStageResult stage _ _ => stage = name
  | .initPackageList .. | .markPackageBuilding .. | .markPackageBuilt ..
  | .markPackageFailed .. | .markPackageSkipped .. => name = "packages"
  | _ => false

/-- A run of the stage `name`: its writes, each with whether it is saved, and its end. -/
structure StageRun (name : String) where
  writes : List (Op × Bool) := []
  outcome : Outcome
  content : ∀ w ∈ writes, isContent name w.1 = true

/-- What a call finds: how a run of each stage would go, whether it is root, and the clock, whose
readings within one call are taken as one. -/
structure Env where
  runs : (name : String) → StageRun name
  isRoot : Bool := false
  now : String := ""

/-! ## Traces -/

/-- What a call does that others can see. -/
inductive Event
  | saved (s : PipelineState)
  | began (name : String)
  | completed (name : String)

/-- How a call ends. `failed` and `refused` leave by `SystemExit`, `rebootRequired` by
`sys.exit(0)`. -/
inductive Ending
  | finished
  | nothingToResume
  | previewed
  | rebootRequired
  | failed
  | refused
  | died
  deriving DecidableEq

/-- The state after the writes of a stage run, with their saves. -/
def writeAll (s : PipelineState) : List (Op × Bool) → PipelineState × List Event
  | [] => (s, [])
  | (op, save) :: ws =>
    let r := writeAll (s.step op) ws
    (r.1, (if save then [.saved (s.step op)] else []) ++ r.2)

/-! ## `run_pipeline` -/

/-- `_validate_stages`. -/
def validateStages (stages : List Stage) : Bool :=
  stages.all fun st => st.dependsOn.all fun dep => dep ∈ stages.map Stage.name

/-- The statuses that count as done when the start is sought. -/
def isSettled : Status → Bool
  | .done | .skippedTo => true
  | _ => false

/-- `_find_resume_index`. -/
def findResumeIndex (stages : List Stage) (s : PipelineState) : ℕ :=
  stages.findIdx fun st => !isSettled (s.stageStatus st.name)

/-- The loop over the stages from the start index on. -/
def runStages (env : Env) (dryRun : Bool) : List Stage → PipelineState → List Event × Ending
  | [], _ => ([], if dryRun then .previewed else .finished)
  | st :: rest, s =>
    if s.stageStatus st.name = .done then runStages env dryRun rest s
    else if dryRun then runStages env dryRun rest s
    else if st.makepkgBearing && env.isRoot then ([], .failed)
    else
      let s₁ := s.markRunning st.name env.now env.now
      let run := env.runs st.name
      let w := writeAll s₁ run.writes
      let head := [.saved s₁, .began st.name] ++ w.2
      match run.outcome with
      | .completed =>
        let s₂ := w.1.markDone st.name env.now env.now
        let r := runStages env dryRun rest s₂
        (head ++ [.completed st.name, .saved s₂] ++ r.1, r.2)
      | .notImplemented text =>
        (head ++ [.saved (w.1.markFailed st.name text env.now env.now)], .failed)
      | .rebootRequired _ => (head ++ [.saved w.1], .rebootRequired)
      | .raised e =>
        (head ++ [.saved (w.1.markFailed st.name e.detail env.now env.now)], .failed)

/-- `state.save()` of a call that is no dry run. -/
def saves (dryRun : Bool) (s : PipelineState) : List Event := if dryRun then [] else [.saved s]

/-- The marks of `--start-from` on the stages before the start. -/
def skipTo (now : String) (stages : List Stage) (s : PipelineState) : PipelineState :=
  stages.foldl (fun s st => if s.stageStatus st.name = .done then s else s.markSkippedTo st.name now)
    s

/-- The part of `run_pipeline` after the start index is known. -/
def startAt (env : Env) (dryRun : Bool) (stages : List Stage) (s : PipelineState) :
    List Event × Ending :=
  let s := s.initMeta env.now env.now
  let r := runStages env dryRun stages s
  (saves dryRun s ++ r.1, r.2)

/-- `options.start_from`, when it is truthy. -/
def RunOptions.start (o : RunOptions) : Option String := o.startFrom.filter fun n => n ≠ ""

/-- `run_pipeline` over the saved state `disk`. -/
def runPipeline (stages : List Stage) (options : RunOptions) (env : Env)
    (disk : Option PipelineState) : List Event × Ending :=
  let s := disk.getD PipelineState.empty
  if !validateStages stages then ([], .refused)
  else if disk.isSome && !options.resume && options.start.isNone then ([], .refused)
  else
    match options.start with
    | some name =>
      if name ∉ stages.map Stage.name then ([], .refused)
      else
        let i := stages.findIdx fun st => st.name = name
        let s := if options.resume then s else skipTo env.now (stages.take i) s
        let r := startAt env options.dryRun (stages.drop i) s
        (saves options.dryRun s ++ r.1, r.2)
    | none =>
      if options.resume then
        let i := findResumeIndex stages s
        if i = stages.length then ([], .nothingToResume)
        else startAt env options.dryRun (stages.drop i) s
      else startAt env options.dryRun stages s

/-! ## `run_stage_standalone` -/

/-- `str(e)` of a `RuntimeError`, else the type with the text. -/
def Outcome.detail : Outcome → String
  | .completed => ""
  | .notImplemented text => text
  | .rebootRequired text => "BootstrapRebootRequired: " ++ text
  | .raised e => e.detail

/-- `run_stage_standalone` over the saved state `disk`. A dry run previews the stage on a state
that is never saved. -/
def runStageStandalone (st : Stage) (dryRun : Bool) (env : Env) (disk : Option PipelineState) :
    List Event × Ending :=
  let s := disk.getD PipelineState.empty
  let run := env.runs st.name
  if dryRun then ([], if run.outcome.isCompleted then .previewed else .failed)
  else
    let tracksStatus := !st.stateless
    let s₁ := if tracksStatus then s.markRunning st.name env.now env.now else s
    let w := writeAll s₁ run.writes
    let head := (if tracksStatus then [.saved s₁] else []) ++ [.began st.name] ++ w.2
    if run.outcome.isCompleted then
      let s₂ := if tracksStatus then w.1.markDone st.name env.now env.now
        else w.1.noteCompleted st.name env.now env.now
      (head ++ [.completed st.name, .saved s₂], .finished)
    else if tracksStatus then
      (head ++ [.saved (w.1.markFailed st.name run.outcome.detail env.now env.now)], .failed)
    else (head, .failed)

/-! ## Calls over one state dir -/

/-- A call, and after how many events its process dies, if it does. -/
inductive Call
  | pipeline (options : RunOptions) (env : Env) (death : Option ℕ)
  | standalone (stage : Stage) (dryRun : Bool) (env : Env) (death : Option ℕ)

/-- What is left of a call whose process dies. -/
def cut : Option ℕ → List Event × Ending → List Event × Ending
  | none, r => r
  | some k, r => (r.1.take k, .died)

/-- The events of a call and its end. -/
def Call.trace (stages : List Stage) (disk : Option PipelineState) :
    Call → List Event × Ending
  | .pipeline options env death => cut death (runPipeline stages options env disk)
  | .standalone st dryRun env death => cut death (runStageStandalone st dryRun env disk)

/-- The saved state after an event. -/
def Event.apply (disk : Option PipelineState) : Event → Option PipelineState
  | .saved s => some s
  | _ => disk

/-- The state dir, and all that has happened over it. -/
structure World where
  disk : Option PipelineState := none
  log : List Event := []

/-- The world after a call. -/
def World.step (stages : List Stage) (w : World) (c : Call) : World where
  disk := (c.trace stages w.disk).1.foldl Event.apply w.disk
  log := w.log ++ (c.trace stages w.disk).1

/-- The status recorded on disk. -/
def recorded (disk : Option PipelineState) (name : String) : Status :=
  (disk.getD PipelineState.empty).stageStatus name

end Sysforge.Pipeline
