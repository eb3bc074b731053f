import Mathlib.Data.List.Dedup
import Sysforge.State.PipelineState

/-!
# The packages stage

`PackagesStage.run` as a machine: one step is a call on the pipeline state, a save of the
checkpoint, or a turn of the build loop. A run can stop after any step, and the next run starts from
the checkpoint.
-/

namespace Sysforge.Packages

open PipelineState

/-- The answers at the prompt for failed packages: which to retry, the others being skipped. The
code keeps the two sets of names without an order and walks them in some order. -/
structure Answer where
  retry : String → Bool
  order : List String → List String
  perm : ∀ l, (order l).Perm l.dedup

/-- The names `_prompt_failed_packages` returns to be retried. -/
def Answer.retrySet (a : Answer) (failed : List String) : List String :=
  a.order (failed.filter a.retry)

/-- The names `_prompt_failed_packages` returns to be skipped. -/
def Answer.skipSet (a : Answer) (failed : List String) : List String :=
  a.order (failed.filter fun n => !a.retry n)

/-- A listed package with the error of its build, if it fails. -/
structure Entry where
  name : String
  error : Option String := none
  deriving DecidableEq

/-- One run of the stage: its manifest, the answers (`none` is an abort) and the clock. -/
structure Run where
  entries : List Entry
  answer : Option Answer
  now : String

/-- `all_names`. -/
def Run.names (r : Run) : List String := r.entries.map Entry.name

/-- Where a run is. -/
inductive Pc
  | init
  | saveInit
  | answer
  | skip (todo : List String)
  | retry (todo : List String)
  | saveAnswers
  | walk (todo : List Entry)
  | saveBuilding (e : Entry) (todo : List Entry)
  | build (e : Entry) (todo : List Entry)
  | saveBuilt (e : Entry) (todo : List Entry)
  | saveFailed (e : Entry) (todo : List Entry)
  /-- The stage returned, or raised an error. -/
  | finished (success : Bool)
  deriving DecidableEq

/-- The variables of `PackagesStage.run`. -/
structure Vars where
  built : List String := []
  skipped : List String := []
  retrySet : List String := []
  skipSet : List String := []

/-- A run in progress: the state in memory, the checkpoint, the package that is being built and the
variables. -/
structure Machine where
  pc : Pc
  mem : PipelineState
  saved : PipelineState
  current : Option String := none
  vars : Vars := {}

/-- A run that has loaded a checkpoint. -/
def start (s : PipelineState) : Machine := { pc := .init, mem := s, saved := s }

/-- A retried package moves back to the remaining ones; the clock is not read. -/
def retryPackage (s : PipelineState) (name : String) : PipelineState :=
  { s with stages := s.stages.set "packages" { s.progressStage with
      progress := some { s.progress with
        remaining := addName s.progress.remaining name
        failed := s.progress.failed.filter (· ≠ name) } } }

/-- The build loop leaves a listed package alone. -/
def passes (v : Vars) (p : Progress) (name : String) : Bool :=
  (name ∈ v.built && name ∉ v.retrySet) || (name ∈ v.skipped || name ∈ v.skipSet) ||
    (name ∉ p.remaining && name ∉ v.retrySet)

/-- One step of a run. -/
def step (r : Run) (m : Machine) : Machine :=
  match m.pc with
  | .init => { m with pc := .saveInit, mem := m.mem.initPackageList r.names r.now }
  | .saveInit => { m with pc := .answer, saved := m.mem }
  | .answer =>
    let p := m.mem.progress
    if p.failed = [] then
      { m with pc := .walk r.entries, vars := { built := p.built, skipped := p.skipped } }
    else
      match r.answer with
      | none => { m with pc := .finished false }
      | some a =>
        { m with
          pc := .skip (a.skipSet p.failed)
          vars := {
            built := p.built
            skipped := p.skipped
            retrySet := a.retrySet p.failed
            skipSet := a.skipSet p.failed } }
  | .skip [] => { m with pc := .retry m.vars.retrySet }
  | .skip (n :: todo) => { m with pc := .skip todo, mem := m.mem.markPackageSkipped n r.now }
  | .retry [] => { m with pc := .saveAnswers }
  | .retry (n :: todo) => { m with pc := .retry todo, mem := retryPackage m.mem n }
  | .saveAnswers => { m with pc := .walk r.entries, saved := m.mem }
  | .walk [] => { m with pc := .finished (m.mem.progress.failed = []) }
  | .walk (e :: todo) =>
    if passes m.vars m.mem.progress e.name then { m with pc := .walk todo }
    else
      { m with
        pc := .saveBuilding e todo
        mem := m.mem.markPackageBuilding e.name r.now
        current := some e.name }
  | .saveBuilding e todo => { m with pc := .build e todo, saved := m.mem }
  | .build e todo =>
    match e.error with
    | none => { m with pc := .saveBuilt e todo, mem := m.mem.markPackageBuilt e.name r.now }
    | some error =>
      { m with pc := .saveFailed e todo, mem := m.mem.markPackageFailed e.name error r.now }
  | .saveBuilt e todo =>
    { m with
      pc := .walk todo
      saved := m.mem
      current := none
      vars := { m.vars with built := m.vars.built ++ [e.name] } }
  | .saveFailed _ todo => { m with pc := .walk todo, saved := m.mem, current := none }
  | .finished _ => m

/-- The run after some steps. -/
def after (r : Run) (s : PipelineState) (k : ℕ) : Machine := (step r)^[k] (start s)

/-- A run with where it stops. The runner that catches an exception of the stage writes the state in
memory when it records the failure; a kill leaves the checkpoint. -/
structure Stopped where
  run : Run
  steps : ℕ
  caught : Bool

/-- The checkpoint the next run loads. -/
def checkpoint (s : PipelineState) (i : Stopped) : PipelineState :=
  if i.caught then (after i.run s i.steps).mem else (after i.run s i.steps).saved

/-! ## What a call does to the lists -/

section Progress

variable {s : PipelineState} {p : Progress} {n now error : String} {names : List String}

theorem progress_setStage {st : Stage} (h : st.progress = some p) :
    (s.setStage "packages" st now).progress = p := by
  rw [progress, stage, setStage, touch]
  dsimp only
  rw [Dict.get_set, if_pos rfl, Option.getD_some, h, Option.getD_some]

theorem progress_setProgress : (s.setProgress p now).progress = p := progress_setStage rfl

theorem progress_initPackageList : (s.initPackageList names now).progress =
    { s.progress with remaining := requeue s.progress names } := progress_setProgress

theorem progress_markPackageBuilding : (s.markPackageBuilding n now).progress =
    { s.progress with remaining := s.progress.remaining.filter (· ≠ n) } := progress_setProgress

theorem progress_markPackageBuilt : (s.markPackageBuilt n now).progress =
    { s.progress with
      built := addName s.progress.built n
      remaining := s.progress.remaining.filter (· ≠ n)
      failed := s.progress.failed.filter (· ≠ n) } := progress_setProgress

theorem progress_markPackageFailed : (s.markPackageFailed n error now).progress =
    { s.progress with
      failed := addName s.progress.failed n
      remaining := s.progress.remaining.filter (· ≠ n) } := progress_setStage rfl

theorem progress_markPackageSkipped : (s.markPackageSkipped n now).progress =
    { s.progress with
      skipped := addName s.progress.skipped n
      remaining := s.progress.remaining.filter (· ≠ n)
      failed := s.progress.failed.filter (· ≠ n) } := progress_setProgress

theorem progress_retryPackage : (retryPackage s n).progress =
    { s.progress with
      remaining := addName s.progress.remaining n
      failed := s.progress.failed.filter (· ≠ n) } := by
  rw [progress, stage, retryPackage]
  dsimp only
  rw [Dict.get_set, if_pos rfl, Option.getD_some, Option.getD_some]

theorem mem_addName {l : List String} {a : String} : a ∈ addName l n ↔ a ∈ l ∨ a = n := by
  rw [addName]
  split
  next h => exact ⟨.inl, fun h' => h'.elim id fun e => e ▸ h⟩
  · rw [List.mem_append, List.mem_singleton]

end Progress

end Sysforge.Packages
