import Mathlib.Logic.Function.Basic
import Sysforge.Foundations.Run

/-!
# The stage sentinel and its lock

`sentinel_scope` brackets a run's system changes with two files of the state dir: the record
`stage_in_progress.toml`, which a crash leaves behind, and an `flock`, which a crash releases. A
run is modelled by the steps it takes on them, and any number of runs are interleaved. No run
accepts the recovery prompt, so a run that finds the record of another one refuses to start.

The stale-record check is not under the lock. A record written between a run's check and its lock
is overwritten when that run arms, or removed when it ends well.
-/

namespace Sysforge.Sentinel

/-! ## The steps of a run -/

/-- Where a run stands in `sentinel_scope`. -/
inductive Phase
  /-- About to read the record: `sentinel.get_active()` on entry. -/
  | start
  /-- A record was found; `check_and_recover_stale_sentinel` is about to probe the lock. -/
  | probe
  /-- Inside `with _stage_lock(state_dir): pass`, the probe. -/
  | probing
  /-- The probe passed; about to read the record a second time. -/
  | recheck
  /-- About to enter the stage lock for the whole scope. -/
  | acquire
  /-- The lock is held, `if not arm_on_mutation: arm()` comes next. -/
  | entered
  /-- Inside the `with` block. -/
  | body
  /-- The block ended normally, `sentinel.clear()` comes next. -/
  | clear
  /-- The exit stack is about to release the lock. -/
  | release
  /-- Finished, or refused to start. -/
  | ended
  /-- Died, or left the block by an exception: the record stays and the lock is released. -/
  | crashed
  deriving DecidableEq

/-- The phases in which a run holds the `flock`. -/
def Phase.holdsLock : Phase → Bool
  | .probing | .entered | .body | .clear | .release => true
  | _ => false

/-- The phases of the scope before its record is cleared. -/
def Phase.inScope : Phase → Bool
  | .entered | .body | .clear => true
  | _ => false

/-- The phases a run leaves no more. -/
def Phase.isFinal : Phase → Bool
  | .ended | .crashed => true
  | _ => false

/-- A run: where it stands, whether it has written its record and not cleared it, and whether it
has changed the system. -/
structure Proc where
  phase : Phase
  armed : Bool
  mutated : Bool
  deriving DecidableEq

/-- The state dir and the runs over it. A record is the run that wrote it, as is a lock the run
that holds it. -/
structure World (ι : Type*) where
  lock : Option ι
  record : Option ι
  procs : ι → Proc

/-- What a run may do next: its next step (in the block, to leave it normally), a system change,
or a crash. -/
inductive Move
  | next
  | mutate
  | crash
  deriving DecidableEq

variable {ι : Type*} [DecidableEq ι]

/-- Replace the run `i`. -/
def World.put (w : World ι) (i : ι) (p : Proc) : World ι :=
  { w with procs := Function.update w.procs i p }

/-- The run `i` goes on to `ph`. -/
def World.goto (w : World ι) (i : ι) (ph : Phase) : World ι :=
  w.put i { w.procs i with phase := ph }

/-- The run `i` gets the lock and goes on to `ph`. -/
def World.hold (w : World ι) (i : ι) (ph : Phase) : World ι :=
  { w.goto i ph with lock := some i }

/-- `flock(LOCK_EX | LOCK_NB)`: on contention the run refuses to start. -/
def World.take (w : World ι) (i : ι) (ph : Phase) : World ι :=
  match w.lock with
  | none => w.hold i ph
  | some _ => w.goto i .ended

/-- `arm`: `mark_started` writes the record, whatever was there. -/
def World.arm (w : World ι) (i : ι) : World ι :=
  { w.put i { phase := .body, armed := true, mutated := (w.procs i).mutated } with
    record := some i }

/-- `sentinel.clear()` unlinks the file, whoever wrote it and whether or not this scope armed. -/
def World.clear (w : World ι) (i : ι) : World ι :=
  { w.put i { phase := .release, armed := false, mutated := (w.procs i).mutated } with
    record := none }

/-- Leaving `build_lock` gives the lock back. -/
def World.drop (w : World ι) (i : ι) (ph : Phase) : World ι :=
  { w.goto i ph with lock := none }

/-- The next step of the run `i`. `eager` is `not arm_on_mutation`: the record is written on
entry. -/
def next (eager : ι → Bool) (w : World ι) (i : ι) : World ι :=
  match (w.procs i).phase with
  | .start => if w.record = none then w.goto i .acquire else w.goto i .probe
  | .probe => w.take i .probing
  | .probing => w.drop i .recheck
  -- The prompt is declined: a record that is still there ends the run.
  | .recheck => if w.record = none then w.goto i .acquire else w.goto i .ended
  | .acquire => w.take i .entered
  | .entered => if eager i then w.arm i else w.goto i .body
  | .body => w.goto i .clear
  | .clear => w.clear i
  | .release => w.drop i .ended
  | .ended | .crashed => w

/-- A system change in the block. A scope that is not armed yet arms first, and that is a step of
its own: the run may crash between the record and the change. -/
def mutate (w : World ι) (i : ι) : World ι :=
  match (w.procs i).phase with
  | .body => if (w.procs i).armed then w.put i { w.procs i with mutated := true } else w.arm i
  | _ => w

/-- A crash at any step: the kernel drops the lock and the files stay. -/
def crash (w : World ι) (i : ι) : World ι :=
  if (w.procs i).phase.isFinal then w
  else if (w.procs i).phase.holdsLock then w.drop i .crashed
  else w.goto i .crashed

/-- One step of the interleaving. -/
def step (eager : ι → Bool) (w : World ι) : ι × Move → World ι
  | (i, .next) => next eager w i
  | (i, .mutate) => mutate w i
  | (i, .crash) => crash w i

/-- No run has begun and the state dir is empty. -/
def World.init : World ι where
  lock := none
  record := none
  procs := fun _ => { phase := .start, armed := false, mutated := false }

/-! ## What is to hold -/

/-- The run crashed after a change to the system, with its record written. -/
def World.Interrupted (w : World ι) (i : ι) : Prop :=
  (w.procs i).phase = .crashed ∧ (w.procs i).armed = true ∧ (w.procs i).mutated = true

/-- The run is inside its scope and its record is written. -/
def World.HasArmedScope (w : World ι) (i : ι) : Prop :=
  (w.procs i).phase.inScope = true ∧ (w.procs i).armed = true

/-- The record of an interrupted run is still on disk, and no two runs hold an armed scope. -/
structure World.Safe (w : World ι) : Prop where
  survives : ∀ i, w.Interrupted i → w.record = some i
  exclusive : ∀ i j, w.HasArmedScope i → w.HasArmedScope j → i = j

/-- The step does not take the stage lock over the record of an interrupted run. -/
def NotOverInterrupted (w : World ι) (m : ι × Move) : Prop :=
  m.2 = .next → (w.procs m.1).phase = .acquire → w.lock = none →
    ∀ i ∈ w.record, ¬w.Interrupted i

instance (w : World ι) (i : ι) : Decidable (w.Interrupted i) :=
  inferInstanceAs (Decidable (_ ∧ _ ∧ _))

instance (w : World ι) (m : ι × Move) : Decidable (NotOverInterrupted w m) :=
  inferInstanceAs (Decidable (_ → _ → _ → _))

end Sysforge.Sentinel
