import Mathlib.Data.List.Basic
import Sysforge.Foundations.Run

/-!
# Ctrl-C in a verb

`run_verb` runs a verb that changes the system inside `sentinel_scope`, whose `InterruptScope` defers
a Ctrl-C. A body is the tree of what it does, each command with the signals that arrive while it runs
and with whether it raises; a run of verbs shares one state dir.
-/

namespace Sysforge.Interrupt

variable {α : Type*}

/-- How code ends. -/
inductive Outcome
  | done
  /-- An `Exception`. -/
  | error
  /-- `CleanExitRequested`, which `except Exception` does not catch. -/
  | cleanExit
  /-- `KeyboardInterrupt`, nor does it this. -/
  | interrupt
  /-- A third Ctrl-C finds the default handler of the system. -/
  | killed
  deriving DecidableEq

/-- The body of a verb. -/
inductive Code (α : Type*)
  | skip
  | command (a : α) (mutates : Bool) (signals : ℕ) (fails : Bool)
  | checkpoint
  | seq (c d : Code α)
  /-- `try: c except Exception: d` -/
  | attempt (c d : Code α)
  /-- `try: c finally: d` -/
  | ensure (c d : Code α)

/-- What is done to the system and to the record. -/
inductive Entry (α : Type*)
  | ran (a : α) (mutates : Bool)
  | armed
  | cleared
  deriving DecidableEq

/-- The record, the active `InterruptScope` and what happened, the newest first. -/
structure State (α : Type*) where
  /-- `stage_in_progress.toml` is there. -/
  record : Bool := false
  /-- `_sigint_count` of the scope. -/
  count : Option ℕ := none
  armed : Bool := false
  /-- `on_mutation(arm)` -/
  listening : Bool := false
  log : List (Entry α) := []
  /-- How many signals arrived. -/
  seen : ℕ := 0

/-- What the handler raises when `n` signals arrive: nothing for the first one in a scope. -/
def raised (count : Option ℕ) (n : ℕ) : Option Outcome :=
  match count with
  | none => if n = 0 then none else some .interrupt
  | some k =>
    if n = 0 ∨ k + n ≤ 1 then none else if k + n = 2 then some .interrupt else some .killed

namespace State

variable (s : State α)

/-- `arm`. -/
def arm : State α :=
  if s.armed then s else { s with armed := true, record := true, log := .armed :: s.log }

/-- `sentinel.clear()`, of a record that may be there. -/
def clear : State α := { s with record := false, log := .cleared :: s.log }

/-- `n` signals arrive. -/
def arrive (n : ℕ) : State α := { s with count := s.count.map (· + n), seen := s.seen + n }

/-- `interrupt.checkpoint()`. -/
def checkpoint : Outcome := if s.count.any (0 < ·) then .cleanExit else .done

/-- `privileged_argv` calls the listeners before a change of the system. -/
def announce (mutates : Bool) : State α := if mutates && s.listening then s.arm else s

/-- A command runs. -/
def command (a : α) (mutates : Bool) (signals : ℕ) (fails : Bool) : Outcome × State α :=
  let s := s.announce mutates
  (((raised s.count signals).getD (if fails then .error else .done)),
    { s with log := .ran a mutates :: s.log }.arrive signals)

end State

/-- Run a body. -/
def exec : Code α → State α → Outcome × State α
  | .skip, s => (.done, s)
  | .command a mutates signals fails, s => s.command a mutates signals fails
  | .checkpoint, s => (s.checkpoint, s)
  | .seq c d, s =>
    let r := exec c s
    if r.1 = .done then exec d r.2 else r
  | .attempt c d, s =>
    let r := exec c s
    if r.1 = .error then exec d r.2 else r
  | .ensure c d, s =>
    let r := exec c s
    if r.1 = .killed then r
    else
      let q := exec d r.2
      (if q.1 = .done then r.1 else q.1, q.2)

/-- How `sentinel_scope` is entered and left, with the signals that arrive at both ends. -/
structure Scope (α : Type*) where
  /-- Not `arm_on_mutation`. -/
  eager : Bool := false
  /-- The recovery of a stale record is accepted and works. -/
  recovered : Bool := false
  /-- Another run holds the stage lock. -/
  contended : Bool := false
  entering : ℕ := 0
  body : Code α
  leaving : ℕ := 0

/-- The end of a scope: a body that ended well clears the record and delivers the deferred signal
again. -/
def Scope.leave (sc : Scope α) (r : Outcome × State α) : Outcome × State α :=
  let s := { r.2 with count := none, listening := false }
  match r.1 with
  | .done =>
    let s := s.arrive sc.leaving
    if 0 < sc.leaving then (.interrupt, s)
    else (if r.2.count.any (0 < ·) then .interrupt else .done, s.clear)
  | .cleanExit => (.error, s)
  | outcome => (outcome, s)

/-- `sentinel_scope`. -/
def Scope.run (sc : Scope α) (s : State α) : Outcome × State α :=
  let s := s.arrive sc.entering
  if 0 < sc.entering then (.interrupt, s)
  else if s.record && !sc.recovered then (.error, s)
  else
    let s := if s.record then s.clear else s
    if sc.contended then (.error, s)
    else
      let s := { s with armed := false }
      let s := if sc.eager then s.arm else s
      sc.leave (exec sc.body { s with count := some 0, listening := !sc.eager })

/-- `pre_check`. -/
inductive PreCheck
  | proceed
  | raises
  | skip
  | block (exitCode : ℕ)

/-- A verb that requires the sentinel, as a run of it goes. -/
structure Verb (α : Type*) where
  pre : PreCheck := .proceed
  scope : Scope α
  /-- `ExecResult.exit_code` -/
  exitCode : ℕ := 0

/-- How a run of a verb ends: with an exit code, by `KeyboardInterrupt`, or killed. -/
inductive Exit
  | code (n : ℕ)
  | interrupt
  | killed
  deriving DecidableEq

/-- What a scope's outcome is to the shell: an uncaught exception is 1 too. -/
def Outcome.exit (exitCode : ℕ) : Outcome → Exit
  | .done => .code exitCode
  | .error | .cleanExit => .code 1
  | .interrupt => .interrupt
  | .killed => .killed

/-- `run_verb`. -/
def runVerb (v : Verb α) (s : State α) : Exit × State α :=
  match v.pre with
  | .raises => (.code 1, s)
  | .skip => (.code 0, s)
  | .block exitCode => (.code (if exitCode = 0 then 1 else exitCode), s)
  | .proceed =>
    let r := v.scope.run s
    (r.1.exit v.exitCode, r.2)

/-- A verb runs as a process of its own. -/
def step (s : State α) (v : Verb α) : State α := (runVerb v s).2

/-! ## What is said of a run -/

/-- The commands that ran. -/
def State.commands (s : State α) : List (α × Bool) :=
  s.log.filterMap fun
    | .ran a mutates => some (a, mutates)
    | _ => none

/-- Code without signals. -/
def Code.calm : Code α → Code α
  | .skip => .skip
  | .command a mutates _ fails => .command a mutates 0 fails
  | .checkpoint => .checkpoint
  | .seq c d => .seq c.calm d.calm
  | .attempt c d => .attempt c.calm d.calm
  | .ensure c d => .ensure c.calm d.calm

/-- The signals that can arrive in code. -/
def Code.signals : Code α → ℕ
  | .command _ _ signals _ => signals
  | .seq c d | .attempt c d | .ensure c d => c.signals + d.signals
  | _ => 0

/-- Code that never stops between two commands on its own account. -/
def Code.unchecked : Code α → Bool
  | .checkpoint => false
  | .seq c d | .attempt c d | .ensure c d => c.unchecked && d.unchecked
  | _ => true

/-- The record that a log leaves. -/
def onDisk : List (Entry α) → Bool
  | [] => false
  | .armed :: _ => true
  | .cleared :: _ => false
  | .ran .. :: log => onDisk log

/-- **Guarded changes**: each change of the system is made while the record is on disk, and a record
is written only where there is none. -/
def Guarded : List (Entry α) → Prop
  | [] => True
  | .armed :: log => onDisk log = false ∧ Guarded log
  | .cleared :: log => Guarded log
  | .ran _ mutates :: log => (mutates = true → onDisk log = true) ∧ Guarded log

end Sysforge.Interrupt
