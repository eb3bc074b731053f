import Sysforge.Foundations.FileSystem
import Sysforge.Foundations.Run
import Sysforge.Foundations.Text

/-!
# Replacing files atomically

`write_state` and `replace_file` as processes that run at once over one directory, each system call
a step that can fail: a temporary file beside the target is written, flushed, given its mode and
renamed over the target. Where the directory is refused, `replace_file` goes through `install` and
`mv` with one staging name for each target and flushes nothing.
-/

namespace Sysforge.Storage

variable {β : Type*}

/-! ## Writers -/

/-- The names of a directory: a file, `.<name>.<random>.tmp` beside it, and
`.<name>.sysforge-tmp`. -/
inductive Name
  | file (n : Text)
  | temp (n : Text) (random : ℕ)
  | staged (n : Text)
  deriving DecidableEq

/-- A call of `write_state`, or of `replace_file`, which escalates where it is refused. -/
structure Job (β : Type*) where
  path : Text
  data : List β
  /-- The mode of a file that is not there yet. -/
  defaultMode : ℕ
  escalates : Bool

/-- Where a call is. -/
inductive Phase (β : Type*)
  | ready
  | statted (mode : ℕ)
  | writing (random ino mode : ℕ) (rest : List β)
  | flushed (random mode : ℕ)
  | moded (random mode : ℕ)
  | renamed
  /-- The direct path was refused. -/
  | escalated (mode : ℕ)
  | installing (ino mode : ℕ) (rest : List β)
  | staged (mode : ℕ)
  /-- Whether the directory was flushed. -/
  | returned (flushed : Bool)
  | raised
  | killed
  deriving DecidableEq

/-- How a system call ends. -/
inductive Outcome
  | ok
  | error
  | denied
  deriving DecidableEq

/-- What a step is given: the random part of a new name, how many bytes a write takes, and whether
the clean-up works. -/
structure Input where
  outcome : Outcome := .ok
  random : ℕ := 0
  count : ℕ := 0
  cleans : Bool := true

/-- A directory and the calls that run over it, each a process named by a number. -/
structure State (β : Type*) where
  fs : FileSystem Name β ℕ
  phase : ℕ → Phase β

namespace State

variable (jobs : ℕ → Job β) (s : State β) (i : ℕ) (inp : Input)

/-- Process `i` goes on from `phase` with the directory `fs`. -/
def set (fs : FileSystem Name β ℕ) (phase : Phase β) : State β :=
  ⟨fs, Function.update s.phase i phase⟩

/-- The directory without a name, where the clean-up works. -/
def cleaned (n : Name) : FileSystem Name β ℕ := if inp.cleans then s.fs.unlink n else s.fs

/-- The mode for the replacement: that of the file, if it is there. -/
def modeFor : ℕ :=
  match s.fs.lookup (.file (jobs i).path) with
  | some k => (s.fs.inode k).mode
  | none => (jobs i).defaultMode

/-- The direct path is refused or fails. -/
def abandon (fs : FileSystem Name β ℕ) (mode : ℕ) : State β :=
  s.set i fs (if inp.outcome = .denied ∧ (jobs i).escalates then .escalated mode else .raised)

/-- `mkstemp`, whose name is new. -/
def makeTemp (mode : ℕ) : State β :=
  let name := Name.temp (jobs i).path inp.random
  if (s.fs.lookup name).isSome then s
  else s.set i (s.fs.create name { mode := 0o600, maker := some i })
    (.writing inp.random s.fs.next mode (jobs i).data)

/-- `install` begins: it makes its target anew. -/
def install (mode : ℕ) : State β :=
  s.set i
    (s.fs.create (.staged (jobs i).path) { mode := 0o600, maker := some i, installed := true })
    (.installing s.fs.next mode (jobs i).data)

/-- `chmod` of a name. -/
def chmodName (n : Name) (mode : ℕ) : FileSystem Name β ℕ :=
  match s.fs.lookup n with
  | some k => s.fs.chmod k mode
  | none => s.fs

/-- `mv` of the staged file, which fails when it is gone. -/
def move : State β :=
  let name := Name.staged (jobs i).path
  if (s.fs.lookup name).isSome then
    s.set i (s.fs.rename name (.file (jobs i).path)) (.returned false)
  else s.set i s.fs .raised

/-- A step that succeeds. -/
def proceed : Phase β → State β
  | .ready => s.set i s.fs (.statted (s.modeFor jobs i))
  | .statted mode => s.makeTemp jobs i inp mode
  | .writing random ino mode [] => s.set i (s.fs.fsync ino) (.flushed random mode)
  | .writing random ino mode (b :: rest) =>
    s.set i (s.fs.append ino ((b :: rest).take inp.count))
      (.writing random ino mode ((b :: rest).drop inp.count))
  | .flushed random mode =>
    s.set i (s.chmodName (.temp (jobs i).path random) mode) (.moded random mode)
  | .moded random _ =>
    s.set i (s.fs.rename (.temp (jobs i).path random) (.file (jobs i).path)) .renamed
  | .renamed => s.set i s.fs.syncDir (.returned true)
  | .escalated mode => s.install jobs i mode
  | .installing ino mode [] => s.set i (s.fs.chmod ino mode) (.staged mode)
  | .installing ino mode (b :: rest) =>
    s.set i (s.fs.append ino ((b :: rest).take inp.count))
      (.installing ino mode ((b :: rest).drop inp.count))
  | .staged _ => s.move jobs i
  | .returned _ | .raised | .killed => s

/-- A step that fails. A directory that cannot be flushed is no error. -/
def fail : Phase β → State β
  | .ready => s.set i s.fs .raised
  | .statted mode => s.abandon jobs i inp s.fs mode
  | .writing random _ mode _ | .flushed random mode | .moded random mode =>
    s.abandon jobs i inp (s.cleaned inp (.temp (jobs i).path random)) mode
  | .renamed => s.set i s.fs (.returned false)
  | .escalated _ | .installing .. | .staged _ =>
    s.set i (s.cleaned inp (.staged (jobs i).path)) .raised
  | .returned _ | .raised | .killed => s

end State

/-! ## Runs -/

/-- Whether a call has begun and not ended. -/
def Phase.active : Phase β → Bool
  | .ready | .returned _ | .raised | .killed => false
  | _ => true

/-- Whether `install` has begun. -/
def Phase.installs : Phase β → Bool
  | .installing .. | .staged _ => true
  | _ => false

/-- Whether a call has not escalated. -/
def Phase.direct : Phase β → Bool
  | .escalated _ | .installing .. | .staged _ => false
  | _ => true

/-- What happens: a call does its next step, a process is killed, the kernel writes an inode back,
or the power fails. -/
inductive Event (β : Type*)
  | act (i : ℕ) (inp : Input)
  | kill (i : ℕ)
  | writeback (ino : ℕ)
  | powerLoss (drop : Name → ℕ) (garbage : ℕ → List β)

/-- One event. -/
def step (jobs : ℕ → Job β) (s : State β) : Event β → State β
  | .act i inp =>
    if inp.outcome = .ok then s.proceed jobs i inp (s.phase i) else s.fail jobs i inp (s.phase i)
  | .kill i => if (s.phase i).active then s.set i s.fs .killed else s
  | .writeback ino => { s with fs := s.fs.fsync ino }
  | .powerLoss drop garbage =>
    ⟨s.fs.powerLoss drop garbage, fun i => if (s.phase i).active then .killed else s.phase i⟩

/-- A directory before any call: what the files name is flushed. -/
structure Clean (fs : FileSystem Name β ℕ) : Prop where
  flushed : ∀ n k, some k ∈ fs.links (.file n) → (fs.inode k).synced = true
  old : ∀ k, (fs.inode k).maker = none
  lt : ∀ n k, some k ∈ fs.links (.file n) → k < fs.next
  kept : ∀ n, fs.kept n = (fs.links n).length
  single : ∀ n, (fs.links (.file n)).length ≤ 1

/-- A directory before any call, and no call begun. -/
def start (fs : FileSystem Name β ℕ) : State β := ⟨fs, fun _ => .ready⟩

/-- **Atomic replacement**, from the directory `fs`: what a reader finds under a name is the old
file or all of the data of one call for it, with the mode of the old file; a file stays there; a
call that raised put nothing in place, and what a call put in place that flushed the directory is
there to stay. -/
structure Atomic (jobs : ℕ → Job β) (fs : FileSystem Name β ℕ) (s : State β) : Prop where
  complete : ∀ n k, s.fs.lookup (.file n) = some k →
    (s.fs.inode k = fs.inode k ∧ fs.lookup (.file n) = some k) ∨
      ∃ i, (jobs i).path = n ∧ (s.fs.inode k).maker = some i ∧ (s.fs.inode k).data = (jobs i).data
  mode : ∀ n k, s.fs.lookup (.file n) = some k → ∀ k₀, fs.lookup (.file n) = some k₀ →
    (s.fs.inode k).mode = (fs.inode k₀).mode
  there : ∀ n, fs.lookup (.file n) ≠ none → s.fs.lookup (.file n) ≠ none
  untouched : ∀ i, s.phase i = .raised → ∀ n k, some k ∈ s.fs.links (.file n) →
    (s.fs.inode k).maker ≠ some i
  durable : ∀ i, s.phase i = .returned true → ∃ k, some k ∈ s.fs.durable (.file (jobs i).path) ∧
    (s.fs.inode k).maker = some i

/-- A call starts `install` while no other call for the file is past that, and the power fails when
what `install` wrote and `mv` put in place was written back. -/
def Quiet (jobs : ℕ → Job β) (s : State β) : Event β → Prop
  | .act i _ => ∀ mode, s.phase i = .escalated mode →
    ∀ j, j ≠ i → (jobs j).path = (jobs i).path → (s.phase j).installs = false
  | .powerLoss .. => ∀ n k, some k ∈ s.fs.links (.file n) →
    (s.fs.inode k).installed = true → (s.fs.inode k).synced = true
  | _ => True

end Sysforge.Storage
