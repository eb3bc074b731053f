import Mathlib.Logic.Function.Basic
import Sysforge.Foundations.Run
import Sysforge.Toolchain.ProfdataReuse

/-!
# The staging prefixes of a PGO build

The passes of a PGO build extract packages into prefixes with fixed names in `/var/tmp` and run
compilers out of them. Anybody may create names there; the sticky bit keeps everybody from removing
or renaming what is not theirs. Before a prefix is used it is purged, created for its user alone, and
checked, but others can act between any two of these steps.
-/

namespace Sysforge.Toolchain.Staging

open ProfdataReuse (FileText PgoStore checkExistingProfdata)

/-- The user of the run, or anybody else but root. -/
inductive User | self | other
  deriving DecidableEq

/-- A file in a prefix: who wrote it, and in which run. -/
structure Item where
  package : Text
  writer : User
  run : ℕ

inductive Kind
  | symlink (dangling : Bool)
  | file
  | dir (mode : ℕ) (items : List Item)

/-- What is at a path. -/
structure Node where
  owner : User
  kind : Kind

/-- `pgo_staging1`, `pgo_staging` and `pgo_staging3`. -/
inductive Prefix | stage1 | stage2 | stage3
  deriving DecidableEq

/-- What is at the prefixes. -/
abbrev Nodes := Prefix → Option Node

/-! ## The operations -/

/-- How something that can fail ends: well, or with some of what was there left. -/
inductive Outcome
  | ok
  | failed (kept : Text → Bool)

def Outcome.isOk : Outcome → Bool
  | .ok => true
  | .failed _ => false

/-- Others have a permission to write. -/
def writable (mode : ℕ) : Bool := mode &&& 0o022 != 0

/-- Others have some permission. -/
def shared (mode : ℕ) : Bool := mode &&& 0o077 != 0

/-- `check_private_dir` passes. A missing path does. -/
def checkPrivateDir (checkMode : Bool) : Option Node → Bool
  | none => true
  | some ⟨.self, .dir mode _⟩ => !(checkMode && writable mode)
  | some _ => false

/-- `path.mkdir(mode=0o700)`, where `FileExistsError` is suppressed. -/
def mkdir : Option Node → Option Node
  | none => some ⟨.self, .dir 0o700 []⟩
  | some n => some n

/-- `remove_staging`: `rmtree` of what exists; it refuses a link and a file, and cannot remove what
is somebody else's. -/
def removeStaging (o : Outcome) : Option Node → Option Node × Bool
  | none => (none, true)
  | some ⟨owner, .symlink true⟩ => (some ⟨owner, .symlink true⟩, true)
  | some ⟨.self, .dir mode items⟩ =>
    match o with
    | .ok => (none, true)
    | .failed kept => (some ⟨.self, .dir mode (items.filter fun i => kept i.package)⟩, false)
  | some n => (some n, false)

/-- `tar -xf`, of which a part may be done when it fails. Through a link it writes elsewhere. -/
def untar (run : ℕ) (package : Text) (o : Outcome) : Option Node → Option Node × Bool
  | some ⟨owner, .dir mode items⟩ =>
    (some ⟨owner, .dir mode (items ++ [⟨package, .self, run⟩])⟩, o.isOk)
  | some ⟨owner, .symlink false⟩ => (some ⟨owner, .symlink false⟩, o.isOk)
  | n => (n, false)

/-! ## What a run does -/

/-- A step of a run, as far as the prefixes go. -/
inductive Instr
  | checkPrivateDir (p : Prefix) (checkMode : Bool)
  | mkdir (p : Prefix)
  | untar (p : Prefix) (package : Text)
  | removeStaging (p : Prefix)
  /-- A pass that uses prefixes: for its compiler, or for what it links. -/
  | build (uses : List Prefix) (mayFail : Bool)
  | raise

/-- `ensure_private_dir`. -/
def ensurePrivateDir (p : Prefix) : List Instr := [.mkdir p, .checkPrivateDir p true]

/-- `extract_pkg_to_staging`. -/
def extractPkgToStaging (p : Prefix) (package : Text) : List Instr :=
  ensurePrivateDir p ++ [.untar p package]

/-- `extract_built_to_staging`, of the newest package of each name. -/
def extractBuiltToStaging (p : Prefix) (names : List Text) : List Instr :=
  names.flatMap (extractPkgToStaging p)

/-- `pgo_stage_instrumented`, of the packages that `collect_pgo_packages` finds. -/
def pgoStageInstrumented (p : Prefix) (collected : List Text) : List Instr :=
  if collected = [] then [.raise] else collected.flatMap (extractPkgToStaging p)

/-- `stage_env`. -/
def stageEnv (p : Prefix) : List Instr := [.checkPrivateDir p true]

/-- What a run is about. -/
structure Plan where
  pgoMap : List (Text × FileText)
  nonPgo : List Text
  lib32 : List Text
  /-- The packages of Pass 1. -/
  collected : List Text
  collected_eq_nil : pgoMap = [] → collected = []
  /-- There is a training corpus. -/
  corpus : Bool
  /-- Pass 4 finds a clang in `stage2`. -/
  stagedClang : Bool
  bolt : Bool

namespace Plan

variable (plan : Plan)

def pgo : List Text := plan.pgoMap.map Prod.fst

/-- The purge before Pass 1. -/
def purge : List Instr :=
  [.checkPrivateDir .stage1 false, .checkPrivateDir .stage2 false, .checkPrivateDir .stage3 false,
    .removeStaging .stage1, .removeStaging .stage2, .removeStaging .stage3]

/-- Passes 2 and 3, behind what Pass 1 staged. -/
def train : List Instr :=
  (if plan.nonPgo = [] then [] else [.build [.stage1] false]) ++
    extractBuiltToStaging .stage1 plan.nonPgo ++ stageEnv .stage1 ++ [.build [.stage1] false] ++
    -- a corpus that does not build is given up
    (if plan.corpus then [.build [.stage1] true] else []) ++
    extractBuiltToStaging .stage2 plan.pgo

/-- Pass 4, whose compiler is in `clang`. -/
def optimize (clang : List Prefix) : List Instr :=
  (if clang = [] then [] else .checkPrivateDir .stage2 true :: stageEnv .stage2) ++
    [.build clang false] ++ (if plan.bolt then [.build clang false] else []) ++
    (if plan.nonPgo = [] ∧ plan.lib32 = [] then []
      else .removeStaging .stage3 :: extractBuiltToStaging .stage3 plan.pgo) ++
    (if plan.nonPgo = [] then []
      else .build (.stage3 :: clang) false ::
        (if plan.lib32 = [] then [] else extractBuiltToStaging .stage3 plan.nonPgo)) ++
    (if plan.lib32 = [] then [] else [.build (.stage3 :: clang) false])

/-- What the stage removes when Gate 3 has passed. -/
def cleanup : List Instr := [.removeStaging .stage2, .removeStaging .stage3]

/-- `build_llvm_pgo_inner`, and what follows it. -/
def program (reuse : Bool) : List Instr :=
  if reuse then plan.optimize [] ++ cleanup
  else if plan.collected = [] then
    purge ++ [.build [] false] ++ pgoStageInstrumented .stage1 plan.collected
  else
    purge ++ [.build [] false] ++ pgoStageInstrumented .stage1 plan.collected ++ plan.train ++
      plan.optimize (if plan.stagedClang then [.stage2] else []) ++ cleanup

end Plan

/-! ## Steps -/

/-- An instruction, and whether the run goes on. -/
def exec (run : ℕ) (nodes : Nodes) : Instr → Outcome → Nodes × Bool
  | .checkPrivateDir p checkMode, _ => (nodes, Staging.checkPrivateDir checkMode (nodes p))
  | .mkdir p, _ => (Function.update nodes p (Staging.mkdir (nodes p)), true)
  | .untar p package, o =>
    let done := Staging.untar run package o (nodes p)
    (Function.update nodes p done.1, done.2)
  | .removeStaging p, o =>
    let done := Staging.removeStaging o (nodes p)
    (Function.update nodes p done.1, done.2)
  | .build _ mayFail, o => (nodes, mayFail || o.isOk)
  | .raise, _ => (nodes, false)

/-- The prefixes, and what the run that holds the lock has still to do. -/
structure World where
  nodes : Nodes
  /-- The number of runs so far. -/
  runs : ℕ := 0
  todo : Option (List Instr) := none

/-- What can happen. -/
inductive Event
  /-- Others act on a prefix. -/
  | others (p : Prefix) (n : Option Node)
  /-- The user acts on the prefixes, without a run. -/
  | user (nodes : Nodes)
  /-- A run takes the lock, and looks for a profile that it can reuse. -/
  | start (plan : Plan) (store : PgoStore) (accept : Bool)
  | advance (o : Outcome)
  /-- The run raises or is killed. -/
  | leave

/-- One step; a second run is refused. -/
def step (alnum : Char → Bool) (w : World) : Event → World
  | .others p n => { w with nodes := Function.update w.nodes p n }
  | .user nodes => { w with nodes := nodes }
  | .start plan store accept =>
    if w.todo.isSome then w
    else
      { w with
        runs := w.runs + 1
        todo := plan.program
          (accept && (checkExistingProfdata alnum store plan.pgoMap).kind = .ready) }
  | .advance o =>
    match w.todo with
    | some (i :: rest) =>
      let done := exec w.runs w.nodes i o
      { w with nodes := done.1, todo := if done.2 then some rest else none }
    | _ => { w with todo := none }
  | .leave => { w with todo := none }

/-! ## What others can do -/

/-- What others can put at a free name: something of theirs, a hard link to a file of the user, or a
directory of the user that they could write to where it was before. -/
def Plantable : Option Node → Prop
  | some ⟨.self, .dir mode _⟩ => writable mode = true
  | _ => True

/-- What others can make of a prefix in a sticky directory. -/
def Others : Option Node → Option Node → Prop
  | some ⟨.self, .dir mode items⟩, n =>
    n = some ⟨.self, .dir mode items⟩ ∨
      shared mode = true ∧ ∃ items', n = some ⟨.self, .dir mode items'⟩
  | some ⟨.self, .symlink _⟩, n => ∃ dangling, n = some ⟨.self, .symlink dangling⟩
  | some ⟨.self, .file⟩, n => n = some ⟨.self, .file⟩
  | _, n => Plantable n

/-- What can happen at all. The user leaves the prefixes alone while there is a run. -/
def Possible (w : World) : Event → Prop
  | .others p n => Others (w.nodes p) n
  | .user _ => w.todo = none
  | _ => True

/-- Besides, nobody takes a name back between `mkdir` and the check, which passes where there is
nothing. -/
def Fair (w : World) (event : Event) : Prop :=
  Possible w event ∧ ∀ p rest, event = .others p none →
    w.todo = some (.checkPrivateDir p true :: rest) → w.nodes p = none

/-- A directory that only the user can write to, with nothing in it but what the run extracted. -/
def Private (run : ℕ) (n : Option Node) : Prop :=
  ∃ items, n = some ⟨.self, .dir 0o700 items⟩ ∧ ∀ i ∈ items, i.writer = .self ∧ i.run = run

end Sysforge.Toolchain.Staging
