import Sysforge.Foundations.Run
import Sysforge.Toolchain.Rollback

/-!
# The install window of the toolchain stage

The stage changes the system only in a window that a record on disk brackets: it arms the record,
installs what it built, verifies the system, and rolls back when that fails. A run can raise or be
killed between any two steps, and a record that is left behind offers a recovery to the next run.
-/

namespace Sysforge.Toolchain.Window

variable {β : Type*}

/-- `Recovery`, as far as the stage stores it. -/
inductive Recovery
  | pacmanSync (names : List String)
  | pacmanUpgrade (files : List String)

/-- `snapshot_recovery`. -/
def snapshotRecovery (snapshot : List (String × Option String)) (added : List String) : Recovery :=
  let files := snapshot.filterMap Prod.snd
  if added = [] ∧ files ≠ [] ∧ snapshot.all (·.2.isSome) then .pacmanUpgrade files
  else .pacmanSync (llvmLockstepSuite ++ added).eraseDups

/-- What a run knows when it begins to build: the host, what it builds, and the installed packages,
of which it takes its install set and its snapshot. -/
structure Prepared (β : Type*) where
  host : Host β
  built : Dict String String
  before : Installed β

namespace Prepared

variable (r : Prepared β)

/-- `install_set`. -/
def installSet : List String := installNames r.host r.before r.built

/-- `snapshot`. -/
def snapshot : List (String × Option String) :=
  snapshotSuite r.host r.before r.built r.installSet

/-- The archives of the snapshot. -/
def archives : List String := r.snapshot.filterMap Prod.snd

/-- What is going to be installed. -/
def chosen (files : Files β) : List String :=
  selectInstallMembers files (collectPgoPackages r.host files r.built) r.installSet

/-- `added`. -/
def added (files : Files β) : List String :=
  installAdds r.host files r.before r.built r.installSet

end Prepared

/-- Where a run is. -/
inductive Phase (β : Type*)
  | building (r : Prepared β)
  | armed (r : Prepared β) (added : List String)
  | installed (r : Prepared β) (added : List String)
  /-- Gate 3 has found issues. -/
  | failed (r : Prepared β) (added : List String)
  /-- The rollback went well. -/
  | restored
  /-- The stock packages are about to be installed from the repositories. -/
  | repo

/-- The host between two steps. -/
structure World (β : Type*) where
  installed : Installed β
  /-- The packages that were last vouched for: by whoever changed them outside of a run, by Gate 3,
  by an install from the repositories, or by who removed a record by hand. -/
  base : Installed β
  files : Files β
  /-- `stage_in_progress.toml`. -/
  record : Option Recovery := none
  run : Option (Phase β) := none

/-- What can happen. -/
inductive Event (β : Type*)
  /-- Somebody else changes the packages. -/
  | others (sys : Installed β)
  /-- Files come and go. -/
  | files (files : Files β)
  /-- A run passes the gate at the command line, and takes its snapshot. -/
  | prepare (host : Host β) (built : Dict String String)
  /-- Gate 2 has passed and `sudo` is there. -/
  | arm
  | install (o : Outcome)
  /-- Gate 3. -/
  | verify
  | rollBack (removal install : Outcome)
  /-- `sentinel.clear()` after a rollback. -/
  | clear
  /-- A run with `repo_mode = "pacman"` arms its record. -/
  | armRepo (suite : List String)
  | repoInstall (sys : Installed β) (ok : Bool)
  /-- The run raises or is killed. -/
  | leave
  /-- The recovery of a record is accepted: `pacman -U` of archives. -/
  | recover (o : Outcome)
  /-- The same with `pacman -S`, and what it makes of the packages. -/
  | recoverRepo (sys : Installed β) (ok : Bool)
  /-- The record is removed by hand. -/
  | dismiss

/-! ## Steps -/

/-- A step of a run, by what the system is to Gate 3. -/
def runStep (coherent : Installed β → Bool) (w : World β) : Phase β → Event β → World β
  | _, .leave => { w with run := none }
  | .building r, .arm =>
    { w with
      record := some (snapshotRecovery r.snapshot (r.added w.files))
      run := some (.armed r (r.added w.files)) }
  | .armed r added, .install o =>
    let done := pgoInstall r.host w.files w.installed o r.built false (some r.installSet)
    { w with installed := done.2, run := if done.1 then some (.installed r added) else none }
  | .installed r added, .verify =>
    if coherent w.installed then { w with base := w.installed, record := none, run := none }
    else { w with run := some (.failed r added) }
  | .failed r added, .rollBack removal install =>
    let done := rollbackToSnapshot r.host w.files w.installed removal install r.snapshot added
    { w with installed := done.2, run := if done.1 then some .restored else none }
  | .restored, .clear => { w with record := none, run := none }
  | .repo, .repoInstall sys ok =>
    if ok then { w with installed := sys, base := sys, record := none, run := none }
    else { w with installed := sys, run := none }
  | _, _ => w

/-- An answer to the record that an interrupted run left. -/
def recoverStep (w : World β) : Recovery → Event β → World β
  | .pacmanUpgrade files, .recover o =>
    if files.all fun p => (w.files p).isSome then
      let done := pacmanU w.files w.installed o files
      { w with installed := done.2, record := if done.1 then none else w.record }
    else w
  | .pacmanSync _, .recoverRepo sys ok =>
    if ok then { w with installed := sys, base := sys, record := none }
    else { w with installed := sys }
  | _, .dismiss => { w with base := w.installed, record := none }
  | _, _ => w

/-- What begins without a run and without a record. -/
def startStep (w : World β) : Event β → World β
  | .prepare host built => { w with run := some (.building ⟨host, built, w.installed⟩) }
  | .armRepo suite => { w with record := some (.pacmanSync suite), run := some .repo }
  | _ => w

/-- One step; what cannot happen changes nothing. -/
def step (coherent : Installed β → Bool) (w : World β) : Event β → World β
  | .others sys => { w with installed := sys, base := sys }
  | .files files => { w with files := files }
  | event =>
    match w.run, w.record with
    | some phase, _ => runStep coherent w phase event
    | none, some recovery => recoverStep w recovery event
    | none, none => startStep w event

/-! ## What is relied on -/

/-- The archives that may still be needed. -/
def World.needed (w : World β) : List String :=
  match w.run, w.record with
  | some (.building r), _ => r.archives
  | _, some (.pacmanUpgrade files) => files
  | _, _ => []

/-- The run is in the window. -/
def World.inWindow (w : World β) : Bool :=
  match w.run with
  | none => false
  | some (.building _) => false
  | _ => true

/-- What others are relied on for: they change packages only when there are no run and no record,
leave the files alone in the window and the archives that are needed always, the cached archives hold
the builds that are installed, and what the PKGBUILDs say matches what they build. -/
def Fair (w : World β) : Event β → Prop
  | .others _ => w.run = none ∧ w.record = none
  | .files files => w.inWindow = false ∧ ∀ p ∈ w.needed, files p = w.files p
  | .prepare host built => ∀ n p, (n, some p) ∈ (Prepared.mk host built w.installed).snapshot →
      Restores w.files w.installed p n
  | .arm => ∀ r, w.run = some (.building r) → Matches r.host w.files r.built
  | _ => True

/-- The packages are these. -/
def Same (sys sys' : Installed β) : Prop := ∀ n, sys.get n = sys'.get n

end Sysforge.Toolchain.Window
