import Sysforge.Foundations.Run
import Sysforge.Toolchain.ProfdataReuse
import Sysforge.Toolchain.ProfrawMerge

/-!
# The profile store under concurrent runs

Runs of the four-pass build take turns at `pgo_store` under its lock, package builds judge the raw
profiles in it when they end, and instrumented programs write raw profiles whenever they exit. The
steps of all of them interleave; a run can end at any step.
-/

namespace Sysforge.Toolchain.ProfileStore

open Text
open ProfrawMerge (PgoStore mergeBatch batchMax batchMin isSettled settledFiles sweepResult)
open ProfdataReuse (FileText checkExistingProfdata targetMajor)

/-! ## Files -/

/-- A raw profile: a number, and so a file name, of its own, and its modification time in
nanoseconds. -/
structure Raw where
  id : ℕ
  written : ℕ
  deriving DecidableEq

def Raw.mtime (f : Raw) : ℤ := f.written

/-- A second. -/
def second : ℕ := 1000000000

/-- What is known of a finished training: when the store was purged, when the raw profiles of the
first pass were, what the profile holds, what is left on disk, what had been written by then, and
what could not be deleted. -/
structure Training where
  purged : ℕ
  cleaned : ℕ
  profile : Multiset Raw
  left : List Raw
  known : List Raw
  undeleted : List Raw

/-- `clang.profdata.version`, with the training that it was written for. -/
structure Sidecar where
  label : Text
  training : Training

/-! ## Parties -/

/-- A merge under way: `profraw_files[i:]`, `batch_size` and `deleted`. -/
structure Merge where
  left : List Raw
  batchSize : ℕ := batchMax
  deleted : ℕ := 0

/-- How far a run of the four-pass build is. -/
inductive Phase
  /-- It has the lock. -/
  | checking
  /-- Pass 1. -/
  | instrument (purged : ℕ)
  /-- Pass 2. -/
  | bootstrap (purged cleaned : ℕ)
  /-- Pass 3, with the merge that the monitor is at. -/
  | train (purged cleaned : ℕ) (merge : Option Merge)
  /-- The last sweep, with the store as it was listed. -/
  | sweep (purged cleaned : ℕ) (before : PgoStore Raw) (merge : Merge)
  | merged (training : Training)
  /-- Pass 4 with the profile of this run. -/
  | optimize (training : Training)
  /-- Pass 4 with a saved profile, which fits the major version `target`. -/
  | reuse (target : Text) (saved : Sidecar)

/-- The run that has the lock, and when it took it. -/
structure PgoRun where
  started : ℕ
  phase : Phase := .checking

/-- A package build, as far as it comes to the store. -/
inductive Build
  | idle
  | building (start : ℕ)
  /-- It found the lock free. -/
  | probed (start : ℕ)
  /-- It purges orphans. -/
  | purging (start : ℕ) (left : List Raw)

/-- The clock, the store, every raw profile that was written, and those that could not be deleted
when they should have been. -/
structure Files where
  clock : ℕ := 0
  store : PgoStore Raw := ⟨[], none⟩
  sidecar : Option Sidecar := none
  written : List Raw := []
  undeleted : List Raw := []

/-- The files and the parties. -/
structure World (β : Type*) where
  files : Files := {}
  run : Option PgoRun := none
  builds : β → Build := fun _ => .idle

/-- What can happen. `unlink` says which deletions succeed. -/
inductive Event (β : Type*)
  | tick (elapsed : ℕ)
  /-- An instrumented program exits. -/
  | raw
  /-- Files of the store are deleted by hand. -/
  | delete (keep : Raw → Bool) (keepProfdata keepSidecar : Bool)
  | lock
  /-- The saved profile is looked at, and approved. -/
  | reuse (pgoMap : List (Text × FileText))
  /-- `empty_dir_contents` to its end. -/
  | purge
  /-- `empty_dir_contents` up to an error. -/
  | purgeFails (keep : Raw → Bool) (keepProfdata keepSidecar : Bool)
  /-- Pass 1 is over, and what it wrote is purged. -/
  | instrumented (unlink : Raw → Bool)
  | bootstrapped
  /-- `profraw_merge_daemon` wakes. -/
  | wake
  /-- One call of `llvm-profdata merge`. -/
  | attempt (ok : Bool) (unlink : Raw → Bool)
  /-- Pass 3 is over, and `merge_profraw` is called. -/
  | trained
  /-- `write_profdata_version`. -/
  | label (pgoMap : List (Text × FileText)) (ok : Bool)
  /-- The run is over, is killed or fails. -/
  | leave
  | buildStarts (b : β)
  /-- A build succeeds and probes the lock. -/
  | buildProbes (b : β)
  /-- It lists the raw profiles. -/
  | buildLists (b : β)
  | buildUnlinks (b : β) (ok : Bool)
  | buildEnds (b : β)

/-! ## What is done to the files -/

/-- The store as `check_existing_profdata` sees it. -/
def Files.saved (fs : Files) : ProfdataReuse.PgoStore where
  path := []
  profdata := fs.store.profdata.isSome
  version := fs.sidecar.map fun s => .text s.label

/-- The deletion of files. -/
def Files.keep (fs : Files) (keep : Raw → Bool) (keepProfdata keepSidecar : Bool) : Files :=
  { fs with
    store :=
      { raws := fs.store.raws.filter keep
        profdata := if keepProfdata then fs.store.profdata else none }
    sidecar := if keepSidecar then fs.sidecar else none }

/-- The purge of the raw profiles of the first pass. -/
def Files.purgeSpurious (fs : Files) (unlink : Raw → Bool) : Files :=
  { fs with
    store := { fs.store with raws := fs.store.raws.filter (!unlink ·) }
    undeleted := fs.store.raws.filter (!unlink ·) ++ fs.undeleted }

/-- The deletion of a raw profile that may fail. -/
def Files.unlink (fs : Files) (f : Raw) (ok : Bool) : Files :=
  if ok then { fs with store := { fs.store with raws := fs.store.raws.filter (· ≠ f) } } else fs

/-- A raw profile is written. -/
def Files.write (fs : Files) : Files :=
  let f : Raw := ⟨fs.written.length, fs.clock⟩
  { fs with
    store := { fs.store with raws := fs.store.raws ++ [f] }
    written := f :: fs.written }

/-- What is known when a sweep returns. -/
def Files.training (fs : Files) (purged cleaned : ℕ) : Training where
  purged := purged
  cleaned := cleaned
  profile := fs.store.counts
  left := fs.store.raws
  known := fs.written
  undeleted := fs.undeleted

/-- The major version that the PKGBUILDs have. -/
def major (alnum : Char → Bool) (pgoMap : List (Text × FileText)) : Option Text :=
  pgoMap.findSome? fun p => targetMajor alnum p.2

/-! ## Merging -/

/-- The files of the batch that is next. -/
def Merge.batch (m : Merge) : List Raw := m.left.take m.batchSize

/-- `llvm-profdata merge` succeeds; it needs its inputs. -/
def Merge.succeeds (m : Merge) (fs : Files) (ok : Bool) : Bool :=
  ok && m.batch.all (· ∈ fs.store.raws)

/-- What one turn of the loop of `do_profraw_merge` leaves to do. -/
def Merge.next (m : Merge) (ok : Bool) (unlink : Raw → Bool) : Merge :=
  if ok then
    { m with
      left := m.left.drop m.batchSize
      deleted := m.deleted + (m.batch.filter unlink).length }
  else if batchMin < m.batchSize then { m with batchSize := m.batchSize / 2 }
  else { m with left := [] }

/-- The files after one turn of the loop. -/
def Files.merge (fs : Files) (m : Merge) (ok : Bool) (unlink : Raw → Bool) : Files :=
  if ok then
    { fs with
      store := (mergeBatch unlink ⟨fs.store, m.deleted, 0⟩ m.batch).store
      undeleted := m.batch.filter (!unlink ·) ++ fs.undeleted }
  else fs

/-! ## Steps -/

section Steps

variable {β : Type*}

/-- The run goes on. -/
def World.enter (w : World β) (r : PgoRun) (files : Files) (phase : Phase) : World β :=
  { w with files := files, run := some { r with phase := phase } }

/-- The run raises or ends; the lock is free again. -/
def World.leave (w : World β) (files : Files) : World β := { w with files := files, run := none }

/-- `merge_profraw` returns or raises. -/
def World.conclude (w : World β) (r : PgoRun) (files : Files) (purged cleaned : ℕ)
    (before : PgoStore Raw) (deleted : ℕ) : World β :=
  match sweepResult Raw.mtime "" files.clock before ⟨files.store, deleted, 0⟩ with
  | .ok _ => w.enter r files (.merged (files.training purged cleaned))
  | .error _ => w.leave files

/-- `merge_profraw`, up to its first merge. -/
def World.startSweep (w : World β) (r : PgoRun) (purged cleaned : ℕ) : World β :=
  let store := w.files.store
  let settled := settledFiles Raw.mtime w.files.clock store
  if store.raws.isEmpty then
    if store.profdata.isNone then w.leave w.files
    else w.enter r w.files (.merged (w.files.training purged cleaned))
  else if settled.isEmpty then w.conclude r w.files purged cleaned store 0
  else w.enter r w.files (.sweep purged cleaned store { left := settled })

/-- The monitor's merge goes on, or is over. -/
def trainPhase (purged cleaned : ℕ) (m : Merge) : Phase :=
  .train purged cleaned (if m.left.isEmpty then none else some m)

/-- The last merge goes on, or is over. -/
def World.afterAttempt (w : World β) (r : PgoRun) (files : Files) (purged cleaned : ℕ)
    (before : PgoStore Raw) (m : Merge) : World β :=
  if m.left.isEmpty then w.conclude r files purged cleaned before m.deleted
  else w.enter r files (.sweep purged cleaned before m)

/-- The run takes the saved profile, if it is one for what it builds. -/
def World.reuse (alnum : Char → Bool) (w : World β) (r : PgoRun)
    (pgoMap : List (Text × FileText)) : World β :=
  if (checkExistingProfdata alnum w.files.saved pgoMap).kind = .ready then
    match w.files.sidecar, major alnum pgoMap with
    | some s, some target => w.enter r w.files (.reuse target s)
    | _, _ => w
  else w

/-- A step of the run that has the lock. -/
def runStep (alnum : Char → Bool) (w : World β) (r : PgoRun) (event : Event β) : World β :=
  match r.phase, event with
  | _, .leave => w.leave w.files
  | .checking, .reuse pgoMap => w.reuse alnum r pgoMap
  | .checking, .purge =>
    w.enter r (w.files.keep (fun _ => false) false false) (.instrument w.files.clock)
  | .checking, .purgeFails keep profdata sidecar => w.leave (w.files.keep keep profdata sidecar)
  | .instrument purged, .instrumented unlink =>
    w.enter r (w.files.purgeSpurious unlink) (.bootstrap purged w.files.clock)
  | .bootstrap purged cleaned, .bootstrapped => w.enter r w.files (.train purged cleaned none)
  | .train purged cleaned none, .wake =>
    w.enter r w.files
      (trainPhase purged cleaned { left := settledFiles Raw.mtime w.files.clock w.files.store })
  | .train purged cleaned (some m), .attempt ok unlink =>
    let ok := m.succeeds w.files ok
    w.enter r (w.files.merge m ok unlink) (trainPhase purged cleaned (m.next ok unlink))
  | .train purged cleaned none, .trained => w.startSweep r purged cleaned
  | .sweep purged cleaned before m, .attempt ok unlink =>
    let ok := m.succeeds w.files ok
    w.afterAttempt r (w.files.merge m ok unlink) purged cleaned before (m.next ok unlink)
  | .merged t, .label pgoMap ok =>
    match major alnum pgoMap, ok with
    | some m, true => w.enter r { w.files with sidecar := some ⟨m ++ ['\n'], t⟩ } (.optimize t)
    | _, _ => w.enter r w.files (.optimize t)
  | _, _ => w

variable [DecidableEq β]

/-- A package build goes on. -/
def World.build (w : World β) (b : β) (files : Files) (next : Build) : World β :=
  { w with files := files, builds := Function.update w.builds b next }

/-- The post-build check of a package build. -/
def buildStep (w : World β) (b : β) : Build → Event β → World β
  | _, .buildStarts _ => w.build b w.files (.building w.files.clock)
  | _, .buildEnds _ => w.build b w.files .idle
  | .building start, .buildProbes _ =>
    w.build b w.files (if w.run.isSome then .idle else .probed start)
  | .probed start, .buildLists _ =>
    -- a fresh raw profile is fatal, and nothing is purged
    if w.files.store.raws.any fun f => start ≤ f.written + second then w.build b w.files .idle
    else w.build b w.files (.purging start w.files.store.raws)
  | .purging start (f :: left), .buildUnlinks _ ok =>
    w.build b (w.files.unlink f ok) (.purging start left)
  | _, _ => w

/-- The build that an event is about. -/
def Event.build? : Event β → Option β
  | .buildStarts b => some b
  | .buildProbes b => some b
  | .buildLists b => some b
  | .buildUnlinks b _ => some b
  | .buildEnds b => some b
  | _ => none

/-- A step of the build or of the run that an event is about, if there is one. -/
def partyStep (alnum : Char → Bool) (w : World β) (event : Event β) : World β :=
  match event.build?, w.run with
  | some b, _ => buildStep w b (w.builds b) event
  | none, some r => runStep alnum w r event
  | none, none => w

/-- One step; what cannot happen yet changes nothing. -/
def step (alnum : Char → Bool) (w : World β) : Event β → World β
  | .tick elapsed => { w with files := { w.files with clock := w.files.clock + elapsed } }
  | .raw => { w with files := w.files.write }
  | .delete keep profdata sidecar => { w with files := w.files.keep keep profdata sidecar }
  | .lock => if w.run.isSome then w else { w with run := some { started := w.files.clock } }
  | event => partyStep alnum w event

end Steps

/-! ## What holds -/

/-- A training that is whole. -/
structure Training.Whole (t : Training) : Prop where
  /-- What the profile counts was written since the purge. -/
  since : ∀ f ∈ t.profile, f ∈ t.known ∧ t.purged ≤ f.written
  /-- It counts nothing of the first pass, except what could not be deleted. -/
  spurious : ∀ f ∈ t.profile, f.written < t.cleaned → f ∈ t.undeleted
  /-- It counts nothing twice, with the same exception. -/
  once : ∀ f ∉ t.undeleted, t.profile.count f ≤ 1
  /-- What was written after the first pass is counted, or still there. -/
  kept : ∀ f ∈ t.known, t.cleaned < f.written → f ∈ t.profile ∨ f ∈ t.left

/-- The training whose profile the fourth pass uses. -/
def Phase.uses : Phase → Option Training
  | .optimize t => some t
  | .reuse _ s => some s.training
  | _ => none

/-- Nobody deletes files of the store by hand while a run has the lock. -/
def Calm {β : Type*} (w : World β) : Event β → Prop
  | .delete _ _ _ => w.run = none
  | _ => True

end Sysforge.Toolchain.ProfileStore
