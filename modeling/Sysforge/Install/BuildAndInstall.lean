import Sysforge.Install.InstallBuilt

/-!
# Building and installing a batch

`build_and_install` from the snapshot on: the dependency arm builds and installs one dependency
after the other, the build loop builds the targets in order and installs the targets a later one
needs just in time, and the rest is installed at the end. Only then are the records of refused
artifacts reverted.
-/

namespace Sysforge.Install

open BuildState

/-- An error of a build, with its diagnosis. -/
structure BuildError where
  text : String
  signature : Option String := none
  fixCmd : Option String := none

/-- `BuildTarget`. -/
structure Target where
  pkgbase : String
  pkgnames : List String
  pkgbuildVer : Option String := none
  forceRebuild : Bool := false

/-- What the build of a target does. A build that returns has recorded its entries and left new
package files; `skew` is the error of the ABI check that then keeps them from being installed. -/
inductive Outcome
  | built (records : List (RecordArgs × String)) (newPkgs : List Artifact)
      (skew : Option BuildError)
  | pgoSkipped
  | alreadyBuilt (existing : List Artifact) (skew : Option BuildError)
  | failed (e : BuildError)
  /-- Any other exception leaves `build_and_install`. -/
  | raised

/-- A target with what happens to it: `interrupted` is a Ctrl-C before it, `searchDir` where its
files are looked for, `now` the clock. -/
structure Job where
  target : Target
  interrupted : Bool := false
  outcome : Outcome
  searchDir : String
  now : String

/-- What the build of a dependency does; a `RuntimeError` ends the dependency arm. -/
inductive DepOutcome
  | built (records : List (RecordArgs × String))
  | alreadyBuilt
  | failed
  | raised

/-- A dependency with the package files that are found for it. -/
structure DepBuild where
  outcome : DepOutcome
  artifacts : List Artifact

/-- A batch in build order, as the review gate and the resolution of dependencies leave it. -/
structure Batch where
  jobs : List Job
  /-- The targets that a target needs. -/
  intraDeps : String → List String
  deps : List DepBuild
  /-- The names a refused dependency review refuses, each with its reason, and the clock. -/
  depRefused : Dict String String
  now : String

/-- The variables of a run. -/
structure Session where
  host : Host
  builtPkgs : List String := []
  failedPkgs : List String := []
  pgoSkippedPkgs : List String := []
  builtPkgFiles : List Artifact := []
  builtFilesByPkgbase : Dict String (List Artifact) := .empty
  jitHandled : List Artifact := []
  jitFiles : List Artifact := []
  notInstalled : Dict Artifact String := .empty
  /-- What the builds of the artifacts recorded. This is for the statements: no code reads it. -/
  made : List (Artifact × Entry) := []

/-- The same run with another build state. -/
def Session.withState (s : Session) (state : BuildState) : Session :=
  { s with host := { s.host with state := state } }

/-- `_record_build_failure`. -/
def recordBuildFailure (s : Session) (t : Target) (e : BuildError) (now : String) : Session :=
  { s.withState (s.host.state.recordFailure
      { pkgbase := t.pkgbase, error := e.text, pkgver := t.pkgbuildVer, signature := e.signature,
        fixCmd := e.fixCmd } now) with
    failedPkgs := s.failedPkgs ++ [t.pkgbase] }

/-- `_record_review_refusal`. -/
def recordReviewRefusal (s : Session) (pkgbase why now : String) : Session :=
  s.withState (s.host.state.recordFailure
    { pkgbase := pkgbase, error := "refused at review: " ++ why, kind := some "review" } now)

/-- The `record` calls of one build. -/
def recordAll (s : BuildState) (records : List (RecordArgs × String)) : BuildState :=
  records.foldl (fun s r => s.record r.1 r.2) s

section

variable (sys : System) (stateDir : Bool) (earlier : Artifact → Option Entry)

/-- What a build recorded for its files. -/
def madeBy (s : BuildState) (records : List (RecordArgs × String)) (files : List Artifact) :
    List (Artifact × Entry) :=
  files.filterMap fun f => (sys.readPkgname f).bind fun pn =>
    if pn ∈ records.map fun r => r.1.pkgname then (s.data.get pn).map fun e => (f, e) else none

/-- What earlier runs recorded for files that are used again. -/
def madeEarlier (files : List Artifact) : List (Artifact × Entry) :=
  files.filterMap fun f => (earlier f).map fun e => (f, e)

/-! ## The dependency arm -/

/-- `install_built_packages`, and whether it returned. -/
def installBuiltPackages (s : Session) (files : List Artifact) : Session × Bool :=
  if files = [] then (s, false)
  else
    match sys.transact s.host.asked files with
    | .installed => ({ s with host := s.host.tried files true }, true)
    | .refused _ => ({ s with host := s.host.tried files false }, false)

/-- The build of one dependency. -/
def buildDep (s : Session) (d : DepBuild) (records : List (RecordArgs × String)) : Session :=
  let s := s.withState (recordAll s.host.state records)
  { s with made := s.made ++ madeBy sys s.host.state records d.artifacts }

/-- `build_resolved_deps`, where a `RuntimeError` is caught by `prepare_deps`; the flag says whether
the run goes on. -/
def buildResolvedDeps : List DepBuild → Session → Session × Bool
  | [], s => (s, true)
  | d :: ds, s =>
    match d.outcome with
    | .raised => (s, false)
    | .failed => (s, true)
    | .built records =>
      let r := installBuiltPackages sys (buildDep sys s d records) d.artifacts
      if r.2 then buildResolvedDeps ds r.1 else (r.1, true)
    | .alreadyBuilt =>
      let r := installBuiltPackages sys
        { s with made := s.made ++ madeEarlier earlier d.artifacts } d.artifacts
      if r.2 then buildResolvedDeps ds r.1 else (r.1, true)

/-! ## The build loop -/

/-- The files of the targets a target needs that no transaction has tried. -/
def pendingDeps (intraDeps : String → List String) (s : Session) (t : Target) : List Artifact :=
  let files := fun dep => (s.builtFilesByPkgbase.get dep).getD []
  let pendingBases := ((intraDeps t.pkgbase).dedup.insertionSort (· ≤ ·)).filter fun dep =>
    (files dep).any fun f => f ∉ s.jitHandled
  pendingBases.flatMap fun dep => (files dep).filter fun f => f ∉ s.jitHandled

/-- The just-in-time install before a target. -/
def installDeps (intraDeps : String → List String) (requested : List String) (s : Session)
    (t : Target) : Session :=
  let pending := pendingDeps intraDeps s t
  if pending = [] then s
  else
    let r := installBuilt sys stateDir requested s.host pending
    { s with
      host := r.host
      jitHandled := s.jitHandled ++ pending
      jitFiles := s.jitFiles ++ r.installed
      notInstalled := s.notInstalled.update r.notInstalled }

/-- The files of a target that has been built, or was built before. -/
def handOver (s : Session) (t : Target) (files : List Artifact) (made : List (Artifact × Entry)) :
    Session :=
  { s with
    builtPkgFiles := s.builtPkgFiles ++ files
    builtFilesByPkgbase := s.builtFilesByPkgbase.set t.pkgbase files
    builtPkgs := s.builtPkgs ++ [t.pkgbase]
    made := s.made ++ made }

/-- The error of a forced rebuild that makepkg skipped. -/
def forcedError : BuildError where
  text := "makepkg reported already built despite -f (forced rebuild): refusing to reuse the " ++
    "stale artifact"

/-- The error of a package that is said to be built and is not there. -/
def missingError (searchDir : String) : BuildError where
  text := "makepkg reported already built but no matching .pkg.tar found in " ++ searchDir

/-- The build of one target; an exception that leaves the run is dealt with before. -/
def buildTarget (s : Session) (j : Job) : Session :=
  match j.outcome with
  | .built records newPkgs skew =>
    let s := s.withState (recordAll s.host.state records)
    match skew with
    | some e => recordBuildFailure s j.target e j.now
    | none => handOver s j.target newPkgs (madeBy sys s.host.state records newPkgs)
  | .pgoSkipped => { s with pgoSkippedPkgs := s.pgoSkippedPkgs ++ [j.target.pkgbase] }
  | .alreadyBuilt existing skew =>
    if j.target.forceRebuild then recordBuildFailure s j.target forcedError j.now
    else
      match skew with
      | some e => recordBuildFailure s j.target e j.now
      | none =>
        if existing = [] then recordBuildFailure s j.target (missingError j.searchDir) j.now
        else handOver s j.target existing (madeEarlier earlier existing)
  | .failed e => recordBuildFailure s j.target e j.now
  | .raised => s

/-- The build loop; the flag says whether it came to its end. -/
def buildLoop (intraDeps : String → List String) (requested : List String) :
    List Job → Session → Session × Bool
  | [], s => (s, true)
  | j :: js, s =>
    if j.interrupted then (s, false)
    else
      let s := installDeps sys stateDir intraDeps requested s j.target
      match j.outcome with
      | .raised => (s, false)
      | _ => buildLoop intraDeps requested js (buildTarget sys earlier s j)

/-- The final install and the revert. -/
def installAndRevert (requested : List String) (prior : Dict String (Option Entry))
    (s : Session) : Session :=
  let remaining := s.builtPkgFiles.filter fun f => f ∉ s.jitHandled
  let r := installBuilt sys stateDir requested s.host remaining
  let notInstalled := s.notInstalled.update r.notInstalled
  let s := { s with
    host := r.host
    notInstalled := notInstalled
    builtPkgFiles := s.jitFiles ++ r.installed }
  if notInstalled.items = [] then s
  else s.withState (revertUninstalledState sys s.host.state notInstalled.keys prior)

/-- The names the targets declare. -/
def declaredNames (jobs : List Job) : List String := jobs.flatMap fun j => j.target.pkgnames

/-- The names by which a refused dependency review can refuse a target. -/
def refusalNames (j : Job) : List String := j.target.pkgbase :: j.target.pkgnames

/-- The reason why a target is refused, that of its first refused name. -/
def refusalOf (refused : Dict String String) (j : Job) : Option String :=
  (((refusalNames j).dedup.filter fun n => n ∈ refused.keys).insertionSort (· ≤ ·)).head?.bind
    refused.get

/-- `build_and_install` from the snapshot on; the flag says whether it returned. -/
def buildAndInstall (b : Batch) (state : BuildState) : Session × Bool :=
  let prior := snapshotState state (declaredNames b.jobs)
  let deps := buildResolvedDeps sys earlier b.deps { host := { state := state } }
  if deps.2 then
    let refused := b.jobs.filterMap fun j => (refusalOf b.depRefused j).map fun why => (j, why)
    let kept := b.jobs.filter fun j => refusalOf b.depRefused j = none
    let s := refused.foldl
      (fun s p => recordReviewRefusal s p.1.target.pkgbase p.2 b.now) deps.1
    if kept = [] then (s, true)
    else
      let bases := kept.map fun j => j.target.pkgbase
      let intraDeps := fun base => (b.intraDeps base).filter (· ∈ bases)
      let requested := declaredNames kept
      let loop := buildLoop sys stateDir earlier intraDeps requested kept s
      if loop.2 then (installAndRevert sys stateDir requested prior loop.1, true) else loop
  else deps

end

end Sysforge.Install
