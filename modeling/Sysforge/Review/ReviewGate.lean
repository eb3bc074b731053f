import Sysforge.Aur.Refusal
import Sysforge.Git.ShortCircuit
import Sysforge.Install.BatchOrder

/-!
# The review gate of a build

`build_and_install` with `review = "prompt"` as a machine. A call syncs the sources of its targets
and shows each checkout that differs from its review baseline; it then resolves the AUR
dependencies, shows those, and builds dependencies and targets, where every build asks the scheduler
for its source once more. What a fetch finds, what the user answers and how a build ends are the
inputs of the steps.
-/

namespace Sysforge.Review

open Git (Source)
open Install.BatchOrder (Member intraDeps additions)
open TopologicalSorter (staticOrder)

variable {κ : Type*} [DecidableEq κ]

/-! ## Checkouts and the scheduler -/

/-- The path of a directory. -/
structure Dir where
  parent : String
  name : String
  deriving DecidableEq

/-- A directory with a PKGBUILD: outside git, or a checkout at a commit. -/
inductive Checkout (κ : Type*)
  | plain
  | git (head : κ)

/-- What the steps of a run share. -/
structure World (κ : Type*) where
  /-- `none` without a PKGBUILD. -/
  checkout : Dir → Option (Checkout κ)
  /-- The commit that a fetch finds. -/
  upstream : Dir → κ
  /-- `_results`, with whether the result is one that ends a build. -/
  results : Dict String Bool := .empty
  /-- `_reviewed` of the file. -/
  reviewed : Dict String κ := .empty
  /-- The baselines in the entries of packages, which no gate writes. -/
  legacy : Dict String κ := .empty

/-- `head_commit`. -/
def World.headCommit (w : World κ) (dir : Dir) : Option κ :=
  match w.checkout dir with
  | some (.git head) => some head
  | _ => none

/-- `SyncRequest`. -/
structure Request where
  pkgbase : String
  dir : Dir
  source : Source := .aur

/-- How the sync of a checkout ends. -/
inductive Fetched
  | failed
  | unchanged
  | advanced
  deriving DecidableEq

/-- A directory after a fetch or a clone that finds `c`. -/
def Checkout.advance (c : κ) : Option (Checkout κ) → Checkout κ
  | some .plain => .plain
  | _ => .git c

/-- Another checkout in a directory. -/
def World.setCheckout (w : World κ) (dir : Dir) (checkout : Option (Checkout κ)) : World κ :=
  { w with checkout := fun d => if d = dir then checkout else w.checkout d }

/-- The fetch of a checkout, or its clone. -/
def World.fetch (w : World κ) (dir : Dir) : Fetched → World κ × Bool
  | .failed => (w, true)
  | .unchanged => (w, false)
  | .advanced => (w.setCheckout dir (Checkout.advance (w.upstream dir) (w.checkout dir)), false)

/-- `_sync_one`, and whether it fails; a local tree has no remote. -/
def World.syncOne (w : World κ) (req : Request) (f : Fetched) : World κ × Bool :=
  if req.source = .localTree then (w, (w.checkout req.dir).isNone) else w.fetch req.dir f

/-- `request`. -/
def World.request (w : World κ) (req : Request) (f : Fetched) : World κ × Bool :=
  match w.results.get req.pkgbase with
  | some failed => (w, failed)
  | none =>
    let r := w.syncOne req f
    ({ r.1 with results := r.1.results.set req.pkgbase r.2 }, r.2)

/-- `reviewed_commit`, of the baselines `reviewed`. -/
def World.reviewedCommit (w : World κ) (reviewed : Dict String κ) (pkgbase : String)
    (pkgnames : List String) : Option κ :=
  (reviewed.get pkgbase).or (pkgnames.findSome? w.legacy.get)

/-! ## Targets and dependencies -/

/-- `BuildTarget`, with its parsed PKGBUILD. -/
structure Target extends Member where
  dir : Dir
  source : Option Source := none

/-- The source a target is synced and trusted as. -/
def Target.label (t : Target) : Source := t.source.getD .aur

/-- `_order_targets_by_intra_deps`. -/
def orderTargets (targets : List Target) : List Target :=
  if targets.length < 2 then targets else
  let members := targets.map Target.toMember
  let intra := intraDeps members
  if intra.keys = [] then targets else
  match staticOrder (additions members intra) with
  | none => targets
  | some names => names.filterMap (Dict.ofItems (targets.map fun t => (t.pkgbase, t))).get

/-- A dependency as `resolve_aur_deps_batch` finds it: `place` is where `find_pkgbuild` looks for
its PKGBUILD, and `fetched` how a clone to there ends. -/
structure Found where
  name : String
  requiredBy : List String := []
  place : Dir
  fetched : Fetched := .advanced

/-- `ResolvedDep` from the AUR; `dir` is the parent of `pkgbuild_path`. -/
structure Dep where
  name : String
  requiredBy : List String := []
  dir : Option Dir

/-- `find_pkgbuild`: what is there already is left alone. -/
def World.findPkgbuild (w : World κ) (d : Found) : World κ × Dep :=
  let w' := if (w.checkout d.place).isSome then w
    else (w.request { pkgbase := d.place.name, dir := d.place } d.fetched).1
  (w', ⟨d.name, d.requiredBy, if (w'.checkout d.place).isSome then some d.place else none⟩)

/-- `resolve_aur_deps_batch`. -/
def World.resolveDeps (w : World κ) : List Found → World κ × List Dep
  | [] => (w, [])
  | d :: ds =>
    let r := w.findPkgbuild d
    let rs := r.1.resolveDeps ds
    (rs.1, r.2 :: rs.2)

/-- `_requirer_closure`. -/
def requirerClosure (deps : List Dep) (changed : List String) : List String :=
  Aur.requirerClosure
    (deps.map fun d => { name := d.name, source := .aur, requiredBy := d.requiredBy }) changed

/-- The dependencies with a clone. -/
def buildable (deps : List Dep) : List (String × Dir) :=
  deps.filterMap fun d => d.dir.map fun dir => (d.name, dir)

/-! ## The gate -/

/-- The last answer of the user; an end of the input is `abort`. -/
inductive Answer
  | accept
  | skip
  | abort
  deriving DecidableEq

/-- `DECISION_*` -/
inductive Decision
  | accept
  | skip
  | abort
  | clean
  | noGit
  | refused
  deriving DecidableEq

/-- The decision that an answer is. -/
def Answer.decision : Answer → Decision
  | .accept => .accept
  | .skip => .skip
  | .abort => .abort

/-- `review_target`. -/
def reviewTarget (head reviewed : Option κ) (trusted terminal : Bool) (answer : Answer) :
    Decision :=
  if head = none then .noGit else if reviewed = head then .clean else if trusted then .accept
  else if !terminal then .refused else answer.decision

/-- The rows that `review_deps` finds changed, with their `HEAD`. -/
def World.changed (w : World κ) (rows : List (String × Dir)) : List (String × Dir × κ) :=
  rows.filterMap fun row => (w.headCommit row.2).bind fun head =>
    if w.reviewedCommit w.reviewed row.2.name [row.1] = some head then none
    else some (row.1, row.2, head)

/-- What a run did. `presented` is a commit that the gate compared with the baseline and named to
the user, by a question or a notice, and `built` a git checkout handed to makepkg. -/
inductive Entry (κ : Type*)
  | presented (pkgbase : String) (commit : κ)
  | accepted (pkgbase : String) (commit : κ)
  | saved (pkgbase : String) (commit : κ)
  | built (pkgbase : String) (commit : κ) (trusted : Bool)
  deriving DecidableEq

/-! ## A call -/

/-- The arguments of a call. -/
structure Call where
  targets : List Target
  syncSource : Bool
  trusted : List Source := []

/-- What a call does next. -/
inductive Phase
  | idle
  | presync (rest : List Target)
  | review (rest kept : List Target)
  | resolve (targets : List Target)
  | reviewDeps (targets : List Target) (deps : List Dep)
  | buildDeps (dirs : List Dir) (targets : List Target)
  | buildTargets (targets : List Target)

/-- The state of a run; `memory` is `_reviewed` of `bs_review`, `log` has the last entry first. -/
structure State (κ : Type*) extends World κ where
  call : Call := ⟨[], false, []⟩
  phase : Phase := .idle
  memory : Dict String κ := .empty
  log : List (Entry κ) := []

/-- What a step is given. A build `reaches` makepkg or not; one that `fails` ends by an exception
that its caller catches. -/
structure Input where
  fetched : Fetched := .unchanged
  terminal : Bool := true
  answer : Answer := .abort
  /-- Whether the build state can be written. -/
  saves : Bool := true
  found : List Found := []
  /-- Whether the resolution raises. -/
  cycle : Bool := false
  reaches : Bool := true
  fails : Bool := false

variable (s : State κ) (i : Input)

/-- Write to the log. -/
def State.note (entries : List (Entry κ)) : State κ := { s with log := entries ++ s.log }

/-- `_save_review_baseline`, on baselines that were loaded as `reviewed`. -/
def State.saveBaseline (reviewed : Dict String κ) (accepted : List (String × Dir)) : State κ :=
  let heads := accepted.filterMap fun p => (s.headCommit p.2).map fun head => (p.1, head)
  let new := heads.foldl (fun d p => d.set p.1 p.2) reviewed
  { s.note (heads.map fun p => .saved p.1 p.2) with
    memory := new
    reviewed := if i.saves ∧ heads ≠ [] then new else s.reviewed }

/-- The gate is about to review the targets. -/
def State.openReview : State κ :=
  { s with phase := .review s.call.targets [], memory := s.reviewed }

/-- The gate of one target. -/
def State.reviewOne (t : Target) (rest kept : List Target) : State κ :=
  let head := s.headCommit t.dir
  let reviewed := s.reviewedCommit s.memory t.pkgbase t.pkgnames
  let s' := s.note (if reviewed = head then [] else head.toList.map (.presented t.pkgbase))
  match reviewTarget head reviewed (t.label ∈ s.call.trusted) i.terminal i.answer with
  | .noGit | .clean => { s' with phase := .review rest (kept ++ [t]) }
  | .skip | .refused => { s' with phase := .review rest kept }
  | .abort => { s' with phase := .idle }
  | .accept =>
    let s' := s'.note (head.toList.map (.accepted t.pkgbase))
    { s'.saveBaseline i s.memory [(t.pkgbase, t.dir)] with phase := .review rest (kept ++ [t]) }

/-- `prepare_deps` up to the review; a resolution that raises leaves no dependencies. -/
def State.resolve (targets : List Target) : State κ :=
  let r := s.resolveDeps i.found
  { s with
    toWorld := r.1
    phase := if i.cycle then .buildTargets targets
      else .reviewDeps targets (r.2.filter fun d => d.name ∉ targets.map fun t => t.pkgbase) }

/-- The directories of `build_resolved_deps`, each once. -/
def State.buildAll (deps : List Dep) (targets : List Target) : State κ :=
  let dirs := (Dict.ofItems ((buildable deps).map fun row => (row.2, ()))).keys
  { s with phase := .buildDeps dirs targets }

/-- The changed dependencies are accepted, which saves the baselines of all. -/
def State.acceptAll (changed : List (String × Dir × κ)) (targets : List Target)
    (deps : List Dep) : State κ :=
  let s' := s.note (changed.map fun r => .accepted r.2.1.name r.2.2)
  (s'.saveBaseline i s.reviewed
    ((buildable deps).map fun row => (row.2.name, row.2))).buildAll deps targets

/-- What requires a changed dependency goes, among it the targets, which `build_and_install` drops
once the other dependencies are built. -/
def State.refuseAll (changed : List (String × Dir × κ)) (targets : List Target)
    (deps : List Dep) : State κ :=
  let affected := requirerClosure deps (changed.map fun r => r.1)
  s.buildAll (deps.filter fun d => d.name ∉ affected)
    (targets.filter fun t => (t.pkgbase :: t.pkgnames).all fun n => n ∉ affected)

/-- The review of the dependencies, all at once. A skip is no answer here, so the user is asked
again. -/
def State.reviewAll (targets : List Target) (deps : List Dep) : State κ :=
  let changed := s.changed (buildable deps)
  let s' := s.note (changed.map fun r => .presented r.2.1.name r.2.2)
  if changed = [] then s.buildAll deps targets
  else if .aur ∈ s.call.trusted then s'.acceptAll i changed targets deps
  else if !i.terminal then s'.refuseAll changed targets deps
  else if i.answer = .accept then s'.acceptAll i changed targets deps
  else if i.answer = .abort then { s' with phase := .idle }
  else s'

/-! ## The builds -/

/-- A build to come. -/
structure Job where
  pkgbase : String
  dir : Dir
  source : Source

/-- The build of a dependency, whose clone is named for it. -/
def depJob (dir : Dir) : Job := ⟨dir.name, dir, .aur⟩

/-- The build of a target. -/
def Target.job (t : Target) : Job := ⟨t.pkgbase, t.dir, t.label⟩

/-- `makepkg_wrapper.run`: the sync under the name of the directory, which ends the build when it
failed, and makepkg. The flag says whether the sync lets the build go on. -/
def State.build (job : Job) (update : Bool) : State κ × Bool :=
  let r := if update then s.request ⟨job.dir.name, job.dir, job.source⟩ i.fetched
    else (s.toWorld, false)
  let s' := { s with toWorld := r.1 }
  if r.2 then (s', false)
  else if i.reaches then
    (s'.note ((s'.headCommit job.dir).toList.map
      (.built job.pkgbase · (job.source ∈ s.call.trusted))), true)
  else (s', true)

/-- The next step of a call. -/
def State.proceed : State κ :=
  match s.phase with
  | .idle => s
  | .presync [] => s.openReview
  | .presync (t :: ts) =>
    { s with
      toWorld := (s.request ⟨t.pkgbase, t.dir, t.label⟩ i.fetched).1
      phase := .presync ts }
  | .review [] kept =>
    { s with phase := if kept.isEmpty then .idle else .resolve (orderTargets kept) }
  | .review (t :: rest) kept => s.reviewOne i t rest kept
  | .resolve targets => s.resolve i targets
  | .reviewDeps targets deps => s.reviewAll i targets deps
  | .buildDeps [] targets => { s with phase := .buildTargets targets }
  | .buildDeps (dir :: dirs) targets =>
    let r := s.build i (depJob dir) true
    -- a sync that failed exits, which the dependency arm does not catch
    { r.1 with phase := if !r.2 then .idle else if i.fails then .buildTargets targets
        else .buildDeps dirs targets }
  | .buildTargets [] => { s with phase := .idle }
  | .buildTargets (t :: ts) =>
    { (s.build i t.job s.call.syncSource).1 with phase := .buildTargets ts }

/-! ## Runs -/

/-- What happens to a run. Upstream moves at any time and an exception can leave a call at any
time; between calls other commands sync and change checkouts. -/
inductive Event (κ : Type*)
  | push (dir : Dir) (c : κ)
  | start (call : Call)
  | proceed (i : Input)
  | raised
  /-- A new process, with a new scheduler. -/
  | restart
  | sync (req : Request) (f : Fetched)
  | change (dir : Dir) (checkout : Option (Checkout κ))

/-- One event. A target is read from its PKGBUILD, so each of a call has one. -/
def step (s : State κ) : Event κ → State κ
  | .push dir c => { s with upstream := fun d => if d = dir then c else s.upstream d }
  | .start call =>
    match s.phase with
    | .idle =>
      if call.targets.isEmpty ∨ ∃ t ∈ call.targets, (s.checkout t.dir).isNone then s
      else if call.syncSource then { s with call := call, phase := .presync call.targets }
      else State.openReview { s with call := call }
    | _ => s
  | .proceed i => s.proceed i
  | .raised => { s with phase := .idle }
  | .restart => { s with phase := .idle, results := .empty }
  | .sync req f =>
    match s.phase with
    | .idle => { s with toWorld := (s.request req f).1 }
    | _ => s
  | .change dir checkout =>
    match s.phase with
    | .idle => { s with toWorld := s.setCheckout dir checkout }
    | _ => s

/-- Before any review. -/
def init (checkout : Dir → Option (Checkout κ)) (upstream : Dir → κ) : State κ :=
  { checkout := checkout, upstream := upstream }

/-- A commit that the gate presented and that was accepted, for the same pkgbase. -/
def Vouched (log : List (Entry κ)) (pkgbase : String) (c : κ) : Prop :=
  .presented pkgbase c ∈ log ∧ .accepted pkgbase c ∈ log

/-- **Soundness of the gate**: a git checkout of an untrusted source is built at a commit vouched
for before, and a baseline is saved for a commit presented before. -/
def Sound : List (Entry κ) → Prop
  | [] => True
  | .built pkgbase c trusted :: log => (trusted = false → Vouched log pkgbase c) ∧ Sound log
  | .saved pkgbase c :: log => .presented pkgbase c ∈ log ∧ Sound log
  | .presented .. :: log | .accepted .. :: log => Sound log

/-- The builds to come. -/
def State.pending : List Job :=
  match s.phase with
  | .buildDeps dirs targets => dirs.map depJob ++ targets.map Target.job
  | .buildTargets targets => targets.map Target.job
  | _ => []

/-- The request of the next build. -/
def State.buildRequest : Option Request :=
  match s.phase with
  | .buildDeps (dir :: _) _ => some ⟨dir.name, dir, .aur⟩
  | .buildTargets (t :: _) =>
    if s.call.syncSource then some ⟨t.dir.name, t.dir, t.label⟩ else none
  | _ => none

/-- A request that the scheduler answers without moving a checkout, or that brings in a commit
vouched for, for every build to come of that checkout from an untrusted source. -/
def State.Harmless (req : Request) : Prop :=
  req.pkgbase ∈ s.results.keys ∨ req.source = .localTree ∨
    ∀ job ∈ s.pending, job.dir = req.dir →
      job.source ∈ s.call.trusted ∨ Vouched s.log job.pkgbase (s.upstream req.dir)

/-- The sync of a build is harmless, or finds nothing. -/
def Quiet (s : State κ) : Event κ → Prop
  | .proceed i => i.fetched = .advanced → ∀ req ∈ s.buildRequest, s.Harmless req
  | _ => True

end Sysforge.Review
