import Mathlib.Data.List.Sort
import Mathlib.Data.String.Basic
import Sysforge.Foundations.Regex
import Sysforge.Git.Repository

/-!
# Syncing and purging a checkout

`git_fetch_and_compare`, the scheduler's `_fetch` and `purge_src`, with the helpers that decide from
git's output whether a checkout holds work of the user. Each git command can fail; which ones do is
an argument. `_fetch` also returns the commands that moved `HEAD`.
-/

namespace Sysforge.Git

open Text

variable {κ : Type*} [DecidableEq κ] (h : History κ) (d : Differ) (lower : Text → Text) (r : Repo κ)

/-! ## Uncommitted changes -/

/-- `_PKGVER_LINE_RE`. -/
def pkgverLineRe : Re :=
  .seq .bol (.seq (.char fun c => c = '+' || c = '-') (.seq (.star Re.space)
    (.seq (.group 1 (Re.oneOf ["pkgver".toList, "pkgrel".toList])) (.seq (.star Re.space)
      (.seq (Re.lit1 '=') (.seq (.star Re.space) (.seq Re.nonSpace (.seq (.star Re.dot) .eol))))))))

/-- The openings of the lines of a diff that are no content. -/
def metadata : List Text :=
  ["diff ".toList, "index ".toList, "--- ".toList, "+++ ".toList, "@@ ".toList]

/-- The loop of `_diff_is_pkgver_only`; `saw` says whether a content line was seen. -/
def pkgverOnly : List Text → Bool → Bool
  | [], saw => saw
  | l :: ls, saw =>
    if l = [] ∨ metadata.any (fun w => w.isPrefixOf l) then pkgverOnly ls saw
    else if l.head?.any (fun c => c = '+' || c = '-') then
      if (Re.matchAt pkgverLineRe l 0).isNone then false else pkgverOnly ls true
    else pkgverOnly ls saw

/-- Which commands of a check for local work fail. -/
structure Failing where
  gitDir : Bool := false
  head : Bool := false
  upstream : Bool := false
  countLocal : Bool := false
  countUpstream : Bool := false
  email : Bool := false
  log : Bool := false
  status : Bool := false
  diff : Bool := false

variable (f : Failing)

/-- `_diff_is_pkgver_only`. -/
def diffIsPkgverOnly (path : Text) : Bool :=
  if f.diff || r.headCommit.isNone then false
  else pkgverOnly (splitlines (diff d path ((r.headTree h).get path) (r.tracked path))) false

/-- The path on a line of `git status`. -/
def statusPath (line : Text) : Option Text :=
  let path := strip (line.drop 3)
  if line.length < 4 ∨ path = [] then none
  else match find " -> ".toList path with
    | some i => some (strip (path.drop (i + 4)))
    | none => some path

/-- `.SRCINFO` -/
def srcinfo : Text := ".SRCINFO".toList

/-- `PKGBUILD` -/
def pkgbuild : Text := "PKGBUILD".toList

/-- `_uncommitted_dirty_paths`. -/
def uncommittedDirtyPaths (isVcs : Bool) : List Text :=
  if f.status || strip (r.status h) = [] then []
  else ((splitlines (r.status h)).filterMap statusPath).filter fun path =>
    !(isVcs && path = srcinfo) && !(isVcs && path = pkgbuild && diffIsPkgverOnly h d r f path)

/-! ## The history -/

/-- What `classify_head_vs_upstream` says of `HEAD`. -/
inductive HeadState
  | notARepo
  | noHead
  | noTracking
  | clean
  | behind
  | ahead
  | divergedUser
  | divergedUpstream
  deriving DecidableEq

/-- `_local_user_email`. -/
def localUserEmail : Option Text :=
  if f.email then none else (r.userEmail.map strip).filter (· ≠ [])

/-- The split of divergent histories on authorship. -/
def divergedState (u c : κ) : HeadState :=
  match localUserEmail r f with
  | none => .divergedUser
  | some email =>
    let authors := ((splitlines (Repo.log h (Repo.range h u c))).map strip).filter (· ≠ [])
    if f.log || lower email ∈ authors.map lower then .divergedUser else .divergedUpstream

/-- `classify_head_vs_upstream`. -/
def classifyHeadVsUpstream : HeadState × ℕ × ℕ :=
  if f.gitDir then (.notARepo, 0, 0)
  else match if f.head then none else r.headCommit with
    | none => (.noHead, 0, 0)
    | some c =>
      match if f.upstream then none else r.upstreamCommit with
      | none => (.noTracking, 0, 0)
      | some (_, u) =>
        let nLocal := if f.countLocal then 0 else (Repo.range h u c).length
        let nUpstream := if f.countUpstream then 0 else (Repo.range h c u).length
        if nLocal = 0 ∧ nUpstream = 0 then (.clean, 0, 0)
        else if nLocal = 0 then (.behind, 0, nUpstream)
        else if nUpstream = 0 then (.ahead, nLocal, 0)
        else (divergedState h lower r f u c, nLocal, nUpstream)

/-- `git_is_dirty`. -/
def gitIsDirty (isVcs : Bool) : Bool :=
  let state := (classifyHeadVsUpstream h lower r f).1
  if state = .notARepo ∨ state = .noHead then false
  else uncommittedDirtyPaths h d r f isVcs ≠ [] ||
    state ∈ [HeadState.noTracking, .ahead, .divergedUser]

/-! ## Purging -/

/-- The causes that refuse a purge; `contains` says whether `git branch -r` fails. -/
def purgeCauses (contains isVcs : Bool) : List String :=
  let state := (classifyHeadVsUpstream h lower r f).1
  let dirty := (uncommittedDirtyPaths h d r f isVcs).map String.ofList
  (if dirty = [] then []
    else ["uncommitted tracked changes (" ++
      ", ".intercalate (dirty.insertionSort (· ≤ ·)) ++ ")"]) ++
  if state = .ahead then
    [toString (classifyHeadVsUpstream h lower r f).2.1 ++ " unpushed commit(s) ahead of upstream"]
  else if state = .divergedUser then ["diverged history with local-user-authored commits"]
  else if state = .noTracking ∧ (contains || !r.remoteContains h) then
    ["no upstream tracking branch"]
  else []

/-- `_purge_refusal_message`. -/
def purgeRefusalMessage (contains : Bool) (dir : String) (isVcs : Bool) : Option String :=
  let state := (classifyHeadVsUpstream h lower r f).1
  let causes := purgeCauses h d lower r f contains isVcs
  if state = .notARepo ∨ state = .noHead ∨ causes = [] then none
  else some ("refusing to purge " ++ dir ++ ": " ++ "; ".intercalate causes ++
    ": commit/discard the change or pass --cleansrc-force")

/-- `purge_src` of a directory that exists: it is deleted, or the purge is refused. -/
def purgeSrc (isGit contains : Bool) (dir : String) (force isVcs : Bool) : Except String Unit :=
  if isGit && !force then
    match purgeRefusalMessage h d lower r f contains dir isVcs with
    | some reason => .error reason
    | none => .ok ()
  else .ok ()

/-! ## Fetching -/

/-- How a fetch ends. -/
inductive Fetched (κ : Type*)
  /-- with the refs and `FETCH_HEAD` it brings -/
  | ok (remotes tags : Dict Text κ) (fetchHead : Option κ)
  | failed
  | rateLimited

/-- The statuses of a `GitFetchOutcome`. -/
inductive FetchStatus
  | notARepo
  | noTracking
  | failed
  | rateLimited
  | upToDate
  | diverged
  | fetched
  deriving DecidableEq

/-- `GitFetchOutcome`. -/
structure GitFetchOutcome (κ : Type*) where
  status : FetchStatus
  headBefore : Option κ
  headAfter : Option κ

/-- The commands that move `HEAD`. -/
inductive MoveKind
  | fastForward
  | reset
  | pin
  deriving DecidableEq

/-- A command that moved `HEAD`. -/
structure Move (κ : Type*) where
  kind : MoveKind
  before : Repo κ
  after : Repo κ

/-- How the commands of `git_fetch_and_compare` end: which fail, and what the fetch of a branch
brings. -/
structure Compare (κ : Type*) where
  gitDir : Bool := false
  upstream : Bool := false
  head : Bool := false
  fetch : Text → Text → Fetched κ
  fetchHead : Bool := false
  ancestor : Bool := false
  dirty : Failing := {}
  merge : Bool := false

/-- The remote and the branch that `tracking` names. -/
def remoteBranch (tracking : Text) : Text × Text :=
  if '/' ∈ tracking then
    (tracking.takeWhile (· ≠ '/'), (tracking.dropWhile (· ≠ '/')).tail)
  else ("origin".toList, tracking)

/-- What `git_fetch_and_compare` does once the fetch is done. -/
def compareFetched (a : Compare κ) (headBefore : Option κ) :
    GitFetchOutcome κ × Repo κ × List (Move κ) :=
  match headBefore, if a.fetchHead then none else r.fetchHead with
  | some b, some c =>
    if b = c then (⟨.upToDate, some b, some b⟩, r, [])
    else if a.ancestor || !decide (b ∈ h.ancestors c) || gitIsDirty h d lower r a.dirty false then
      (⟨.diverged, some b, some c⟩, r, [])
    else match if a.merge then none else r.mergeFf h c with
      | none => (⟨.failed, some b, some c⟩, r, [])
      | some r' => (⟨.fetched, some b, some c⟩, r', [⟨.fastForward, r, r'⟩])
  | b, c => (⟨.failed, b, c⟩, r, [])

/-- `git_fetch_and_compare`. -/
def gitFetchAndCompare (a : Compare κ) : GitFetchOutcome κ × Repo κ × List (Move κ) :=
  if a.gitDir then (⟨.notARepo, none, none⟩, r, [])
  else match if a.upstream then none else r.upstreamCommit with
    | none => (⟨.noTracking, none, none⟩, r, [])
    | some (u, _) =>
      let headBefore := if a.head then none else r.headCommit
      let rb := remoteBranch u.abbrev
      match a.fetch rb.1 rb.2 with
      | .failed => (⟨.failed, headBefore, none⟩, r, [])
      | .rateLimited => (⟨.rateLimited, headBefore, none⟩, r, [])
      | .ok remotes tags fetchHead =>
        compareFetched h d lower { r with remotes := remotes, tags := tags, fetchHead := fetchHead }
          a headBefore

/-! ## The scheduler's fetch -/

/-- The statuses of a `SyncResult` that a fetch ends with. -/
inductive SyncStatus
  | frozen
  | failed
  | rateLimited
  | upToDate
  | diverged
  | fetched
  | skippedNoTracking
  deriving DecidableEq

/-- The parts of a `SyncResult` that say where `HEAD` was and is. -/
structure SyncResult (κ : Type*) where
  status : SyncStatus
  headBefore : Option κ
  headAfter : Option κ

/-- How the commands of `_fetch` end. -/
structure Sync (κ : Type*) where
  /-- the source freeze refuses the fetch -/
  frozen : Bool := false
  compare : Compare κ
  /-- `git fetch --tags origin` -/
  tags : Fetched κ
  dirty : Failing := {}
  reset : Bool := false
  /-- `git rev-parse HEAD` fails after the reset -/
  resetHead : Bool := false
  uncommitted : Failing := {}
  /-- the release pacman offers, and the commit of its tag when `pkgctl` reaches it -/
  release : Option (Option κ)

/-- `_pin_repo_checkout`; `none` when the switch fails. -/
def pinRepoCheckout (stable : Bool) (release : Option (Option κ)) :
    Option (Repo κ × List (Move κ)) :=
  if !stable then some (r, [])
  else match release with
    | none => some (r, [])
    | some none => none
    | some (some c) => (r.switchVersion h c).map fun r' => (r', [⟨.pin, r, r'⟩])

/-- The reset of a checkout without local work that diverged. -/
def resetDiverged (isVcs : Bool) (a : Sync κ) (o : GitFetchOutcome κ) :
    GitFetchOutcome κ × Repo κ × List (Move κ) :=
  if o.status = .diverged ∧ gitIsDirty h d lower r a.dirty isVcs = false then
    match if a.reset then none else r.fetchHead with
    | none => (o, r, [])
    | some c =>
      let r' := r.resetHard h c
      let moves := [⟨.reset, r, r'⟩]
      if a.resetHead then (o, r', moves) else (⟨.fetched, o.headBefore, some c⟩, r', moves)
  else (o, r, [])

/-- The result for an outcome that needs nothing more. -/
def syncResult (o : GitFetchOutcome κ) : SyncResult κ :=
  match o.status with
  | .notARepo => ⟨.upToDate, none, none⟩
  | .noTracking => ⟨.skippedNoTracking, o.headBefore, o.headAfter⟩
  | .failed => ⟨.failed, o.headBefore, o.headAfter⟩
  | .rateLimited => ⟨.rateLimited, o.headBefore, o.headAfter⟩
  | .upToDate => ⟨.upToDate, o.headBefore, o.headAfter⟩
  | .diverged => ⟨.diverged, o.headBefore, o.headAfter⟩
  | .fetched => ⟨.fetched, o.headBefore, o.headAfter⟩

/-- The re-pin of a repo checkout that is up to date or fetched. -/
def rePin (isVcs repoStable : Bool) (a : Sync κ) (o : GitFetchOutcome κ) :
    SyncResult κ × Repo κ × List (Move κ) :=
  if repoStable && (o.status = .upToDate || o.status = .fetched) then
    if uncommittedDirtyPaths h d r a.uncommitted isVcs ≠ [] then
      (⟨.diverged, o.headBefore, o.headAfter⟩, r, [])
    else match pinRepoCheckout h r repoStable a.release with
      | none => (⟨.failed, r.headCommit, r.headCommit⟩, r, [])
      | some (r', moves) =>
        if r'.headCommit ≠ r.headCommit then
          (⟨.fetched, r.headCommit, r'.headCommit⟩, r', moves)
        else (syncResult o, r', moves)
  else (syncResult o, r, [])

/-- `_fetch`, of a checkout of the source `repo` or another one, with `repo_track` on `stable` or
not. -/
def fetch (isVcs repo stable : Bool) (a : Sync κ) : SyncResult κ × Repo κ × List (Move κ) :=
  if a.frozen then (⟨.frozen, none, none⟩, r, [])
  else
    let (o, r₁, moves) := gitFetchAndCompare h d lower r a.compare
    let repoStable := repo && stable
    if repoStable && o.status = .noTracking then
      match a.tags with
      | .ok remotes tags fetchHead =>
        rePin h d { r₁ with remotes := remotes, tags := tags, fetchHead := fetchHead } isVcs
          repoStable a ⟨.upToDate, r₁.headCommit, r₁.headCommit⟩
      | _ => (⟨.failed, r₁.headCommit, none⟩, r₁, moves)
    else if o.status = .rateLimited then (⟨.rateLimited, o.headBefore, o.headAfter⟩, r₁, moves)
    else
      let (o, r₂, resets) := resetDiverged h d lower r₁ isVcs a o
      let (result, r₃, pins) := rePin h d r₂ isVcs repoStable a o
      (result, r₃, moves ++ resets ++ pins)

end Sysforge.Git
