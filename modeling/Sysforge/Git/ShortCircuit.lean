import Sysforge.Git.SourceSync

/-!
# The fetch short-circuit

`SourceSyncScheduler._sync_one` for one package: a checkout that the AUR RPC entry and the entry of
`source_meta.toml` show to be current is not fetched. The scheduler's own fetch is `fetch`; what
each command answers is an argument.
-/

namespace Sysforge.Git

open Text

/-! ## The checkout -/

/-- Where `origin` points. -/
inductive Origin
  | missing
  /-- at the AUR, with the package base that the path names -/
  | aur (pkgbase : Option Text)
  | other
  deriving DecidableEq

/-- The directory of a package, a git checkout. -/
structure Checkout (κ : Type*) where
  origin : Origin
  repo : Repo κ

variable {κ : Type*}

/-- `is_aur_checkout`. -/
def isAurCheckout : Option (Checkout κ) → Bool
  | none => true
  | some c => c.origin ≠ .other

/-- `aur_origin_pkgbase`. -/
def aurOriginPkgbase (c : Checkout κ) : Option Text :=
  match c.origin with
  | .aur pkgbase => pkgbase
  | .missing => none
  | .other => none

/-- The directory holds a `PKGBUILD`. -/
def hasPkgbuild (c : Checkout κ) : Bool := (c.repo.worktree.get pkgbuild).isSome

/-! ## The cache -/

/-- What the AUR RPC says of a package. -/
structure RpcEntry where
  version : Text
  lastModified : ℤ
  packageBase : Text

/-- An entry of `source_meta.toml`. -/
structure SourceMeta (κ : Type*) where
  rpcVersion : Option Text := none
  rpcLastModified : Option ℤ := none
  rpcPackageBase : Option Text := none
  headCommit : Option κ := none

/-- `SourceMetaCache.update`: a field that is not given is kept. -/
def SourceMeta.update (m : Option (SourceMeta κ)) (new : SourceMeta κ) : Option (SourceMeta κ) :=
  let entry := m.getD {}
  some {
    rpcVersion := new.rpcVersion.or entry.rpcVersion
    rpcLastModified := new.rpcLastModified.or entry.rpcLastModified
    rpcPackageBase := new.rpcPackageBase.or entry.rpcPackageBase
    headCommit := new.headCommit.or entry.headCommit }

/-- `SourceMetaCache.forget_rpc`. -/
def SourceMeta.forgetRpc (m : Option (SourceMeta κ)) : Option (SourceMeta κ) :=
  m.map fun entry => { headCommit := entry.headCommit }

/-- `_rpc_vouches`. -/
def rpcVouches (c : Checkout κ) : Option RpcEntry → Bool
  | none => false
  | some e => aurOriginPkgbase c = some e.packageBase

/-- `_record_rpc`. -/
def recordRpc (m : Option (SourceMeta κ)) (c : Checkout κ) (rpc : Option RpcEntry) :
    Option (SourceMeta κ) :=
  match rpc with
  | some e =>
    if rpcVouches c rpc then
      SourceMeta.update m { rpcVersion := e.version, rpcLastModified := e.lastModified,
                            rpcPackageBase := e.packageBase }
    else SourceMeta.forgetRpc m
  | none => SourceMeta.forgetRpc m

variable [DecidableEq κ]

/-- `_can_short_circuit`. -/
def canShortCircuit (rpc : Option RpcEntry) (m : Option (SourceMeta κ)) (localHead : Option κ) :
    Bool :=
  match rpc, m with
  | some e, some entry =>
    some e.version = entry.rpcVersion && some e.lastModified = entry.rpcLastModified &&
      localHead = entry.headCommit
  | _, _ => false

/-! ## The scheduler -/

/-- What the source freeze can deny. -/
inductive Kind
  | sourceFetch
  | aurClone
  | repoCheckout

/-- The `source` of a request. -/
inductive Source
  | aur
  | repo
  | git
  | localTree
  deriving DecidableEq

/-- The options of a scheduler, with what the network policy denies. -/
structure Config where
  offline : Bool := false
  cleansrc : Bool := false
  cleansrcForce : Bool := false
  /-- `repo_track` is `stable` -/
  repoStable : Bool := true
  aurEnabled : Bool := true
  frozen : Kind → Bool := fun _ => false

/-- `SyncRequest`, for the package at hand. -/
structure Request where
  source : Source := .aur
  forceFetch : Bool := false

/-- How a clone ends. A clone that succeeds has a commit; a failed one may leave a directory. -/
inductive Cloned (κ : Type*)
  | ok (c : Checkout κ) (head : κ) (eq : c.repo.headCommit = some head)
  | failed (left : Option (Checkout κ))
  | rateLimited (left : Option (Checkout κ))

/-- How the commands of a sync end. -/
structure Commands (κ : Type*) where
  purge : Failing := {}
  contains : Bool := false
  /-- `purge_srcdest` fails -/
  srcdest : Bool := false
  clone : Cloned κ
  sync : Sync κ
  /-- the penalty of a rate limit passes the threshold -/
  abort : Bool := false

/-- The statuses of a `SyncResult`. -/
inductive ResultStatus
  | ofSync (s : SyncStatus)
  | cloned
  | purgeRefused
  | skippedOffline
  | skippedLocal
  | skippedAurDisabled
  deriving DecidableEq

/-- What the scheduler knows of the package. -/
structure Scheduler (κ : Type*) where
  rpc : Option RpcEntry := none
  cache : Option (SourceMeta κ) := none
  aborted : Bool := false

/-- A result, with the scheduler and the directory after it, and whether a remote was asked. -/
structure Outcome (κ : Type*) where
  status : ResultStatus
  scheduler : Scheduler κ
  checkout : Option (Checkout κ)
  asked : Bool := false

section SyncOne

variable (h : History κ) (d : Differ) (lower : Text → Text) (isVcs : Bool) (dir : String)
  (cfg : Config) (req : Request) (cmd : Commands κ)

/-- `purge_src` and `purge_srcdest`: what is left of the directory, and whether both succeed. -/
def purgeBoth (c : Checkout κ) : Option (Checkout κ) × Bool :=
  match purgeSrc h d lower c.repo cmd.purge true cmd.contains dir cfg.cleansrcForce isVcs with
  | .error _ => (some c, false)
  | .ok _ => (none, !cmd.srcdest)

/-- The kind of a clone. -/
def cloneKind : Kind := if req.source = .repo then .repoCheckout else .aurClone

/-- The RPC entry that a sync looks at. -/
def rpcEntry (s : Scheduler κ) : Option RpcEntry := if req.source = .repo then none else s.rpc

/-- The entries that a sync leaves in the cache. -/
def saveSync (s : Scheduler κ) (c : Checkout κ) (head : Option κ) : Scheduler κ :=
  { s with
    cache := SourceMeta.update (recordRpc s.cache c (rpcEntry req s)) { headCommit := head } }

/-- `_clone`. -/
def clone (s : Scheduler κ) : Outcome κ :=
  if cfg.frozen (cloneKind req) then ⟨.ofSync .frozen, s, none, false⟩
  else match cmd.clone with
    | .failed left => ⟨.ofSync .failed, s, left, true⟩
    | .rateLimited left =>
      if req.source = .repo then ⟨.ofSync .failed, s, left, true⟩
      else ⟨.ofSync .rateLimited, { s with aborted := s.aborted || cmd.abort }, left, true⟩
    | .ok c _ _ =>
      if req.source = .repo then
        match pinRepoCheckout h c.repo cfg.repoStable cmd.sync.release with
        | none => ⟨.ofSync .failed, s, some c, true⟩
        | some (r, _) =>
          let c := { c with repo := r }
          ⟨.cloned, saveSync req s c c.repo.headCommit, some c, true⟩
      else ⟨.cloned, saveSync req s c c.repo.headCommit, some c, true⟩

/-- What `_fetch` does with its result. -/
def afterFetch (s : Scheduler κ) (result : SyncResult κ) (c : Checkout κ) : Outcome κ :=
  if cmd.sync.compare.gitDir then ⟨.ofSync result.status, s, some c, false⟩
  else match result.status with
    | .upToDate => ⟨.ofSync .upToDate, saveSync req s c result.headAfter, some c, true⟩
    | .fetched => ⟨.ofSync .fetched, saveSync req s c result.headAfter, some c, true⟩
    | .rateLimited =>
      ⟨.ofSync .rateLimited, { s with aborted := s.aborted || cmd.abort }, some c, true⟩
    | .frozen => ⟨.ofSync .frozen, s, some c, false⟩
    | .skippedNoTracking => ⟨.ofSync .skippedNoTracking, s, some c, false⟩
    | status => ⟨.ofSync status, s, some c, true⟩

/-- `_fetch`. -/
def syncFetch (s : Scheduler κ) (c : Checkout κ) : Outcome κ :=
  let q := fetch h d lower c.repo isVcs (req.source = .repo) cfg.repoStable
    { cmd.sync with frozen := cfg.frozen .sourceFetch }
  afterFetch req cmd s q.1 { c with repo := q.2.1 }

/-- The short-circuit, or a fetch. -/
def fetchUnlessCurrent (s : Scheduler κ) (c : Checkout κ) : Outcome κ :=
  let rpc := rpcEntry req s
  let force := req.forceFetch || cfg.cleansrc || cfg.cleansrcForce
  if !force && canShortCircuit rpc s.cache c.repo.headCommit && rpcVouches c rpc then
    if isVcs && cfg.frozen .sourceFetch then ⟨.ofSync .frozen, s, some c, false⟩
    else ⟨.ofSync .upToDate, { s with cache := SourceMeta.update s.cache {} }, some c, false⟩
  else syncFetch h d lower isVcs cfg req cmd s c

/-- The rest of `_sync_one`, online: a directory without a `PKGBUILD` is cloned again. -/
def syncOnline (s : Scheduler κ) : Option (Checkout κ) → Outcome κ
  | none => clone h cfg req cmd s
  | some c =>
    if hasPkgbuild c then fetchUnlessCurrent h d lower isVcs cfg req cmd s c
    else match purgeBoth h d lower isVcs dir cfg cmd c with
      | (left, false) => ⟨.purgeRefused, s, left, false⟩
      | (_, true) => clone h cfg req cmd s

/-- The purge of `--cleansrc`. -/
def cleansrcPurge (s : Scheduler κ) :
    Option (Checkout κ) → Except (Outcome κ) (Scheduler κ × Option (Checkout κ))
  | none => .ok (s, none)
  | some c =>
    if !(cfg.cleansrc || cfg.cleansrcForce) then .ok (s, some c)
    else if cfg.offline then .error ⟨.skippedOffline, s, some c, false⟩
    else if cfg.frozen (cloneKind req) then .error ⟨.ofSync .frozen, s, some c, false⟩
    else match purgeBoth h d lower isVcs dir cfg cmd c with
      | (left, false) => .error ⟨.purgeRefused, s, left, false⟩
      | (left, true) => .ok ({ s with cache := none }, left)

/-- `_sync_one`. -/
def syncOne (s : Scheduler κ) (checkout : Option (Checkout κ)) : Outcome κ :=
  if req.source = .localTree then
    if checkout.isSome then ⟨.skippedLocal, s, checkout, false⟩
    else ⟨.ofSync .failed, s, checkout, false⟩
  else if req.source ≠ .repo && !cfg.aurEnabled && isAurCheckout checkout then
    ⟨.skippedAurDisabled, s, checkout, false⟩
  else if s.aborted then ⟨.ofSync .rateLimited, s, checkout, false⟩
  else match cleansrcPurge h d lower isVcs dir cfg req cmd s checkout with
    | .error o => o
    | .ok (s, checkout) =>
      if cfg.offline then ⟨.skippedOffline, s, checkout, false⟩
      else syncOnline h d lower isVcs dir cfg req cmd s checkout

end SyncOne

end Sysforge.Git
