import Sysforge.Git.ShortCircuit
import Sysforge.Foundations.Run

/-!
# The source freeze

`NetPolicy`, resolved once from the flags and the configuration, and runs of the scheduler over the
checkouts of many packages. Every contact with a remote is noted with the policy in force.
-/

namespace Sysforge.Git.Freeze

open Text

/-! ## The policy -/

/-- The kinds of egress. -/
inductive NetKind
  | aurClone
  | repoCheckout
  | sourceFetch
  | vcsPeek
  | vcsResolve
  | keyFetch
  | subprojectFetch
  | aurRpc
  deriving DecidableEq

/-- `_AUR_KINDS`. -/
def NetKind.isAur : NetKind → Bool
  | .aurClone | .aurRpc => true
  | _ => false

/-- The kind that a seam of the scheduler asks for. -/
def netKind : Kind → NetKind
  | .sourceFetch => .sourceFetch
  | .aurClone => .aurClone
  | .repoCheckout => .repoCheckout

/-- `NetPolicy`. -/
structure NetPolicy where
  frozen : Bool := false
  thawed : List Text := []
  aurEnabled : Bool := true

/-- `NetPolicy.check` raises. -/
def NetPolicy.denies (p : NetPolicy) (kind : NetKind) (pkgbase : Option Text) : Bool :=
  if kind.isAur && !p.aurEnabled then true
  else if kind = .aurRpc then false
  else if !p.frozen then false
  else pkgbase.all (· ∉ p.thawed)

/-- The flags that the policy is resolved from. -/
structure Flags where
  frozen : Bool := false
  noFrozen : Bool := false
  thaw : List Text := []

/-- `resolve_net_policy`, of the truth of `[security] freeze_sources`, and of whether `[aur] enabled`
is anything but `false`. -/
def resolveNetPolicy (flags : Flags) (freezeSources aurEnabled : Bool) : NetPolicy where
  frozen := if flags.noFrozen then false else flags.frozen || freezeSources
  thawed := ((flags.thaw.flatMap (split ',')).map strip).filter (· ≠ [])
  aurEnabled := aurEnabled

/-! ## Runs -/

/-- The options of a scheduler. -/
structure Options where
  offline : Bool := false
  cleansrc : Bool := false
  cleansrcForce : Bool := false
  repoStable : Bool := true

/-- The configuration of a scheduler for one package. -/
def config (policy : NetPolicy) (o : Options) (pkgbase : Text) : Config where
  offline := o.offline
  cleansrc := o.cleansrc
  cleansrcForce := o.cleansrcForce
  repoStable := o.repoStable
  aurEnabled := policy.aurEnabled
  frozen kind := policy.denies (netKind kind) (some pkgbase)

variable {κ δ : Type*}

/-- A run of `sysforge`: its policy and its scheduler. -/
structure Process (κ : Type*) where
  policy : NetPolicy
  options : Options
  /-- The packages that have a result. -/
  results : List Text := []
  aborted : Bool := false
  rpc : Text → Option RpcEntry := fun _ => none
  cache : Text → Option (SourceMeta κ)

/-- A remote was asked: for which package, under which label, with which origin of the directory
before, and under which policy. -/
structure Contact where
  pkgbase : Text
  source : Source
  origin : Option Origin
  policy : NetPolicy
  offline : Bool

/-- The directories `δ`, `source_meta.toml`, the run that is going on, and the contacts so far. -/
structure World (κ δ : Type*) where
  checkouts : δ → Option (Checkout κ)
  file : Text → Option (SourceMeta κ) := fun _ => none
  process : Option (Process κ) := none
  contacts : List Contact := []

/-- What can happen. -/
inductive Event (κ δ : Type*)
  /-- The user does anything to a directory. -/
  | user (dir : δ) (checkout : Option (Checkout κ))
  | start (flags : Flags) (freezeSources aurEnabled : Bool) (options : Options)
  /-- `_ensure_rpc` with what the AUR answers. -/
  | rpc (answer : Text → Option RpcEntry)
  | request (pkgbase : Text) (dir : δ) (req : Request) (cmd : Commands κ)
  /-- The end of the run, in order or not. -/
  | finish (saves : Bool)

section Steps

variable [DecidableEq κ] [DecidableEq δ] (h : History κ) (d : Differ) (lower : Text → Text)
  (isVcs : Text → Bool) (name : δ → String)

/-- The result of a request. -/
def World.outcome (w : World κ δ) (p : Process κ) (pkgbase : Text) (dir : δ) (req : Request)
    (cmd : Commands κ) : Outcome κ :=
  syncOne h d lower (isVcs pkgbase) (name dir) (config p.policy p.options pkgbase) req cmd
    ⟨p.rpc pkgbase, p.cache pkgbase, p.aborted⟩ (w.checkouts dir)

/-- A request that has no result yet. -/
def World.sync (w : World κ δ) (p : Process κ) (pkgbase : Text) (dir : δ) (req : Request)
    (cmd : Commands κ) : World κ δ :=
  let o := w.outcome h d lower isVcs name p pkgbase dir req cmd
  { w with
    checkouts := Function.update w.checkouts dir o.checkout
    process := some { p with
      results := pkgbase :: p.results
      aborted := o.scheduler.aborted
      cache := Function.update p.cache pkgbase o.scheduler.cache }
    contacts :=
      if o.asked then
        ⟨pkgbase, req.source, (w.checkouts dir).map Checkout.origin, p.policy,
          p.options.offline⟩ :: w.contacts
      else w.contacts }

/-- One step; what has no run to happen in changes nothing. -/
def step (w : World κ δ) : Event κ δ → World κ δ
  | .user dir checkout => { w with checkouts := Function.update w.checkouts dir checkout }
  | .start flags freezeSources aurEnabled options =>
    match w.process with
    | some _ => w
    | none =>
      { w with process := some {
          policy := resolveNetPolicy flags freezeSources aurEnabled
          options := options
          cache := w.file } }
  | .rpc answer =>
    match w.process with
    | none => w
    | some p =>
      if p.options.offline || p.policy.denies .aurRpc none then w
      else { w with process := some { p with rpc := answer } }
  | .request pkgbase dir req cmd =>
    match w.process with
    | none => w
    | some p =>
      if pkgbase ∈ p.results then w
      else w.sync h d lower isVcs name p pkgbase dir req cmd
  | .finish saves =>
    match w.process with
    | none => w
    | some p => { w with file := if saves then p.cache else w.file, process := none }

end Steps

/-- What a contact is allowed by: the run is online, the package is not frozen, and with the AUR
disabled the request is for a repository package, or the origin is not at the AUR. -/
structure Contact.Allowed (c : Contact) : Prop where
  online : c.offline = false
  thawed : c.policy.frozen = true → c.pkgbase ∈ c.policy.thawed
  aur : c.policy.aurEnabled = false → c.source = .repo ∨ c.origin = some .other

/-- The run that is going on may not refresh the package. -/
def Process.denies (p : Process κ) (pkgbase : Text) : Prop :=
  p.options.offline = true ∨ p.policy.frozen = true ∧ pkgbase ∉ p.policy.thawed

/-- What leaves the directory `dir` to the user: requests for it are denied, and what the user puts
there has a `PKGBUILD`. -/
def Denied (dir : δ) (w : World κ δ) : Event κ δ → Prop
  | .user dir' checkout => dir' = dir → checkout.all hasPkgbuild = true
  | .request pkgbase dir' _ _ => dir' = dir → ∀ p, w.process = some p → p.denies pkgbase
  | _ => True

/-- What the user last put into a directory. -/
def lastLeft [DecidableEq δ] (dir : δ) (before : Option (Checkout κ)) :
    List (Event κ δ) → Option (Checkout κ)
  | [] => before
  | .user dir' checkout :: events =>
    lastLeft dir (if dir' = dir then checkout else before) events
  | _ :: events => lastLeft dir before events

end Sysforge.Git.Freeze
