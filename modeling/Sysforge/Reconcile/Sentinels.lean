import Sysforge.State.BuildState

/-!
# The reconcile sentinels

Pacman's hook appends the packages of every transaction to `buildstate`, and sysforge the ones it
installed itself to `self-install`. A consumer loads the build state, reads both files, demotes what
was reinstalled from elsewhere, removes both files and saves the build state; `update` clears the
files once more when it ends. A consumer can stop at any point.
-/

namespace Sysforge.Reconcile

open BuildState

/-- A block of a sentinel: its timestamp and names; `own` says whether the transaction was
sysforge's, which the file does not. -/
structure Event where
  stamp : String
  names : List String
  own : Bool
  stamped : stamp ≠ ""

/-- `_last_seen`, of one name. -/
def lastSeen (events : List Event) (name : String) : Option String :=
  events.foldl (fun seen e =>
    if name ∈ e.names ∧ seen.getD "" ≤ e.stamp then some e.stamp else seen) none

/-- `external_install_targets`. -/
def externalInstallTargets (own events : List Event) : List String :=
  ((events.flatMap Event.names).filter fun n =>
    (lastSeen own n).getD "" < (lastSeen events n).getD "").dedup

/-- `reconcile_external_installs` demotes the entry. -/
def demotable (s : BuildState) (name : String) : Bool :=
  match s.data.get name with
  | none => false
  | some e => isSourceBuildMode e.buildMode && e.ownerStage.getD "" = ""

/-- Where a consumer is. -/
inductive Pc
  | loaded
  /-- `self-install` is read -/
  | ownRead
  /-- `buildstate` is read -/
  | eventsRead
  | reconciled
  /-- `buildstate` is removed -/
  | half
  /-- both are removed -/
  | gone
  | saved
  /-- the end-of-run clear has removed `buildstate` -/
  | ending
  deriving DecidableEq

/-- What a consumer holds in memory. -/
structure Consumer where
  update : Bool
  readOnly : Bool
  /-- the build state as it was loaded -/
  loaded : BuildState
  /-- the build state it changes -/
  bs : BuildState
  own : List Event := []
  events : List Event := []
  inSync : String → Bool := fun _ => false
  changed : Bool := false
  raised : Bool := false

/-- What a consumer's step finds: the pkgbases whose failure it clears, the packages that a sync repo
carries, and whether it raises. -/
structure Answer where
  cleared : List String := []
  inSync : String → Bool := fun _ => true
  raises : Bool := false

/-- The two files, `build_state.toml`, and the consumer that runs. -/
structure World where
  buildstate : List Event
  selfInstall : List Event
  saved : BuildState
  consumer : Option (Pc × Consumer)

/-- No sentinel, and no consumer. -/
def World.init (saved : BuildState) : World := ⟨[], [], saved, none⟩

/-- What can happen. -/
inductive Step
  /-- pacman's hook appends a transaction -/
  | hook (e : Event)
  /-- `record_self_install` -/
  | note (e : Event)
  /-- `update`, `revert` or `uninstall` loads the build state to consume the sentinels -/
  | start (update readOnly : Bool)
  /-- the consumer's next step -/
  | advance (a : Answer)
  /-- a later step of the run saves the build state -/
  | write (bs : BuildState)
  /-- the consumer stops where it is -/
  | stop

/-- The names that the consumer demotes. -/
def Consumer.external (c : Consumer) : List String :=
  (externalInstallTargets c.own c.events).filter c.inSync

/-- The consumer with its external installs demoted. -/
def Consumer.reconcile (c : Consumer) : Consumer :=
  { c with
    bs := c.bs.reconcileExternalInstalls c.external
    changed := c.changed || (c.external.flatMap (externalTargets c.bs)).any (demotable c.bs) }

/-- The consumer's next step. `update` ends with a clear of both files; a read-only run neither
removes nor saves anything. -/
def advance (w : World) (a : Answer) (c : Consumer) : Pc → World
  | .loaded =>
    let c := { c with
      bs := a.cleared.foldl clearFailure c.bs
      changed := a.cleared ≠ [] }
    if a.raises then { w with consumer := some (.reconciled, { c with raised := true }) }
    else { w with consumer := some (.ownRead, { c with own := w.selfInstall }) }
  | .ownRead =>
    if a.raises then { w with consumer := some (.reconciled, { c with raised := true }) }
    else { w with consumer := some (.eventsRead, { c with events := w.buildstate }) }
  | .eventsRead =>
    if a.raises then { w with consumer := some (.reconciled, { c with raised := true }) }
    else { w with consumer := some (.reconciled, { c with inSync := a.inSync }.reconcile) }
  | .reconciled =>
    if c.readOnly then { w with consumer := none }
    else { w with buildstate := [], consumer := some (.half, c) }
  | .half => { w with selfInstall := [], consumer := some (.gone, c) }
  | .gone =>
    { w with
      saved := if c.changed && !c.raised then c.bs else w.saved
      consumer := some (.saved, c) }
  | .saved =>
    if c.update then { w with buildstate := [], consumer := some (.ending, c) }
    else { w with consumer := none }
  | .ending => { w with selfInstall := [], consumer := none }

/-- One step. One consumer runs at a time, and no other save falls between its load and its save. -/
def step (w : World) : Step → World
  | .hook e => { w with buildstate := w.buildstate ++ [e] }
  | .note e => { w with selfInstall := w.selfInstall ++ [e] }
  | .start update readOnly =>
    match w.consumer with
    | none => { w with consumer := some (.loaded, ⟨update, readOnly, w.saved, w.saved, [], [],
        fun _ => false, false, false⟩) }
    | some _ => w
  | .advance a =>
    match w.consumer with
    | none => w
    | some (pc, c) => advance w a c pc
  | .write bs =>
    match w.consumer with
    | none => { w with saved := bs }
    | some (pc, _) => if pc = .saved then { w with saved := bs } else w
  | .stop => { w with consumer := none }

end Sysforge.Reconcile
