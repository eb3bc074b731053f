import Sysforge.Update.OptOut

/-!
# Reverting to stock

`plan_revert` resolves each target to the action that puts its stock packages back: a renamed build
that conflicts with stock is replaced, one that coexists with it is removed before stock is
reinstalled, and a plain source build is reinstalled under its own name. `apply_reverts` carries the
plans out in order, and forgets the records of each.
-/

namespace Sysforge.Revert

open BuildState OptOut

/-! ## Build modes -/

/-- `_OPTIMIZED_BUILD_MODES`. -/
def optimizedBuildModes : List String :=
  ["pgo_llvm_toolchain", "pgo", "autofdo_kernel", "propeller_kernel", "bolt_llvm"]

/-- `_COEXIST_BUILD_MODES`. -/
def coexistBuildModes : List String := ["autofdo_kernel", "propeller_kernel"]

/-- `is_optimized_build_mode`. -/
def isOptimizedBuildMode (buildMode : Option String) : Bool :=
  buildMode.any (· ∈ optimizedBuildModes)

/-- How a renamed package stands to its stock one. -/
inductive RenameMode
  | conflict
  | coexist
  deriving DecidableEq

/-- `rename_mode_for_build_mode`. -/
def renameModeForBuildMode (buildMode : Option String) : RenameMode :=
  if buildMode.any (· ∈ coexistBuildModes) then .coexist else .conflict

/-- A build that earns the rename and does not keep its stock name. -/
def isRenamedBuild (e : Entry) : Bool :=
  isOptimizedBuildMode e.buildMode && !isSourceBuildMode e.buildMode

/-- A renamed build that cannot be installed beside its stock package. -/
def isConflictBuild (e : Entry) : Bool :=
  isRenamedBuild e && renameModeForBuildMode e.buildMode = .conflict

/-! ## Planning -/

/-- The action of a plan. -/
inductive Action
  | skip
  | reinstall
  | replace
  | derename
  deriving DecidableEq

/-- `RevertPlan`. -/
structure RevertPlan where
  target : String
  action : Action
  pkgname : Option String
  stockPkg : Option String
  reason : String
  members : List (String × String) := []
  deriving DecidableEq

/-- The packages whose recorded pkgbase is the one of `key`, in order. -/
def siblings (entries : Dict String Entry) (key : String) : List String :=
  match ((entries.get key).bind (·.pkgbase)).filter (· ≠ "") with
  | none => []
  | some pkgbase => (entries.keys.filter fun n =>
      (entries.get n).any fun e => e.pkgbase = some pkgbase).insertionSort (· ≤ ·)

/-- `_is_split`. -/
def isSplit (entries : Dict String Entry) (key : String) : Bool :=
  1 < (siblings entries key).length

/-- `_conflict_members`. -/
def conflictMembers (entries : Dict String Entry) (key : String) (installed : List String) :
    List (String × String) :=
  let sibs := siblings entries key
  let sibs := if 1 < sibs.length then sibs.filter (fun n => n = key || n ∈ installed) else [key]
  sibs.map fun n => (n, stockName n)

/-- `", ".join(names)`. -/
def commas (names : List String) : String := ", ".intercalate names

/-- The stock package that the record of `key` names. -/
def originOr (e : Entry) (key : String) : String := orElse e.originPkgbase key

/-- The members of a conflict-mode revert. -/
def replaceMembers (entries : Dict String Entry) (key : String) (e : Entry)
    (installed : List String) : List (String × String) :=
  if isSplit entries key then conflictMembers entries key installed
  else [(key, originOr e key)]

/-- The members of a plain revert. -/
def reinstallMembers (entries : Dict String Entry) (key : String) (e : Entry)
    (installed : List String) : List (String × String) :=
  if some key = e.pkgbase ∧ isSplit entries key = true then conflictMembers entries key installed
  else [(key, key)]

/-- The plan of one target of `plan_revert`. -/
def planTarget (bs : BuildState) (installed : List String) (target : String) : RevertPlan :=
  let entries := bs.data
  let key := bs.resolveInstalledName target
  match entries.get key with
  | none => ⟨target, .skip, none, none, "not tracked by sysforge: already stock", []⟩
  | some e =>
    if e.buildMode = none ∨ e.buildMode = some "pacman" then
      ⟨target, .skip, none, none, "already a stock repo package", []⟩
    else if isRenamedBuild e then
      let stock := originOr e key
      if renameModeForBuildMode e.buildMode = .conflict then
        let members := replaceMembers entries key e installed
        let primary := ((members.find? fun m => m.2 = stock).map Prod.fst).getD key
        ⟨target, .replace, some primary, some stock,
          "reinstall stock " ++ commas (members.map Prod.snd) ++
            " (atomically replaces conflict-mode " ++ commas (members.map Prod.fst) ++ ")",
          members⟩
      else
        ⟨target, .derename, some key, some stock,
          "remove renamed " ++ key ++ ", reinstall stock " ++ stock, []⟩
    else
      let members := reinstallMembers entries key e installed
      ⟨target, .reinstall, some key, some key,
        "reinstall repo " ++ commas (members.map Prod.fst), members⟩

/-- `plan_revert`, with the installed names. -/
def planRevert (bs : BuildState) (targets installed : List String) : List RevertPlan :=
  targets.map (planTarget bs installed)

/-! ## The installed packages -/

/-- Where an installed package comes from. -/
inductive Origin
  | built
  | repo
  deriving DecidableEq

/-- The installed packages by name. -/
abbrev Packages := Dict String Origin

/-- `reinstall_repo_pkgs`. -/
def reinstallRepoPkgs (ps : Packages) (names : List String) : Packages :=
  names.foldl (fun ps n => ps.set n .repo) ps

/-- `remove_pkgs`. -/
def removePkgs (ps : Packages) (names : List String) : Packages :=
  names.foldl (fun ps n => ps.erase n) ps

/-- A conflict-mode build declares a conflict with its own stock name. -/
def declares (entries : Dict String Entry) (n st : String) : Bool :=
  (entries.get n).any isConflictBuild && stockName n ≠ n && stockName n = st

/-- `reinstall_repo_pkgs` with `replace`: the transaction removes the builds that conflict with
what it installs. -/
def replacePkgs (entries : Dict String Entry) (ps : Packages) (names : List String) : Packages :=
  (reinstallRepoPkgs ps names).filter fun n o =>
    !(decide (o = .built) && names.any (declares entries n))

/-! ## Carrying the plans out -/

/-- The installed packages and the two state files. -/
structure Machine where
  packages : Packages
  files : OptOut.State

/-- The names that a plain revert reinstalls. -/
def reinstallNames (p : RevertPlan) : List String :=
  if p.members = [] then p.stockPkg.toList else p.members.map Prod.fst

/-- The loop body of `apply_reverts`, each pacman step a success. -/
def applyPlan (entries : Dict String Entry) (now : String) (m : Machine) (p : RevertPlan) :
    Machine :=
  match p.action with
  | .derename =>
    { packages := reinstallRepoPkgs (removePkgs m.packages p.pkgname.toList) p.stockPkg.toList
      files := (forgetPackages m.files p.pkgname.toList (some "revert") now).2 }
  | .replace =>
    { packages := replacePkgs entries m.packages (p.members.map Prod.snd)
      files := (forgetPackages m.files (p.members.map Prod.fst) (some "revert") now).2 }
  | .reinstall | .skip =>
    { packages := reinstallRepoPkgs m.packages (reinstallNames p)
      files := (forgetPackages m.files (reinstallNames p) (some "revert") now).2 }

/-- What `consume_external_installs` reads from the sentinels and the package database: the
pkgbases whose failure is stale, and the packages installed by someone else. -/
structure Window where
  staleFailures : List String
  external : List String

/-- `consume_external_installs`. -/
def consumeExternalInstalls (bs : BuildState) (w : Window) : BuildState :=
  reconcileExternalInstalls (w.staleFailures.foldl clearFailure bs) w.external

/-- `apply_reverts`, each pacman step a success. -/
def applyReverts (entries : Dict String Entry) (now : String) (w : Window) (m : Machine)
    (actionable : List RevertPlan) : Machine :=
  let m := actionable.foldl (applyPlan entries now) m
  { m with files := { m.files with bs := consumeExternalInstalls m.files.bs w } }

/-- A revert of the targets: the plans of the state, less the skipped ones, are carried out. -/
def revert (targets : List String) (now : String) (w : Window) (m : Machine) : Machine :=
  applyReverts m.files.bs.data now w m
    ((planRevert m.files.bs targets m.packages.keys).filter fun p => p.action ≠ .skip)

end Sysforge.Revert
