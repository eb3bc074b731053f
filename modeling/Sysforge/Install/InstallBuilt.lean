import Mathlib.Data.List.Dedup
import Sysforge.State.BuildState

/-!
# Installing what a run built

`install_built` hands package files to pacman in one transaction, retries without the files pacman
names as conflicting, and keeps `build_state` in step: a dropped sub-package loses its record, an
installed artifact gets back the record that an earlier refusal took. `_revert_uninstalled_state`
points the records of refused artifacts back at a snapshot.
-/

namespace Sysforge.Install

open BuildState

/-- The path of a package file. -/
structure Artifact where
  dir : String
  name : String
  deriving DecidableEq

/-- What one `pacman -U` does: a refusal names the packages whose files conflict, with details. -/
inductive Reply
  | installed
  | refused (conflicts : Dict String (List String))

/-- What a run reads of the system: package files, and pacman, whose answers may change with every
question. -/
structure System where
  /-- `read_pkgname_from_file`. -/
  readPkgname : Artifact → Option String
  /-- `read_pkg_replaces_from_file`. -/
  readReplaces : Artifact → List String
  /-- The names `get_all_installed_packages` has, after a number of questions. -/
  allInstalled : ℕ → List String
  /-- What the next transaction does, after a number of questions. -/
  transact : ℕ → List Artifact → Reply

/-- A transaction that was tried. -/
structure Transaction where
  files : List Artifact
  accepted : Bool
  deriving DecidableEq

/-- The build state, with the transactions tried so far and the number of questions put to
pacman. -/
structure Host where
  state : BuildState
  asked : ℕ := 0
  log : List Transaction := []

/-- The state after a transaction that did what `accepted` says. -/
def Host.tried (h : Host) (files : List Artifact) (accepted : Bool) : Host :=
  { h with asked := h.asked + 1, log := h.log ++ [⟨files, accepted⟩] }

/-! ## The records of files that were not installed, and of those that were -/

/-- `_forget_uninstalled`. -/
def forgetUninstalled (s : BuildState) (names installed : List String) : BuildState :=
  ((names.filter fun n => n ≠ "" && n ∉ installed).dedup.insertionSort (· ≤ ·)).foldl
    BuildState.delete s

/-- The package name `restore_reverted` returns. -/
def restoredName (s : BuildState) (artifact : String) : Option String :=
  ((s.reverted.get artifact).map Stash.pkgname).filter (· ≠ "")

/-- The state and the restored names after `restore_reverted` for some files. -/
def restoreAll (s : BuildState) (files : List Artifact) : BuildState × List String :=
  files.foldl (fun r f => (r.1.restoreReverted f.name, r.2 ++ (restoredName r.1 f.name).toList))
    (s, [])

/-- `_restore_reverted_state`: saved only when something was restored. -/
def restoreRevertedState (s : BuildState) (files : List Artifact) : BuildState :=
  let r := restoreAll s files
  if r.2 = [] then s else r.1

/-- `_snapshot_state`. -/
def snapshotState (s : BuildState) (pkgnames : List String) : Dict String (Option Entry) :=
  .ofItems (pkgnames.map fun pn => (pn, s.data.get pn))

section

variable (sys : System)

/-- The revert of one file. -/
def revertFile (prior : Dict String (Option Entry)) (s : BuildState) (f : Artifact) : BuildState :=
  match sys.readPkgname f with
  | none => s
  | some pn =>
    match prior.get pn with
    | none => s
    | some e => s.revertRecord pn e (some f.name)

/-- `_revert_uninstalled_state`. -/
def revertUninstalledState (s : BuildState) (files : List Artifact)
    (prior : Dict String (Option Entry)) : BuildState :=
  if prior.items = [] then s else files.foldl (revertFile sys prior) s

/-! ## The transactions -/

/-- Whether `filter_pkgs_to_installed` keeps a file. -/
def keeps (installed : List String) (f : Artifact) : Bool :=
  match sys.readPkgname f with
  | none => true
  | some pn => pn ∈ installed || (sys.readReplaces f).any (· ∈ installed)

/-- `filter_pkgs_to_installed`. -/
def filterPkgsToInstalled (files : List Artifact) (installed : List String) :
    List Artifact × List (Artifact × Option String) :=
  (files.filter (keeps sys installed),
    (files.filter fun f => !keeps sys installed f).map fun f => (f, sys.readPkgname f))

/-- `INSTALL_REFUSED_REASON`. -/
def installRefusedReason : String := "pacman -U refused the transaction (see its error above)"

/-- The pending files that pacman names as conflicting, with its details. -/
def culprits (conflicts : Dict String (List String)) (pending : List Artifact) :
    List (Artifact × List String) :=
  pending.filterMap fun f =>
    (sys.readPkgname f).bind fun pn => (conflicts.get pn).map fun details => (f, details)

/-- What `install_built` returns: the installed files, and the others with a reason. -/
structure Installed where
  host : Host
  installed : List Artifact
  notInstalled : Dict Artifact String

/-- `while pending`, with a bound on the rounds; every round but the last sets a file aside. -/
def installPending (restores : Bool) : ℕ → Host → List Artifact → Dict Artifact String → Installed
  | _, h, [], refused => ⟨h, [], refused⟩
  | 0, h, _, refused => ⟨h, [], refused⟩
  | n + 1, h, pending, refused =>
    match sys.transact h.asked pending with
    | .installed =>
      let h := h.tried pending true
      ⟨if restores then { h with state := restoreRevertedState h.state pending } else h, pending,
        refused⟩
    | .refused conflicts =>
      let h := h.tried pending false
      match culprits sys conflicts pending with
      | [] => ⟨h, [], pending.foldl (fun d f => d.set f installRefusedReason) refused⟩
      | c :: cs =>
        installPending restores n h (pending.filter fun f => f ∉ (c :: cs).map Prod.fst)
          ((c :: cs).foldl (fun d p => d.set p.1 ("; ".intercalate p.2)) refused)

/-- The filter of `install_built`: the kept files, and the host after the dropped ones have lost
their records. `stateDir` says whether the caller gave a state directory. -/
def keepInstalled (stateDir : Bool) (alwaysInstall : List String) (h : Host)
    (files : List Artifact) : List Artifact × Host :=
  let keepNames := sys.allInstalled h.asked ++ alwaysInstall
  let split := filterPkgsToInstalled sys files keepNames
  let state := if stateDir then forgetUninstalled h.state (split.2.filterMap Prod.snd) keepNames
    else h.state
  (split.1, { h with state := state, asked := h.asked + 1 })

/-- `install_built`. -/
def installBuilt (stateDir : Bool) (alwaysInstall : List String) (h : Host)
    (files : List Artifact) : Installed :=
  let files := files.eraseDups
  if files = [] then ⟨h, [], .empty⟩
  else
    let r := keepInstalled sys stateDir alwaysInstall h files
    installPending sys stateDir r.1.length r.2 r.1 .empty

end

end Sysforge.Install
