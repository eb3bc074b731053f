import Sysforge.Toml.Section
import Mathlib.Data.String.Basic

/-!
# The build state

`BuildState` mirrors `build_state.toml`: the install records by package name, the failures and
review baselines by pkgbase, and the builds whose record a refused install reverted, by artifact.
This module holds the records and every operation that changes them; the file is written and read
in `State/BuildStateFile.lean`.
-/

namespace Sysforge.BuildState

/-- The value of a record field. -/
inductive Scalar
  | str (s : String)
  | bool (b : Bool)
  deriving DecidableEq

/-- A per-package record; the fields are in the order of `_ENTRY_KEYS`. -/
structure Entry where
  pkgver : Option String := none
  pkgrel : Option String := none
  epoch : Option String := none
  pkgbase : Option String := none
  pkgbuildDir : Option String := none
  buildMode : Option String := none
  flagsString : Option String := none
  builtAt : Option String := none
  builtUpstreamCommit : Option String := none
  source : Option String := none
  ownerStage : Option String := none
  toolchainVariant : Option String := none
  toolchainFingerprint : Option String := none
  reviewedCommit : Option String := none
  originPkgbase : Option String := none
  buildSeconds : Option String := none
  sandboxed : Option Bool := none
  buildInputs : Option String := none
  compiles : Option Bool := none
  deriving DecidableEq

namespace Entry

/-- The keys of a record with the values it has for them. -/
def fields (e : Entry) : List (String × Option Scalar) :=
  [("pkgver", e.pkgver.map .str), ("pkgrel", e.pkgrel.map .str), ("epoch", e.epoch.map .str),
    ("pkgbase", e.pkgbase.map .str), ("pkgbuild_dir", e.pkgbuildDir.map .str),
    ("build_mode", e.buildMode.map .str), ("flags_string", e.flagsString.map .str),
    ("built_at", e.builtAt.map .str), ("built_upstream_commit", e.builtUpstreamCommit.map .str),
    ("source", e.source.map .str), ("owner_stage", e.ownerStage.map .str),
    ("toolchain_variant", e.toolchainVariant.map .str),
    ("toolchain_fingerprint", e.toolchainFingerprint.map .str),
    ("reviewed_commit", e.reviewedCommit.map .str), ("origin_pkgbase", e.originPkgbase.map .str),
    ("build_seconds", e.buildSeconds.map .str), ("sandboxed", e.sandboxed.map .bool),
    ("build_inputs", e.buildInputs.map .str), ("compiles", e.compiles.map .bool)]

/-- The items of a record, in the order of `_ENTRY_KEYS`. -/
def items (e : Entry) : List (String × Scalar) :=
  e.fields.filterMap fun p => p.2.map fun v => (p.1, v)

/-- An empty record is falsy. -/
def isEmpty (e : Entry) : Bool := e = {}

/-- `_sans_build_facts`: the record without the fields a revert carries forward. -/
def sansBuildFacts (e : Entry) : Entry := { e with buildSeconds := none, reviewedCommit := none }

end Entry

/-- A failure record. -/
structure Failure where
  failedAt : String
  kind : Option String := none
  pkgver : Option String := none
  signature : Option String := none
  fixCmd : Option String := none
  error : String
  deriving DecidableEq

/-- The items of a failure, in the order they are written. -/
def Failure.items (f : Failure) : List (String × Scalar) :=
  [("failed_at", some f.failedAt), ("kind", f.kind), ("pkgver", f.pkgver),
    ("signature", f.signature), ("fix_cmd", f.fixCmd), ("error", some f.error)].filterMap
    fun p => p.2.map fun v => (p.1, Scalar.str v)

/-- A reverted record: the package it belongs to and the record itself. -/
structure Stash where
  pkgname : String
  entry : Entry
  deriving DecidableEq

/-- The items of a stash, in the order they are written. -/
def Stash.items (s : Stash) : List (String × Scalar) := ("pkgname", .str s.pkgname) :: s.entry.items

end BuildState

/-- The state `build_state.toml` mirrors. -/
structure BuildState where
  data : Dict String BuildState.Entry
  failures : Dict String BuildState.Failure
  reverted : Dict String BuildState.Stash
  reviewed : Dict String String

namespace BuildState

/-- The state of an absent file. -/
def empty : BuildState := ⟨.empty, .empty, .empty, .empty⟩

/-- `is_source_build_mode`. -/
def isSourceBuildMode (m : Option String) : Bool :=
  m = some "source_built" || m = some "bolt_llvm"

/-- `_truncate_error`: the last six lines, at most 600 characters. -/
def truncateError (error : String) : String :=
  let s := Text.strip error.toList
  let lines := Text.splitlines s
  let s := if 6 < lines.length then Text.joinLines (Text.takeLast 6 lines) else s
  String.ofList (if 600 < s.length then Text.takeLast 600 s else s)

/-- `s.partition(":")`, when there is a colon, and `("0", s)` otherwise. -/
def splitEpoch (s : Text) : Text × Text :=
  if ':' ∈ s then (s.takeWhile (· ≠ ':'), (s.dropWhile (· ≠ ':')).tail) else (['0'], s)

/-- `s.rpartition("-")`, when there is a dash, and `(s, "1")` otherwise. -/
def splitRel (s : Text) : Text × Text :=
  if '-' ∈ s then
    ((s.reverse.dropWhile (· ≠ '-')).tail.reverse, (s.reverse.takeWhile (· ≠ '-')).reverse)
  else (s, ['1'])

/-- `parse_pacman_version`: epoch, pkgver and pkgrel. -/
def parsePacmanVersion (v : String) : String × String × String :=
  if v = "" then ("0", "", "1")
  else
    let er := splitEpoch v.toList
    let vr := splitRel er.2
    (String.ofList er.1, String.ofList vr.1, String.ofList vr.2)

/-! ## Recording -/

/-- The arguments of `record`; a Python `bool` is the integer 0 or 1. -/
structure RecordArgs where
  pkgname : String
  pkgver : String
  pkgrel : String
  epoch : String
  pkgbase : String
  pkgbuildDir : String
  buildMode : Option String := none
  flagsString : Option String := none
  builtAt : Option String := none
  builtUpstreamCommit : Option String := none
  source : Option String := none
  ownerStage : Option String := none
  toolchainVariant : Option String := none
  toolchainFingerprint : Option String := none
  reviewedCommit : Option String := none
  originPkgbase : Option String := none
  buildSeconds : Option ℤ := none
  sandboxed : Option ℤ := none
  buildInputs : Option String := none
  compiles : Option ℤ := none

/-- `built_at or now`. -/
def stampOr (t : Option String) (now : String) : String :=
  match t with
  | none => now
  | some t => if t = "" then now else t

/-- The bounded ring of build durations, the new one appended. -/
def ring (prior : Option String) (seconds : Option ℤ) : Option String :=
  let old := (Text.split ',' (prior.getD "").toList).filter (· ≠ [])
  let new := match seconds with
    | none => old
    | some n => Text.takeLast 5 (old ++ [Text.ofInt n])
  if new = [] then none else some (String.ofList ([','].intercalate new))

/-- The entry `record` stores over `prior`; a provenance field not given keeps its prior value. -/
def recordEntry (a : RecordArgs) (prior : Entry) (now : String) : Entry where
  pkgver := a.pkgver
  pkgrel := a.pkgrel
  epoch := a.epoch
  pkgbase := a.pkgbase
  pkgbuildDir := a.pkgbuildDir
  buildMode := a.buildMode
  flagsString := a.flagsString
  builtAt := stampOr a.builtAt now
  builtUpstreamCommit := a.builtUpstreamCommit
  source := a.source.or prior.source
  ownerStage := a.ownerStage.or prior.ownerStage
  toolchainVariant := a.toolchainVariant.or prior.toolchainVariant
  toolchainFingerprint := a.toolchainFingerprint.or prior.toolchainFingerprint
  reviewedCommit := a.reviewedCommit.or prior.reviewedCommit
  originPkgbase := a.originPkgbase.or prior.originPkgbase
  buildSeconds := ring prior.buildSeconds a.buildSeconds
  sandboxed := (a.sandboxed.map (· != 0)).or prior.sandboxed
  buildInputs := a.buildInputs.or prior.buildInputs
  compiles := (a.compiles.map (· != 0)).or prior.compiles

/-- `_drop_reverted`. -/
def dropReverted (s : BuildState) (pkgname : String) : BuildState :=
  { s with reverted := s.reverted.filter fun _ e => e.pkgname ≠ pkgname }

/-- `record`. -/
def record (s : BuildState) (a : RecordArgs) (now : String) : BuildState :=
  let entry := recordEntry a ((s.data.get a.pkgname).getD {}) now
  let s := dropReverted { s with data := s.data.set a.pkgname entry } a.pkgname
  { s with failures := s.failures.erase a.pkgbase }

/-! ## Reverting -/

/-- What `revert_record` stashes under the refused artifact. -/
def stashed (s : BuildState) (pkgname : String) (prior : Option Entry) (artifact : Option String) :
    Option (String × Stash) :=
  let current := (s.data.get pkgname).getD {}
  match artifact with
  | none => none
  | some a =>
    if a ≠ "" ∧ !current.isEmpty ∧ current.sansBuildFacts ≠ (prior.getD {}).sansBuildFacts then
      some (a, ⟨pkgname, current⟩)
    else none

/-- `prior`, with the build facts carried forward from `current` where it has them. -/
def carried (current prior : Entry) : Entry := { prior with
  buildSeconds := current.buildSeconds.or prior.buildSeconds
  reviewedCommit := current.reviewedCommit.or prior.reviewedCommit }

/-- Keep the undone entry, when there is one to keep. -/
def addStash (s : BuildState) : Option (String × Stash) → BuildState
  | none => s
  | some (a, e) => { s with reverted := s.reverted.set a e }

/-- `revert_record`. -/
def revertRecord (s : BuildState) (pkgname : String) (prior : Option Entry)
    (artifact : Option String) : BuildState :=
  let current := (s.data.get pkgname).getD {}
  let s := addStash s (stashed s pkgname prior artifact)
  let data := match prior with
    | none => s.data.erase pkgname
    | some p => s.data.set pkgname (carried current p)
  { s with data := data }

/-- `restore_reverted`. -/
def restoreReverted (s : BuildState) (artifact : String) : BuildState :=
  match s.reverted.get artifact with
  | none => s
  | some e =>
    let s := { s with reverted := s.reverted.erase artifact }
    if e.pkgname = "" then s else { s with data := s.data.set e.pkgname e.entry }

/-- `delete`. -/
def delete (s : BuildState) (pkgname : String) : BuildState :=
  { s with data := s.data.erase pkgname }

/-! ## External installs -/

/-- `resolve_installed_name`: the tracked key a package name reaches. -/
def resolveInstalledName (s : BuildState) (name : String) : String :=
  if name ∈ s.data.keys then name
  else match s.data.sorted.find? fun p => p.2.originPkgbase = some name with
    | some p => p.1
    | none => if name ++ "-sysforge" ∈ s.data.keys then name ++ "-sysforge" else name

/-- The entries one external name reaches: its own and, for a pkgbase, every sibling. -/
def externalTargets (s : BuildState) (name : String) : List String :=
  let key := resolveInstalledName s name
  match s.data.get key with
  | none => []
  | some e =>
    if e.isEmpty then []
    else match e.pkgbase with
      | none => [key]
      | some b =>
        if b = "" then [key]
        else key :: (s.data.items.filter fun p => p.2.pkgbase = some b).map Prod.fst

/-- The plain `pacman` marker of an entry: its version identity without its provenance. -/
def pacmanMarker (e : Entry) : Entry where
  pkgver := e.pkgver
  pkgrel := e.pkgrel
  epoch := e.epoch
  pkgbase := e.pkgbase
  buildMode := some "pacman"

/-- Demote one entry to a `pacman` marker, unless it is not source-built or a stage owns it. -/
def demote (s : BuildState) (name : String) : BuildState :=
  match s.data.get name with
  | none => s
  | some e =>
    if !isSourceBuildMode e.buildMode || e.ownerStage.getD "" ≠ "" then s
    else { s with data := s.data.set name (pacmanMarker e) }

/-- `reconcile_external_installs`: the targets are collected first, then demoted. -/
def reconcileExternalInstalls (s : BuildState) (names : List String) : BuildState :=
  ((names.flatMap (externalTargets s)).dedup.insertionSort (· ≤ ·)).foldl demote s

/-! ## Failures, reviews and the pacman mirror -/

/-- The arguments of `record_failure`. -/
structure FailureArgs where
  pkgbase : String
  error : String
  pkgver : Option String := none
  signature : Option String := none
  fixCmd : Option String := none
  failedAt : Option String := none
  kind : Option String := none

/-- An optional field is stored when it is not empty. -/
def nonEmpty (s : Option String) : Option String := s.filter (· ≠ "")

/-- The entry `record_failure` stores. -/
def failureEntry (a : FailureArgs) (now : String) : Failure where
  failedAt := stampOr a.failedAt now
  error := truncateError a.error
  pkgver := nonEmpty a.pkgver
  signature := nonEmpty a.signature
  fixCmd := nonEmpty a.fixCmd
  kind := nonEmpty a.kind

/-- `record_failure`. -/
def recordFailure (s : BuildState) (a : FailureArgs) (now : String) : BuildState :=
  { s with failures := s.failures.set a.pkgbase (failureEntry a now) }

/-- `clear_failure`. -/
def clearFailure (s : BuildState) (pkgbase : String) : BuildState :=
  { s with failures := s.failures.erase pkgbase }

/-- `set_reviewed`. -/
def setReviewed (s : BuildState) (pkgbase commit : String) : BuildState :=
  { s with reviewed := s.reviewed.set pkgbase commit }

/-- Prune the entry of a package that is no longer installed. -/
def pruneEntry (s : BuildState) (name : String) : BuildState :=
  dropReverted { s with data := s.data.erase name } name

/-- The entry of a package pacman installed. -/
def pacmanEntry (version : String) : Entry :=
  let v := parsePacmanVersion version
  { pkgver := some v.2.1, pkgrel := some v.2.2, epoch := some v.1, buildMode := some "pacman" }

/-- Add the entry of an installed package that has none. -/
def addInstalled (s : BuildState) (p : String × String) : BuildState :=
  { s with data := s.data.set p.1 (pacmanEntry p.2) }

/-- `sync_with_installed`. -/
def syncWithInstalled (s : BuildState) (installed : Dict String String) : BuildState :=
  let removed := s.data.keys.filter (· ∉ installed.keys)
  let added := installed.items.filter fun p => p.1 ∉ s.data.keys
  added.foldl addInstalled (removed.foldl pruneEntry s)

/-- `set_build_mode`. -/
def setBuildMode (s : BuildState) (pkgname mode : String) : BuildState :=
  match s.data.get pkgname with
  | none => s
  | some e => { s with data := s.data.set pkgname { e with buildMode := some mode } }

/-! ## Runs -/

/-- One call on a build state; `now` is the clock reading it takes. -/
inductive Op
  | record (a : RecordArgs) (now : String)
  | revertRecord (pkgname : String) (prior : Option Entry) (artifact : Option String)
  | restoreReverted (artifact : String)
  | delete (pkgname : String)
  | reconcileExternalInstalls (names : List String)
  | recordFailure (a : FailureArgs) (now : String)
  | clearFailure (pkgbase : String)
  | setReviewed (pkgbase commit : String)
  | syncWithInstalled (installed : Dict String String)
  | setBuildMode (pkgname mode : String)

/-- The state after one call. -/
def step (s : BuildState) : Op → BuildState
  | .record a now => s.record a now
  | .revertRecord n p a => s.revertRecord n p a
  | .restoreReverted a => s.restoreReverted a
  | .delete n => s.delete n
  | .reconcileExternalInstalls ns => s.reconcileExternalInstalls ns
  | .recordFailure a now => s.recordFailure a now
  | .clearFailure b => s.clearFailure b
  | .setReviewed b c => s.setReviewed b c
  | .syncWithInstalled i => s.syncWithInstalled i
  | .setBuildMode n m => s.setBuildMode n m

end BuildState

end Sysforge
