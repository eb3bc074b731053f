import Sysforge.State.BuildStateFile
import Sysforge.Foundations.Run

/-!
# Two copies of one build state

Every writer of `build_state.toml` works on its own copy of the file and writes it back whole, so
a save can roll back what another writer recorded. `save` looks for such entries when the file has
changed under it: `_warn_lost_updates` compares the `built_at` of each entry on disk with that of
the entry about to be written. This module models copies that load, change and save in any order;
what the warning catches is the subject of `State/BuildStateSharedRuns.lean`.

The signature of a file, `(st_ino, st_mtime_ns, st_size)`, comes from the file system.
-/

namespace Sysforge.BuildState

open Toml

/-! ## Loading a copy -/

/-- A string field of a dictionary read from the file. -/
def strField (t : Table) (k : String) : Option String :=
  match t.lookup k with
  | some (.str s) => some s
  | _ => none

/-- A boolean field of a dictionary read from the file. -/
def boolField (t : Table) (k : String) : Option Bool :=
  match t.lookup k with
  | some (.bool b) => some b
  | _ => none

/-- The install record of a dictionary. A save writes each field with the type it is read with. -/
def readEntry (t : Table) : Entry where
  pkgver := strField t "pkgver"
  pkgrel := strField t "pkgrel"
  epoch := strField t "epoch"
  pkgbase := strField t "pkgbase"
  pkgbuildDir := strField t "pkgbuild_dir"
  buildMode := strField t "build_mode"
  flagsString := strField t "flags_string"
  builtAt := strField t "built_at"
  builtUpstreamCommit := strField t "built_upstream_commit"
  source := strField t "source"
  ownerStage := strField t "owner_stage"
  toolchainVariant := strField t "toolchain_variant"
  toolchainFingerprint := strField t "toolchain_fingerprint"
  reviewedCommit := strField t "reviewed_commit"
  originPkgbase := strField t "origin_pkgbase"
  buildSeconds := strField t "build_seconds"
  sandboxed := boolField t "sandboxed"
  buildInputs := strField t "build_inputs"
  compiles := boolField t "compiles"

/-- The failure of a dictionary. -/
def readFailure (t : Table) : Failure where
  failedAt := (strField t "failed_at").getD ""
  kind := strField t "kind"
  pkgver := strField t "pkgver"
  signature := strField t "signature"
  fixCmd := strField t "fix_cmd"
  error := (strField t "error").getD ""

/-- The stash of a dictionary. -/
def readStash (t : Table) : Stash := ⟨(strField t "pkgname").getD "", readEntry t⟩

/-- The dictionary of the tables of a section. -/
def readTables {α : Type*} (read : Table → α) (t : Table) : Dict String α :=
  .ofItems <| t.filterMap fun p => match p.2 with
    | .table u => some (p.1, read u)
    | _ => none

/-- The dictionary of the strings of a section. -/
def readStrings (t : Table) : Dict String String :=
  .ofItems <| t.filterMap fun p => match p.2 with
    | .str s => some (p.1, s)
    | _ => none

/-- The state of a file that can be read. -/
def readState (txt : Text) : Option BuildState :=
  (load txt).map fun l => ⟨readTables readEntry l.data, readTables readFailure l.failures,
    readTables readStash l.reverted, readStrings l.reviewed⟩

/-- `_stat_sig` of a file that is there. -/
structure Sig where
  ino : ℕ
  mtimeNs : ℕ
  size : ℕ
  deriving DecidableEq

/-- `_built_at`. -/
def Entry.builtAtOr (e : Entry) : String := e.builtAt.getD ""

/-- `{k: _built_at(v) for k, v in data.items()}`. -/
def builtAts (data : Dict String Entry) : Dict String String := data.map fun _ e => e.builtAtOr

/-- A `BuildState` object: the mirror, and what the file looked like when it was last read or
written. -/
structure Instance where
  state : BuildState
  diskSig : Option Sig
  loadedBuiltAt : Dict String String

/-- `__init__` over a file and its signature; a file that cannot be read raises. -/
def Instance.init (file : Option Text) (sig : Option Sig) : Option Instance :=
  match file with
  | none => some ⟨.empty, sig, builtAts BuildState.empty.data⟩
  | some txt => (readState txt).map fun s => ⟨s, sig, builtAts s.data⟩

/-! ## Saving -/

/-- An entry named in the warning. -/
inductive Lost
  | added (name diskAt : String)
  | regressed (name diskAt mine : String)
  deriving DecidableEq

/-- The name of a lost entry. -/
def Lost.name : Lost → String
  | .added n _ => n
  | .regressed n _ _ => n

/-- How the warning lists an entry. -/
def Lost.text : Lost → String
  | .added n d => n ++ " (added " ++ (if d = "" then "by another writer" else d) ++ ")"
  | .regressed n d m =>
    n ++ " (on disk " ++ d ++ ", writing " ++ (if m = "" then "none" else m) ++ ")"

/-- `disk_at and (not mine or disk_at > mine)`. -/
def later (diskAt mine : String) : Bool := diskAt ≠ "" && (mine = "" || mine < diskAt)

/-- What the loop of `_warn_lost_updates` says about one entry on disk. -/
def Instance.lostEntry (i : Instance) (name : String) (entry : Entry) : Option Lost :=
  match (i.state.data.get name).map Entry.builtAtOr |>.or (i.loadedBuiltAt.get name) with
  | none => some (.added name entry.builtAtOr)
  | some mine =>
    if later entry.builtAtOr mine then some (.regressed name entry.builtAtOr mine) else none

/-- The entries `_warn_lost_updates` lists; none when the file cannot be read. -/
def Instance.lostUpdates (i : Instance) (file : Option Text) : List Lost :=
  match file.bind readState with
  | none => []
  | some disk => disk.data.sorted.filterMap fun p => i.lostEntry p.1 p.2

/-- The entries the warning of a `save` over a file names: none when the file is the one last seen,
and no warning when none. -/
def Instance.warned (i : Instance) (file : Option Text) (sig : Option Sig) : List Lost :=
  if sig ≠ i.diskSig then i.lostUpdates file else []

/-- The object after a `save` that left a file with this signature. -/
def Instance.saved (i : Instance) (sig : Sig) : Instance :=
  { i with diskSig := some sig, loadedBuiltAt := builtAts i.state.data }

/-! ## Copies over one file -/

/-- The calls between a load and a save that change install entries. -/
def Op.editsInstalls : Op → Bool
  | .record .. | .delete _ | .reconcileExternalInstalls _ | .setBuildMode .. => true
  | _ => false

/-- What a holder of a copy does next. -/
inductive Action
  | load
  | edit (op : {op : Op // op.editsInstalls = true})
  | save

/-- A copy, with what no code keeps: how many saves there had been when it last loaded or saved,
and its entries then. -/
structure Copy extends Instance where
  seen : ℕ
  base : Dict String Entry

/-- The file, how many saves there have been, and the copies. -/
structure Shared (ι : Type*) where
  file : Option Text
  saves : ℕ
  copies : ι → Option Copy

namespace Shared

variable {ι : Type*} [DecidableEq ι]

/-- The signature of the file now; `stat n` is that of the file after `n` saves. -/
def sig (stat : ℕ → Sig) (w : Shared ι) : Option Sig := w.file.map fun _ => stat w.saves

/-- Give a holder another copy. -/
def setCopy (w : Shared ι) (i : ι) (c : Option Copy) : Shared ι :=
  { w with copies := fun j => if j = i then c else w.copies j }

/-- One holder takes one action. -/
def step (stat : ℕ → Sig) (w : Shared ι) (a : ι × Action) : Shared ι :=
  match a.2, w.copies a.1 with
  | .load, _ => w.setCopy a.1 <|
      (Instance.init w.file (w.sig stat)).map fun i => ⟨i, w.saves, i.state.data⟩
  | .edit op, some c => w.setCopy a.1 (some { c with state := c.state.step op.1 })
  | .save, some c =>
    { w with file := some c.state.serialize, saves := w.saves + 1 }.setCopy a.1
      (some ⟨c.toInstance.saved (stat (w.saves + 1)), w.saves + 1, c.state.data⟩)
  | _, none => w

/-- The entries the warning of a save by this copy would name. -/
def warned (stat : ℕ → Sig) (w : Shared ι) (c : Copy) : List String :=
  (c.toInstance.warned w.file (w.sig stat)).map Lost.name

/-- Nobody holds a copy yet, and the file is absent or one that a state was saved to. -/
def start (s : Option BuildState) : Shared ι := ⟨s.map serialize, 0, fun _ => none⟩

end Shared

end Sysforge.BuildState
