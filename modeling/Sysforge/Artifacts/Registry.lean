import Sysforge.Foundations.Dict
import Sysforge.Foundations.Run

/-!
# Managed artifacts

A managed artifact has two files: the authoritative copy in the content directory and the live file
at its destination. The registry keeps two hashes of it, that of the managed copy and that of what
was last deployed, from which the status is computed each time. This module has the operations of
`artifacts.py`; `Sysforge.Artifacts.RegistryRuns` has what any sequence of them keeps.
-/

namespace Sysforge.Artifacts

/-- `ARTIFACT_CLASSES`. -/
inductive Class
  | script
  | unit
  | hook
  deriving DecidableEq, Repr

/-- A resolved path: the directory and the name in it. -/
structure Path where
  parent : String
  name : String
  deriving DecidableEq, Repr

/-- One row of the registry. It never holds content. -/
structure Artifact (H : Type*) where
  name : String
  dest : Path
  cls : Class
  authHash : H
  deployedHash : Option H
  deployedAt : Option String

/-- The three-way comparison's answers. -/
inductive Status
  | ok
  | pending
  | drifted
  | conflict
  | missing
  deriving DecidableEq, Repr

/-- The refusals, `ArtifactError`, by what they say. -/
inductive ArtifactError
  /-- the class is unknown -/
  | unknownClass (cls : Option Class)
  /-- a hook that sysforge provisions itself -/
  | sysforgeOwned (name : String)
  /-- not found or unreadable -/
  | notFound (src : Path)
  /-- already managed -/
  | alreadyManaged (name : String)
  /-- not managed -/
  | notManaged (name : String)
  /-- the managed copy is unreadable -/
  | unreadable (name : String)
  /-- `--force` and `--adopt-live` are mutually exclusive -/
  | exclusive
  /-- `--adopt-live` would overwrite the managed edit -/
  | adoptPending (name : String)
  /-- there is nothing to adopt -/
  | adoptMissing (name : String)
  /-- the live file changed outside sysforge -/
  | changedOutside (name : String) (status : Status)
  deriving DecidableEq

/-- What the operations rely on: `hash_bytes`, the configured roots with their classes, and
`_sysforge_owned_names`. -/
structure Setting (C H : Type*) where
  hash : C → H
  roots : List (String × Class)
  sysforgeOwnedNames : List String

/-- The registry, the content directory and the readable live files. -/
structure World (C H : Type*) where
  entries : Dict String (Artifact H)
  content : String → Option C
  live : Path → Option C

/-- Nothing is managed yet; the live files are arbitrary. -/
def World.init {C H : Type*} (live : Path → Option C) : World C H := ⟨.empty, fun _ => none, live⟩

section Operations

variable {C H : Type*} [DecidableEq H] (s : Setting C H) (w : World C H)

/-- `status_of`. -/
def statusOf (art : Artifact H) : Status :=
  match (w.live art.dest).map s.hash with
  | none => .missing
  | some live =>
    match art.deployedHash with
    -- no anchor to attribute a difference against
    | none => if live = art.authHash then .ok else .conflict
    | some deployed =>
      let authMoved : Bool := art.authHash ≠ deployed
      let liveMoved : Bool := live ≠ deployed
      if ¬ authMoved ∧ ¬ liveMoved then .ok
      else if authMoved ∧ ¬ liveMoved then .pending
      else if ¬ authMoved ∧ liveMoved then .drifted
      else .conflict

omit [DecidableEq H] in
/-- `class_for_path`: the class of the root that contains the path. -/
def classForPath (path : Path) : Option Class :=
  (s.roots.find? fun r => r.1 = path.parent).map Prod.snd

omit [DecidableEq H] in
/-- `adopt`: copy a live file into the managed set and record it. -/
def adopt (src : Path) (cls : Option Class) (now : String) :
    Except ArtifactError (Artifact H) × World C H :=
  match cls.or (classForPath s src) with
  | none => (.error (.unknownClass cls), w)
  | some cls =>
    if cls = .hook ∧ src.name ∈ s.sysforgeOwnedNames then (.error (.sysforgeOwned src.name), w)
    else
      match w.live src with
      | none => (.error (.notFound src), w)
      | some data =>
        match w.entries.get src.name with
        | some _ => (.error (.alreadyManaged src.name), w)
        | none =>
          let digest := s.hash data
          -- the live file is the last-deployed state at this moment
          let art := ⟨src.name, src, cls, digest, some digest, some now⟩
          (.ok art,
            { w with
              content := Function.update w.content src.name (some data)
              entries := w.entries.set src.name art })

omit [DecidableEq H] in
/-- `rehash`: only the hash of the managed copy moves. -/
def rehash (name : String) : Except ArtifactError (Artifact H) × World C H :=
  match w.entries.get name with
  | none => (.error (.notManaged name), w)
  | some art =>
    match w.content name with
    | none => (.error (.unreadable name), w)
    | some data =>
      let updated := { art with authHash := s.hash data }
      (.ok updated, { w with entries := w.entries.set name updated })

omit [DecidableEq H] in
/-- `artifact edit` with an editor that saves `data` and ends normally: the managed copy changes and
is hashed again. -/
def edit (name : String) (data : C) : Except ArtifactError (Artifact H) × World C H :=
  match w.entries.get name with
  | none => (.error (.notManaged name), w)
  | some _ => rehash s { w with content := Function.update w.content name (some data) } name

/-- The refusals of `deploy`, from the flags and the status. -/
def deployRefusal (name : String) (force adoptLive : Bool) (status : Status) :
    Option ArtifactError :=
  if adoptLive ∧ status = .pending then some (.adoptPending name)
  else if adoptLive ∧ status = .missing then some (.adoptMissing name)
  else if (status = .drifted ∨ status = .conflict) ∧ ¬ (force ∨ adoptLive) then
    some (.changedOutside name status)
  else none

omit [DecidableEq H] in
/-- The `adopt_live` step of `deploy`: the live content becomes the managed copy. -/
def pullLive (name : String) (art : Artifact H) : Except ArtifactError (Artifact H) × World C H :=
  match w.live art.dest with
  | none => (.error (.notFound art.dest), w)
  | some data => rehash s { w with content := Function.update w.content name (some data) } name

omit [DecidableEq H] in
/-- The rest of `deploy`: nothing when the artifact is `ok`, else the live file is written and both
hashes are recorded. -/
def pushLive (name : String) (art : Artifact H) (status : Status) (adoptLive : Bool)
    (now : String) : Except ArtifactError Status × World C H :=
  match w.content name with
  | none => (.error (.unreadable name), w)
  | some data =>
    if status = .ok ∧ ¬ adoptLive then (.ok .ok, w)
    else
      let digest := s.hash data
      (.ok .ok,
        { w with
          live := Function.update w.live art.dest (some data)
          entries := w.entries.set name
            { art with authHash := digest, deployedHash := some digest, deployedAt := some now } })

/-- `deploy`. -/
def deploy (name : String) (force adoptLive : Bool) (now : String) :
    Except ArtifactError Status × World C H :=
  if force ∧ adoptLive then (.error .exclusive, w)
  else
    match w.entries.get name with
    | none => (.error (.notManaged name), w)
    | some art =>
      let status := statusOf s w art
      match deployRefusal name force adoptLive status with
      | some e => (.error e, w)
      | none =>
        if adoptLive then
          match pullLive s w name art with
          | (.error e, w) => (.error e, w)
          | (.ok art, w) => pushLive s w name art status adoptLive now
        else pushLive s w name art status adoptLive now

/-- `remove`. -/
def remove (name : String) (purge force : Bool) : Except ArtifactError Unit × World C H :=
  match w.entries.get name with
  | none => (.error (.notManaged name), w)
  | some art =>
    let status := statusOf s w art
    if (status = .drifted ∨ status = .conflict) ∧ ¬ force then
      (.error (.changedOutside name status), w)
    else
      let live := Function.update w.live art.dest none
      if purge then
        (.ok (), ⟨w.entries.erase name, Function.update w.content name none, live⟩)
      else
        (.ok (), ⟨w.entries.set name { art with deployedHash := none, deployedAt := none },
          w.content, live⟩)

end Operations

end Sysforge.Artifacts
