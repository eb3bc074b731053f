import Mathlib.Data.String.Basic
import Sysforge.Foundations.Dict
import Sysforge.Foundations.Run

/-!
# The local repo

The local repo publishes the installed packages that no stock repo has. A sync links the artifacts
into the repo directory, has `repo-add` record them, unlinks the files they supersede, and has
`repo-remove` drop the rest. `plan` lists these as single actions in their order, so that a sync
that stops has performed the first of them.
-/

namespace Sysforge.LocalRepo

/-- The files that ever exist: the name each is made under, its size and modification time, its
bytes, and what a package file's name says of the package and its version. -/
structure System (I D : Type*) where
  base : I → String
  stamp : I → ℕ × ℕ
  data : I → D
  pkgOf : String → String
  versionOf : String → String

/-- A record of the repo db, with the bytes that `repo-add` read. -/
structure Record (D : Type*) where
  version : String
  filename : String
  data : D
  deriving DecidableEq

/-- `SyncResult`. -/
structure SyncResult where
  added : List String
  removed : List String
  missing : List String
  deriving DecidableEq

/-- The repo directory, its db, and the once-per-process guard. -/
structure State (I D : Type*) where
  repo : String → Option I
  db : Dict String (Record D)
  synced : Option SyncResult

/-- What a process finds on the host, and after how many actions its sync stops, if it does.
`copy` says for an artifact that cannot be hard-linked which file `shutil.copy2` leaves when it stops
half way and which when it ends. -/
structure Process {I D : Type*} (sys : System I D) where
  installed : String → Option String
  hostOnly : List String
  artifact : String → Option I
  copy : I → Option (I × I)
  stop : Option ℕ
  /-- an artifact is the package's, at the installed version -/
  artifact_file : ∀ n i, artifact n = some i →
    sys.pkgOf (sys.base i) = n ∧ installed n = some (sys.versionOf (sys.base i))
  /-- a copy has the artifact's name, size, time and bytes -/
  copy_file : ∀ i p, copy i = some p → sys.base p.1 = sys.base i ∧ sys.base p.2 = sys.base i ∧
    sys.stamp p.2 = sys.stamp i ∧ sys.data p.2 = sys.data i

/-- One action of a sync. -/
inductive Action (I : Type*)
  /-- `unlink` in the repo directory -/
  | unlink (filename : String)
  /-- the file is in the repo directory now -/
  | place (i : I)
  /-- `repo-add` -/
  | add (filenames : List String)
  /-- `repo-remove` -/
  | remove (names : List String)

section Model

variable {I D : Type*} [DecidableEq I] (sys : System I D)

/-- `_same_file`: one inode, or the same size and modification time. -/
def sameFile (i j : I) : Bool := i = j || sys.stamp i = sys.stamp j

/-- `repo-add` reads the file and records it under its package's name. -/
def addFile (repo : String → Option I) (db : Dict String (Record D)) (filename : String) :
    Dict String (Record D) :=
  match repo filename with
  | none => db
  | some i => db.set (sys.pkgOf filename) ⟨sys.versionOf filename, filename, sys.data i⟩

/-- The effect of an action. -/
def exec (s : State I D) : Action I → State I D
  | .unlink filename => { s with repo := Function.update s.repo filename none }
  | .place i => { s with repo := Function.update s.repo (sys.base i) (some i) }
  | .add filenames => { s with db := filenames.foldl (addFile sys s.repo) s.db }
  | .remove names => { s with db := names.foldl (fun d n => d.erase n) s.db }

variable {sys} (s : State I D) (p : Process sys)

/-- The artifacts to publish, `desired`. -/
def desired : List I := p.hostOnly.filterMap p.artifact

/-- The package of an artifact. -/
def package (sys : System I D) (i : I) : String := sys.pkgOf (sys.base i)

/-- Without an artifact, the repo still holds the build that the host runs. -/
def keeps (n : String) : Bool :=
  match p.artifact n, p.installed n, s.db.get n with
  | none, some version, some r => r.version = version && (s.repo r.filename).isSome
  | _, _, _ => false

/-- `kept`. -/
def kept : List String := p.hostOnly.filter (keeps s p)

/-- The packages without an artifact whose published build is not the one the host runs. -/
def missing : List String :=
  p.hostOnly.filter fun n => (p.artifact n).isNone && (p.installed n).isSome && !keeps s p n

/-- The published file name is the artifact's, and the published file is the artifact. -/
def published (sys : System I D) (s : State I D) (i : I) : Bool :=
  ((s.db.get (package sys i)).any fun r => r.filename = sys.base i) &&
    (s.repo (sys.base i)).any fun j => sameFile sys i j

/-- `to_add`. -/
def toAdd : List I := (desired p).filter fun i => !published sys s i

/-- `to_remove`. -/
def toRemove : List String :=
  (s.db.sorted.map Prod.fst).filter fun n =>
    n ∉ (desired p).map (package sys) && n ∉ kept s p

/-- A hard link, or a copy when the artifact is on another filesystem. -/
def link (i : I) : List (Action I) :=
  match p.copy i with
  | none => [.place i]
  | some (half, whole) => [.place half, .place whole]

/-- `_link_in`. -/
def linkIn (i : I) : List (Action I) :=
  match s.repo (sys.base i) with
  | none => link p i
  | some j => if sameFile sys i j then [] else .unlink (sys.base i) :: link p i

/-- The superseded file of an artifact to add, under another name. -/
def superseded (sys : System I D) (s : State I D) (i : I) : Option String :=
  ((s.db.get (package sys i)).map (·.filename)).filter fun old => old ≠ sys.base i

/-- The actions of a sync, in order. No two artifacts to add have the same file name, so what
`_link_in` finds for one is what was there before the others. -/
def plan : List (Action I) :=
  (if toAdd s p = [] then [] else
    (toAdd s p).flatMap (linkIn s p) ++ [.add ((toAdd s p).map sys.base)] ++
      ((toAdd s p).filterMap (superseded sys s)).map .unlink) ++
  if toRemove s p = [] then [] else
    .remove (toRemove s p) ::
      ((toRemove s p).filterMap fun n => (s.db.get n).map (·.filename)).map .unlink

/-- `sync`: the result, unless the sync stops, and the state it leaves. -/
def sync : Option SyncResult × State I D :=
  match s.synced with
  | some _ => (some ⟨[], [], []⟩, s)
  | none =>
    match p.stop with
    | some k => (none, ((plan s p).take k).foldl (exec sys) s)
    | none =>
      let result : SyncResult := ⟨((toAdd s p).map (package sys)).insertionSort (· ≤ ·),
        toRemove s p, missing s p⟩
      (some result, { (plan s p).foldl (exec sys) s with synced := some result })

/-- One process: the guard is reset, and the repo is synced. -/
def step (sys : System I D) (s : State I D) (p : Process sys) : State I D :=
  (sync { s with synced := none } p).2

end Model

end Sysforge.LocalRepo
