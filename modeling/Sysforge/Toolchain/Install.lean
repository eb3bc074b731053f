import Mathlib.Data.List.Sort
import Mathlib.Data.String.Basic
import Sysforge.Foundations.Dict
import Sysforge.Foundations.Lines
import Sysforge.Foundations.Worklist

/-!
# Installing and rolling back a toolchain

The stage snapshots the installed toolchain, selects what to install of the packages it has built,
installs them with one `pacman -U`, and on a failed verification removes what it added and reinstalls
the snapshot. Installed packages are a map from names to builds; `pacman -U` replaces the packages of
the files it is given and `-Rdd` removes the named ones.
-/

namespace Sysforge.Toolchain

/-- A package file, as its `.PKGINFO` describes it; a file without a readable name cannot be
installed. -/
structure Archive (β : Type*) where
  pkgname : Option String
  depend : List String
  build : β

/-- The files of the host by path. -/
abbrev Files (β : Type*) := String → Option (Archive β)

/-- The installed packages. -/
abbrev Installed (β : Type*) := Dict String β

/-- `LLVM_LOCKSTEP_SUITE`. -/
def llvmLockstepSuite : List String :=
  ["llvm", "llvm-libs", "clang", "clang-libs", "lld", "compiler-rt", "polly", "openmp"]

/-- What the host answers about PKGBUILDs and packages, a PKGBUILD going by its directory. -/
structure Host (β : Type*) where
  /-- the version of a build, as `pacman -Q` prints it -/
  version : β → String
  /-- `parse_pkgbuild`'s `pkgname`; a parse error has none -/
  pkgnames : String → Option (List String)
  /-- `makepkg --packagelist` -/
  packagelist : String → Option (List String)
  /-- the cache directories with the names of their files -/
  cacheDirs : List (String × List String)

variable {β : Type*} (host : Host β) (files : Files β) (sys : Installed β)

/-- `read_pkgname_from_file`. -/
def readPkgnameFromFile (p : String) : Option String := (files p).bind Archive.pkgname

/-- `get_installed_version`. -/
def getInstalledVersion (n : String) : Option String := (sys.get n).map host.version

/-- `install_names`: the configured names and the installed members of the PKGBUILDs. -/
def installNames (built : Dict String String) : List String :=
  built.keys ++ (built.items.map Prod.snd).dedup.flatMap fun dir =>
    ((host.pkgnames dir).getD []).filter (· ∈ sys.keys)

/-! ## The snapshot -/

/-- The text ends in another. -/
def endsWith (suffix s : String) : Bool := suffix.toList.isSuffixOf s.toList

/-- `{name}-{ver}-*.pkg.tar*` matches the file name. -/
def isArchiveOf (name ver file : String) : Bool :=
  let opening := (name ++ "-" ++ ver ++ "-").toList
  opening.isPrefixOf file.toList &&
    Text.contains ".pkg.tar".toList (file.toList.drop opening.length)

/-- The cached archive of a package at a version. -/
def cachedPkgFile (name ver : String) : Option String :=
  host.cacheDirs.findSome? fun d =>
    ((d.2.insertionSort (· ≤ ·)).find? fun f => isArchiveOf name ver f && !endsWith ".sig" f).map
      fun f => d.1 ++ "/" ++ f

/-- `cached_pkg_files_for`. -/
def cachedPkgFilesFor (names : List String) : List (String × Option String) :=
  names.map fun n => (n, (getInstalledVersion host sys n).bind (cachedPkgFile host n))

/-- `path.parent.name` of a PKGBUILD. -/
def dirName (dir : String) : String := String.ofList (Text.baseName dir.toList)

/-- `snapshot_suite`. -/
def snapshotSuite (built : Dict String String) (extraNames : List String) :
    List (String × Option String) :=
  let names := llvmLockstepSuite ++ built.items.map (fun q => dirName q.2) ++ built.keys ++ extraNames
  cachedPkgFilesFor host sys
    ((names.dedup.insertionSort (· ≤ ·)).filter fun n => (getInstalledVersion host sys n).isSome)

/-! ## The install -/

/-- `collect_pgo_packages`. -/
def collectPgoPackages (built : Dict String String) : List String :=
  (built.items.map Prod.snd).dedup.flatMap fun dir =>
    ((host.packagelist dir).getD []).filter fun p => (files p).isSome && !endsWith ".sig" p

/-- `select_install_members`: the wanted packages and the members they depend on. -/
def selectInstallMembers (pkgFiles wanted : List String) : List String :=
  let nameOf := (Dict.ofItems (pkgFiles.map fun p => (p, readPkgnameFromFile files p))).items
  let built := (nameOf.filterMap Prod.snd).dedup
  let depends (n : String) : List String :=
    ((nameOf.filter fun q => q.2 = some n).flatMap fun q =>
      ((files q.1).map Archive.depend).getD []).filter (· ∈ built)
  let selected := Worklist.closure depends built.length (built.filter (· ∈ wanted))
  (nameOf.filter fun q => q.2.all (· ∈ selected)).map Prod.fst

/-- `pacman -U` of one file. -/
def installFile (sys : Installed β) (p : String) : Installed β :=
  match files p with
  | none => sys
  | some a =>
    match a.pkgname with
    | none => sys
    | some n => sys.set n a.build

/-- How a pacman transaction ends: well, or with a failure after which only some of its packages are
changed. -/
inductive Outcome
  | ok
  | failed (done : String → Bool)

/-- `pacman -U`, with whether it succeeds. -/
def pacmanU (o : Outcome) (ps : List String) : Bool × Installed β :=
  match o with
  | .ok => (true, ps.foldl (installFile files) sys)
  | .failed done => (false, (ps.filter done).foldl (installFile files) sys)

/-- `pgo_install`, with whether it returns. -/
def pgoInstall (o : Outcome) (built : Dict String String) (dryRun : Bool)
    (members : Option (List String)) : Bool × Installed β :=
  let pkgs := collectPgoPackages host files built
  if dryRun then (true, sys)
  else if pkgs = [] then (false, sys)
  else pacmanU files sys o ((members.map (selectInstallMembers files pkgs)).getD pkgs)

/-- `install_adds`. -/
def installAdds (built : Dict String String) (installSet : List String) : List String :=
  let chosen := selectInstallMembers files (collectPgoPackages host files built) installSet
  ((chosen.filterMap (readPkgnameFromFile files)).dedup.insertionSort (· ≤ ·)).filter fun n =>
    (getInstalledVersion host sys n).isNone

/-! ## The rollback -/

/-- `remove_pkgs`, with whether it succeeds. -/
def removePkgs (o : Outcome) (names : List String) : Bool × Installed β :=
  match o with
  | .ok => (true, names.foldl (fun s n => s.erase n) sys)
  | .failed done => (false, (names.filter done).foldl (fun s n => s.erase n) sys)

/-- `batch_install_pkgs`: files that are gone are left out. -/
def batchInstallPkgs (o : Outcome) (ps : List String) : Bool × Installed β :=
  let present := ps.filter fun p => (files p).isSome
  if present = [] then (false, sys) else pacmanU files sys o present

/-- `rollback_to_snapshot`. -/
def rollbackToSnapshot (removal install : Outcome) (snapshot : List (String × Option String))
    (added : List String) : Bool × Installed β :=
  let paths := snapshot.filterMap Prod.snd
  if snapshot.any (fun q => q.2.isNone) then (false, sys)
  else if paths = [] then (false, sys)
  else
    let present := added.filter fun n => (getInstalledVersion host sys n).isSome
    if present = [] then batchInstallPkgs files sys install paths
    else match removePkgs sys removal present with
      | (false, s) => (false, s)
      | (true, s) => batchInstallPkgs files s install paths

end Sysforge.Toolchain
