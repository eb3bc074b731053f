import Sysforge.Foundations.Dict
import Sysforge.Foundations.Lines
import Sysforge.Foundations.Run

/-!
# The artifacts of a build

A build leaves its package files in `PKGDEST`, which every package shares, or in the directory of the
PKGBUILD. The install comes later, and has to find the files of this build among them: a manifest
beside the PKGBUILD names them, when the build could record it; else the names and the version of
the PKGBUILD select them. A package file is its name with a content of any type.
-/

namespace Sysforge.BuiltArtifacts

open Text

/-! ## Package file names -/

/-- `_PKG_FILENAME_EXT` matches here up to the end. -/
def extAt (t : Text) : Bool :=
  ".pkg.tar".toList.isPrefixOf t &&
    match t.drop ".pkg.tar".toList.length with
    | [] => true
    | '.' :: ext => ext ≠ [] && '.' ∉ ext
    | rest => rest = ['\n']

/-- The name before the extension. -/
def stem (filename : Text) : Option Text :=
  ((List.range (filename.length + 1)).find? fun i => extAt (filename.drop i)).map filename.take

/-- The epoch and the pkgver of the version field. -/
def epochVer (ver : Text) : Text × Text :=
  if ':' ∈ ver then (ver.takeWhile (· ≠ ':'), (ver.dropWhile (· ≠ ':')).tail) else (['0'], ver)

/-- `_parse_built_pkg_filename`: epoch, pkgver and pkgrel. -/
def parseBuiltPkgFilename (pkgname filename : Text) : Option (Text × Text × Text) :=
  (stem filename).bind fun s =>
    if !(pkgname ++ ['-']).isPrefixOf s then none
    else
      match split '-' (s.drop (pkgname.length + 1)) with
      | [ver, pkgrel, _] =>
        let (epoch, ver) := epochVer ver
        if ver = [] ∨ pkgrel = [] then none else some (epoch, ver, pkgrel)
      | _ => none

/-- What `_find_built_packages` globs. -/
def isBuiltPackage (name : Text) : Bool :=
  contains ".pkg.tar".toList name && !".sig".toList.isSuffixOf name

/-! ## The state between a build and its install -/

/-- A value of `parse_pkgbuild`'s globals. -/
inductive Global
  | str (s : Text)
  | list (l : List Text)

/-- The two directories that hold package files, the manifest, and what `parse_pkgbuild` makes of
the PKGBUILD: nothing when it is missing or cannot be read. `PKGDEST` is absent when it is unset or
the directory itself. -/
structure World (β : Type*) where
  path : String
  pkgdest : Option (Dict Text β)
  dir : Dict Text β
  manifest : Option Text
  pkgbuild : Option (Dict String Global)

/-- A package file that was found. -/
structure File (β : Type*) where
  inPkgdest : Bool
  name : Text
  content : β

variable {β : Type*} (w : World β)

/-- The package files of a directory. -/
def filesOf (inPkgdest : Bool) (d : Dict Text β) : List (File β) :=
  (d.items.filter fun p => isBuiltPackage p.1).map fun p => ⟨inPkgdest, p.1, p.2⟩

/-- A file joins the ones found, unless its name is among them. -/
def addFile (found : List (File β)) (f : File β) : List (File β) :=
  if f.name ∈ found.map File.name then found else found ++ [f]

/-- The files of both directories, `PKGDEST` first. -/
def allFiles : List (File β) := w.pkgdest.toList.flatMap (filesOf true) ++ filesOf false w.dir

/-- `_find_artifacts`. -/
def findArtifacts : List (File β) := (allFiles w).foldl addFile []

/-- `_read_built_manifest`. -/
def readBuiltManifest : List Text :=
  match w.manifest with
  | none => []
  | some text => ((splitlines text).map strip).filter (· ≠ [])

/-- `_one` of `_pkgbuild_version`. -/
def one (globals : Dict String Global) (key : String) : Text :=
  match globals.get key with
  | none => []
  | some (.str s) => s
  | some (.list l) => l.headD []

/-- `_pkgbuild_version`. -/
def pkgbuildVersion (globals : Dict String Global) : Option (Text × Text × Text) :=
  let pkgver := one globals "pkgver"
  let pkgrel := one globals "pkgrel"
  if pkgver = [] ∨ pkgrel = [] then none
  else some (if one globals "epoch" = [] then ['0'] else one globals "epoch", pkgver, pkgrel)

/-- The pkgnames of the PKGBUILD. -/
def pkgnames (globals : Dict String Global) : List Text :=
  match globals.get "pkgname" with
  | none => []
  | some (.str s) => [s]
  | some (.list l) => l

/-- The version of a file under the pkgnames; the last one that fits decides. -/
def versionOf (names : List Text) (filename : Text) : Option (Text × Text × Text) :=
  (names.filterMap fun n => parseBuiltPkgFilename n filename).getLast?

/-- The files that the PKGBUILD's own names and version select. -/
def scopedArtifacts (found : List (File β)) (globals : Dict String Global) : List (File β) :=
  if pkgnames globals = [] then found
  else
    let own := found.filter fun f => (versionOf (pkgnames globals) f.name).isSome
    let current := own.filter fun f =>
      versionOf (pkgnames globals) f.name = pkgbuildVersion globals
    if current.isEmpty then own else current

/-- `_artifacts_for_pkgbuild`. -/
def artifactsForPkgbuild : List (File β) :=
  let found := findArtifacts w
  let wanted := readBuiltManifest w
  let exact := found.filter fun f => f.name ∈ wanted
  if !exact.isEmpty then exact
  else
    match w.pkgbuild with
    | none => found
    | some globals => scopedArtifacts found globals

/-- What `install_built_packages` hands to `pacman -U`, or its error. -/
def handed : Except String (List (File β)) :=
  if (artifactsForPkgbuild w).isEmpty then
    .error ("no built package found in " ++ w.path ++ ": nothing to install")
  else .ok (artifactsForPkgbuild w)

/-- `install_built_packages`, when pacman succeeds or fails: the manifest goes after a success. -/
def installBuiltPackages (succeeds : Bool) : World β :=
  match handed w with
  | .error _ => w
  | .ok _ => if succeeds then { w with manifest := none } else w

/-! ## Builds -/

/-- The package name in a file name: version, pkgrel and architecture are the last three fields. -/
def pkgnameOf (filename : Text) : Text :=
  List.intercalate ['-'] (split '-' filename).dropLast.dropLast.dropLast

/-- A run of `makepkg`, with the names that `--packagelist` prints for it. -/
structure Build (β : Type*) where
  names : List Text
  /-- the directory that `--packagelist` prints -/
  dest : Text
  contents : Text → β
  /-- it ended `AlreadyBuilt` -/
  already : Bool
  /-- an extracted profile or a rename asks for the manifest -/
  recorded : Bool
  /-- `makepkg --packagelist` answers, and the manifest can be written -/
  captures : Bool
  dest_oneLine : OneLine dest
  plain : ∀ n ∈ names, n ≠ [] ∧ '/' ∉ n ∧ NoSpace n ∧ isBuiltPackage n = true
  nonempty : names ≠ []
  once : (names.map pkgnameOf).Nodup

/-- What `makepkg --packagelist` prints. -/
def packagelist (b : Build β) : Text := unlines (b.names.map fun n => b.dest ++ '/' :: n)

/-- `_capture_built_manifest`: the manifest after it. -/
def captureBuiltManifest (stdout : Option Text) (manifest : Option Text) : Option Text :=
  match stdout with
  | none => manifest
  | some out =>
    let names := (((splitlines out).map strip).filter (· ≠ [])).map baseName
    if names = [] then manifest else some (unlines names)

/-- Put the files of a build in a directory. -/
def emit (b : Build β) (d : Dict Text β) : Dict Text β :=
  b.names.foldl (fun d n => d.set n (b.contents n)) d

/-- The files after `makepkg`. -/
def makepkg (b : Build β) : World β :=
  if b.already then w
  else
    match w.pkgdest with
    | some d => { w with pkgdest := some (emit b d) }
    | none => { w with dir := emit b w.dir }

/-- The end of `_run_build_locked`. -/
def build (b : Build β) : World β :=
  let w := makepkg w b
  if b.recorded then
    { w with
      manifest := captureBuiltManifest (if b.captures then some (packagelist b) else none)
        w.manifest }
  else if b.already then { w with manifest := none }
  else w

/-- What can happen in the directory of a PKGBUILD. -/
inductive Op (β : Type*)
  | build (b : Build β)
  | install (succeeds : Bool)
  /-- other builds, deletions, and changes of the PKGBUILD -/
  | change (pkgdest : Option (Dict Text β)) (dir : Dict Text β)
      (pkgbuild : Option (Dict String Global))

/-- One of them. -/
def step : Op β → World β
  | .build b => build w b
  | .install succeeds => installBuiltPackages w succeeds
  | .change pkgdest dir pkgbuild => { w with pkgdest, dir, pkgbuild }

end Sysforge.BuiltArtifacts
