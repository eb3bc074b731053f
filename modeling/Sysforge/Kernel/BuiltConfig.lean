import Mathlib.Data.List.MinMax
import Mathlib.Data.List.Sort
import Sysforge.Foundations.Regex
import Sysforge.Kernel.BootAudit

/-!
# The config and the packages of a built kernel

After a build the stage looks for the resolved `.config` in the build trees, and for the package
files by the manifest of the build or by their names. When makepkg reuses a package, the config is
looked for under the release string that the package ships: in its build tree, in the archive of
configs, and in the headers package.

A package file carries, beside what the code reads of it, the `.config` it was built from, and an
archived config the kernel name and release it was archived for.
-/

namespace Sysforge.Kernel

open Text

/-- A `.config` below the `src` of a build tree, with the `kernel.release` beside it. -/
structure TreeConfig where
  text : Option Text
  release : Option String
  mtime : ℕ

/-- A package file: the releases of its `vmlinuz` and of its headers' `.config`, and the config it was
built from. -/
structure PackageFile where
  vmlinuz : Option String
  headers : Option (String × Text)
  config : Text
  deriving DecidableEq

/-- A file of `kconfig-history`. -/
structure ArchivedConfig where
  text : Text
  mtime : ℕ
  pkgname : String
  release : String

/-- The build trees by root and path, the package files by directory and name, the manifests by
PKGBUILD directory, and the archive by file name. -/
structure Disk where
  trees : Dict (String × String) TreeConfig := .empty
  packages : Dict (String × String) PackageFile := .empty
  manifests : Dict String (List String) := .empty
  archive : Dict String ArchivedConfig := .empty
  clock : ℕ := 0

/-- A kernel and its paths. -/
structure KernelSetup where
  pkgname : String
  pkgbuildDir : String
  /-- the tree that the wrapper reports -/
  buildDir : String
  /-- the system `BUILDDIR` -/
  builddir : Option String
  pkgdest : Option String
  /-- the package names may differ from the PKGBUILD's -/
  renamed : Bool
  topology : RootTopology

/-- What the parser reads of a PKGBUILD. -/
structure PkgbuildGlobals where
  pkgnames : List String
  version : Option (Text × Text × Text)

variable (d : Disk) (k : KernelSetup)

/-! ## Build trees -/

/-- The newest `.config` below some roots. -/
def newestConfig (roots : List String) : Option ((String × String) × TreeConfig) :=
  (d.trees.items.filter fun q => q.1.1 ∈ roots).argmax fun q => q.2.mtime

/-- The roots that `resolve_built_config` searches. -/
def configRoots (buildDir : Option String) : List String :=
  buildDir.toList ++
    (k.builddir.map fun b => b ++ "/" ++ String.ofList (baseName k.pkgbuildDir.toList)).toList ++
    [k.pkgbuildDir]

/-- `resolve_built_config`. -/
def resolveBuiltConfig (buildDir : Option String) : Option ((String × String) × TreeConfig) :=
  newestConfig d (configRoots k buildDir)

/-! ## Package files -/

/-- The package files of a directory. -/
def filesIn (dir : String) : List (String × PackageFile) :=
  (d.packages.items.filter fun q => q.1.1 = dir).map fun q => (q.1.2, q.2)

/-- `_find_artifacts`. -/
def findArtifacts : List (String × PackageFile) :=
  let first := (k.pkgdest.map (filesIn d)).getD []
  first ++ (filesIn d k.pkgbuildDir).filter fun q => q.1 ∉ first.map Prod.fst

/-- `_PKG_FILENAME_EXT`. -/
def pkgFilenameExt : Re :=
  .seq (Re.lit ".pkg.tar".toList)
    (.seq (Re.opt (.seq (Re.lit1 '.') (Re.plus (.char (· ≠ '.'))))) .eol)

/-- The epoch and the version of a version field. -/
def splitEpoch (v : Text) : Text × Text :=
  if ':' ∈ v then (v.takeWhile (· ≠ ':'), (v.dropWhile (· ≠ ':')).drop 1) else (['0'], v)

/-- `_parse_built_pkg_filename`. -/
def parseBuiltPkgFilename (pkgname filename : String) : Option (Text × Text × Text) :=
  match Re.search pkgFilenameExt filename.toList with
  | none => none
  | some m =>
    let stem := filename.toList.take m.start
    let opening := pkgname.toList ++ ['-']
    if !opening.isPrefixOf stem then none
    else match Text.split '-' (stem.drop opening.length) with
      | [ver, pkgrel, _] =>
        if (splitEpoch ver).2 = [] ∨ pkgrel = [] then none
        else some ((splitEpoch ver).1, (splitEpoch ver).2, pkgrel)
      | _ => none

/-- The version of a file that one of the names claims. -/
def versionOf (g : PkgbuildGlobals) (filename : String) : Option (Text × Text × Text) :=
  (g.pkgnames.filterMap (parseBuiltPkgFilename · filename)).getLast?

/-- The scoping by the names of the PKGBUILD. -/
def scopeByName (found : List (String × PackageFile)) (g : PkgbuildGlobals) :
    List (String × PackageFile) :=
  let ours := found.filter fun q => (versionOf g q.1).isSome
  let current := ours.filter fun q => versionOf g q.1 = g.version
  if current ≠ [] then current else ours

/-- `_artifacts_for_pkgbuild`; there are no globals without a PKGBUILD that parses. -/
def artifactsForPkgbuild (globals : Option PkgbuildGlobals) : List (String × PackageFile) :=
  let found := findArtifacts d k
  let wanted := (d.manifests.get k.pkgbuildDir).getD []
  let exact := found.filter fun q => q.1 ∈ wanted
  if exact ≠ [] then exact
  else match globals with
    | none => found
    | some g => if g.pkgnames = [] then found else scopeByName found g

/-! ## Reused packages -/

/-- The path-safe form of a name. -/
def sanitize (s : String) : String :=
  String.ofList (s.toList.map fun c =>
    if c.isAlphanum || c ∈ ['.', '_', '+', '-'] then c else '_')

/-- The name of `archive_path`. -/
def archivePath (pkgname release : String) : String :=
  sanitize pkgname ++ "-" ++ sanitize release ++ ".config.gz"

/-- `ReusedConfig`, with the text that is parsed. -/
structure ReusedConfig where
  text : Text
  release : String
  source : String

/-- The text sets an option. -/
def hasOptions (text : Text) : Bool := (parseKconfigText text).items ≠ []

/-- The config of the build tree, when its release is the package's. -/
def treeConfigFor (buildDir release : String) : Option ReusedConfig :=
  (newestConfig d [buildDir]).bind fun q =>
    if q.2.release = some release then
      (q.2.text.filter hasOptions).map fun t => ⟨t, release, "build tree " ++ q.1.1 ++ "/src/" ++ q.1.2⟩
    else none

/-- The archived config of a release. -/
def archivedConfigFor (release : String) : Option ReusedConfig :=
  ((d.archive.get (archivePath k.pkgname release)).filter fun e => hasOptions e.text).map fun e =>
    ⟨e.text, release, "kconfig-history archive " ++ archivePath k.pkgname release⟩

/-- `built_kernel_artifact_release`. -/
def builtKernelArtifactRelease (files : List (String × PackageFile)) : Option String :=
  files.findSome? fun q => q.2.vmlinuz

/-- `built_kernel_artifact_config`. -/
def builtKernelArtifactConfig (files : List (String × PackageFile)) (release : String) :
    Option ReusedConfig :=
  (files.findSome? fun q => (q.2.headers.filter fun h => h.1 = release ∧ strip h.2 ≠ []).map
    Prod.snd).map fun t => ⟨t, release, "the package's own .config (release " ++ release ++ ")"⟩

/-- `resolve_reused_config`. -/
def resolveReusedConfig (globals : Option PkgbuildGlobals) : Option ReusedConfig :=
  let files := artifactsForPkgbuild d k globals
  (builtKernelArtifactRelease files).bind fun release =>
    (treeConfigFor d k.buildDir release).or
      ((archivedConfigFor d k release).or (builtKernelArtifactConfig files release))

/-! ## Gate 2 -/

/-- `_gate2_audit_config`: the text that was audited, or the refusal. -/
def gate2AuditConfig (allow : Bool) (text : Option Text) (source : String) :
    Except String (Option Text) :=
  let findings := auditResolvedConfig (text.map parseKconfigText) source k.topology
  let bricks := findings.filter KernelFinding.isBrick
  if bricks ≠ [] ∧ !allow then
    .error ("[KERNEL] " ++ toString bricks.length ++ " boot-critical config problem(s) in the " ++
      "built kernel: aborting before install so the running system stays bootable. Fix the " ++
      "kconfig and rebuild, or pass --allow-boot-audit-failure to override. Resolved .config: " ++
      source)
  else .ok text

/-- `gate2_audit`, of a fresh build with its tree or of a reused one. -/
def gate2Audit (allow alreadyBuilt : Bool) (reused : Option ReusedConfig) :
    Except String (Option Text) :=
  if alreadyBuilt then
    match reused with
    | some r => gate2AuditConfig k allow (some r.text) r.source
    | none =>
      if allow then .ok none
      else .error ("[KERNEL] Gate 2: the reused kernel package in PKGDEST has no config tied to " ++
        "it (no matching build tree, kconfig-history archive or headers package); boot-critical " ++
        "config cannot be validated, aborting before install. Rebuild it (remove it from PKGDEST " ++
        "or bump pkgrel), or pass --allow-boot-audit-failure to override.")
  else match resolveBuiltConfig d k (some k.buildDir) with
    | none =>
      if allow then .ok none
      else .error ("[KERNEL] Gate 2: resolved kernel .config not found under the fresh build tree " ++
        k.buildDir ++ "; boot-critical config cannot be validated, aborting before install. Pass " ++
        "--allow-boot-audit-failure to override.")
    | some q => gate2AuditConfig k allow q.2.text (q.1.1 ++ "/src/" ++ q.1.2)

/-- The archive files of a kernel name, the newest first. -/
def archivesFor : List (String × ArchivedConfig) :=
  (d.archive.items.filter fun q => (sanitize k.pkgname ++ "-").toList.isPrefixOf q.1.toList).insertionSort
    fun p q => q.2.mtime ≤ p.2.mtime

/-- `archive`: the write, and the pruning to five. -/
def archiveConfig (text : Text) (release : String) : Disk :=
  let d' : Disk := { d with
    archive := d.archive.set (archivePath k.pkgname release) ⟨text, d.clock, k.pkgname, release⟩
    clock := d.clock + 1 }
  let stale := ((archivesFor d' k).drop 5).map Prod.fst
  { d' with archive := stale.foldl Dict.erase d'.archive }

/-- `record_and_diff_kconfig`, without the diff. -/
def recordKconfig (buildDir : Option String) : Disk :=
  match resolveBuiltConfig d k buildDir with
  | none => d
  | some q =>
    match q.2.text with
    | none => d
    | some t => archiveConfig d k t (q.2.release.getD "unknown")

end Sysforge.Kernel
