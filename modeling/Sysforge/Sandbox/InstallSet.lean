import Mathlib.Data.Char
import Mathlib.Data.List.Dedup
import Mathlib.Data.List.Lex
import Sysforge.Foundations.Dict
import Sysforge.Foundations.ResolvingWalk
import Sysforge.Foundations.Text
import Sysforge.Makepkg.Artifacts
import Sysforge.Pacman.PkgInfo

/-!
# The packages that go into the build container

`_dep_closure` walks the requirements of a PKGBUILD over the host's local database, overlaid by the
artifacts of the run, and `install_args` gathers the artifacts of the closure and of the toolchain.
For a target that pulls Arch's rust it leaves out what `llvm_linked` names and fetches repository
builds instead. `none` stands for a `SandboxUnavailable`.
-/

namespace Sysforge.Sandbox

open Text ResolvingWalk Makepkg.Artifacts Pacman

/-! ## Names -/

/-- `_VERSION_OPS`. -/
def versionOps : List Text := [['>', '='], ['<', '='], ['!', '='], ['='], ['>'], ['<']]

/-- `_strip_version`. -/
def stripVersion (dep : Text) : Text :=
  match versionOps.findSome? fun op => find op dep with
  | some i => dep.take i
  | none => dep

/-- A file. -/
structure Path where
  dir : Text
  name : Text
  deriving DecidableEq

/-- `_artifact_pkgname`: `path.name.rsplit("-", 3)[0]`. -/
def artifactPkgname (p : Path) : Text :=
  let parts := split '-' p.name
  ['-'].intercalate (parts.take (max 1 (parts.length - 3)))

/-- `sorted(set(l))`. -/
def sortedSet (l : List Text) : List Text := l.dedup.insertionSort (· ≤ ·)

/-! ## The databases -/

/-- `%DEPENDS%` and `%PROVIDES%` of an installed package, or `depend` and `provides` of a file. -/
structure Relations where
  depends : List Text
  provides : List Text

/-- What a target's container is put together from. -/
structure World where
  /-- The local database. -/
  db : Dict Text Relations
  /-- `_host_only_packages`. -/
  hostOnly : List Text
  /-- `_session.artifacts`. -/
  session : List Path
  /-- `path.exists()`. -/
  present : Path → Bool
  /-- The `depend` and `provides` lines of a file's `.PKGINFO`. -/
  pkginfo : Path → Relations
  /-- `get_installed_version`. -/
  version : Text → Option Text
  /-- The directory of built packages, and the names of its files. -/
  searchDir : Text
  archive : List Text
  /-- `collect_builddeps`, where the PKGBUILD can be read. -/
  builddeps : Option (List Text)
  /-- `toolchain_packages`. -/
  toolchain : List Text
  /-- `needs_multilib`. -/
  multilib : Bool
  /-- A line of `pacman -Sp`: the repository and the file of a package. -/
  row : Text → Option (Text × Text)
  /-- `pacman -Sw` of repository-qualified names. -/
  downloads : List Text → Bool
  /-- The file of that name in a cache directory. -/
  cached : Text → Option Path

/-- `get_all_package_depends`. -/
def allPackageDepends (db : Dict Text Relations) : Dict Text (List Text) :=
  db.map fun _ rel => rel.depends

/-- One provided name of the package. -/
def addProvide (name : Text) (out : Dict Text Text) (prov : Text) : Dict Text Text :=
  let out := if '=' ∈ prov then out.setdefault prov name else out
  out.setdefault (prov.takeWhile fun c => c ≠ '=') name

/-- `get_provider_map`. -/
def providerMap (db : Dict Text Relations) : Dict Text Text :=
  db.sorted.foldl (fun out p => p.2.provides.foldl (addProvide p.1) out) .empty

/-- `read_pkginfo_relations`: bare names, the provides in their exact form as well. -/
def readPkginfoRelations (rel : Relations) : Relations where
  depends := (rel.depends.map bareName).filter fun n => n ≠ []
  provides := rel.provides.flatMap fun val => if bareName val = [] then [] else [bareName val, val]

/-- One artifact in `_session_relations`. -/
def addArtifact (w : World) (acc : Dict Text (List Text) × Dict Text Text) (p : Path) :
    Dict Text (List Text) × Dict Text Text :=
  let rel := readPkginfoRelations (w.pkginfo p)
  (acc.1.set (artifactPkgname p) (sortedSet rel.depends),
    (sortedSet rel.provides).foldl (fun out prov => out.setdefault prov (artifactPkgname p)) acc.2)

/-- The artifacts of the run that still exist. -/
def sessionFiles (w : World) : List Path := w.session.filter w.present

/-- `_session_relations`. -/
def sessionRelations (w : World) : Dict Text (List Text) × Dict Text Text :=
  (sessionFiles w).foldl (addArtifact w) (.empty, .empty)

/-- `{**graph, **session_graph}`. -/
def closureGraph (w : World) : Dict Text (List Text) :=
  (allPackageDepends w.db).update (sessionRelations w).1

/-- `{**providers, **session_providers}`. -/
def closureProviders (w : World) : Dict Text Text :=
  (providerMap w.db).update (sessionRelations w).2

/-! ## The closure -/

/-- The package that a requirement is taken for. -/
def resolveDep (graph : Dict Text (List Text)) (providers : Dict Text Text) (raw : Text) :
    Option Text :=
  let name := stripVersion raw
  let name :=
    if name ≠ [] ∧ name ∉ graph.keys then
      match (providers.get raw).filter fun p => p ≠ [] with
      | some p => p
      | none => (providers.get name).getD name
    else name
  if name = [] then none else some name

/-- `graph.get(name, [])`. -/
def dependsOf (graph : Dict Text (List Text)) (name : Text) : List Text := (graph.get name).getD []

/-- As many steps as there are requirements. -/
def fuelFor (graph : Dict Text (List Text)) (queue : List Text) : ℕ :=
  queue.length + (graph.keys.flatMap (dependsOf graph)).length

theorem mem_keys_of_dependsOf {graph : Dict Text (List Text)} {name : Text}
    (h : dependsOf graph name ≠ []) : name ∈ graph.keys := by
  by_contra hnot
  rw [dependsOf, Dict.get_eq_none.mpr hnot] at h
  exact h rfl

/-- `_dep_closure`. -/
def depClosure (w : World) : Option (List Text) :=
  w.builddeps.map fun roots =>
    let graph := closureGraph w
    (walk (resolveDep graph (closureProviders w)) (dependsOf graph) (fuelFor graph roots) []
      roots.reverse).reverse

/-- `installed_artifact`. -/
def installedArtifact (w : World) (name : Text) : Option Path :=
  match (w.version name).filter fun v => v ≠ [] with
  | none => none
  | some version =>
    ((findExact w.archive name version).find? fun f => !isSig f).map fun f => ⟨w.searchDir, f⟩

/-- `resolve_dep_artifacts`. -/
def resolveDepArtifacts (w : World) : Option (List Path) :=
  if w.hostOnly = [] then some []
  else (depClosure w).map fun closure =>
    closure.filterMap fun name => if name ∈ w.hostOnly then installedArtifact w name else none

/-! ## The repository builds -/

/-- `_LIBLLVM_PKG`. -/
def libllvmPkg : Text := ['l', 'l', 'v', 'm', '-', 'l', 'i', 'b', 's']

/-- `MULTILIB_DEVEL`. -/
def multilibDevel : Text :=
  ['m', 'u', 'l', 't', 'i', 'l', 'i', 'b', '-', 'd', 'e', 'v', 'e', 'l']

/-- `_REPO_RUST_DEPS`. -/
def repoRustDeps : List Text := [['r', 'u', 's', 't'], ['c', 'a', 'r', 'g', 'o']]

/-- `llvm_linked`, as `install_args` calls it: without providers. -/
def llvmLinked (names : List Text) (graph : Dict Text (List Text)) : List Text :=
  if libllvmPkg ∉ names then []
  else names.filter fun start =>
    finds (fun dep => some (stripVersion dep)) (dependsOf graph) libllvmPkg
      (fuelFor graph [start]) [] [start]

/-- `needs_repo_rust`. -/
def needsRepoRust (w : World) : Bool :=
  (w.builddeps.getD []).any fun d => stripVersion d ∈ repoRustDeps

/-- `fetch_repo_packages`. -/
def fetchRepoPackages (w : World) (names : List Text) : Option (List Path) :=
  let names := sortedSet names
  if names = [] then some []
  else do
    let rows ← names.mapM w.row
    if w.downloads (rows.zipWith (fun r n => r.1 ++ '/' :: n) names) then
      rows.mapM fun r => w.cached r.2
    else none

/-! ## The list -/

/-- The artifact of a package of the toolchain's closure. -/
def addToolchain (w : World) (hostOnly : List Text) (resolved : List Path) (name : Text) :
    List Path :=
  if name ∈ hostOnly then
    match installedArtifact w name with
    | some art => if art ∈ resolved then resolved else resolved ++ [art]
    | none => resolved
  else resolved

/-- `_last_per_pkgname`, from the end of the list. -/
def lastPerPkgnameAux : List Text → List Path → List Path
  | _, [] => []
  | seen, p :: paths =>
    if artifactPkgname p ∈ seen then lastPerPkgnameAux seen paths
    else p :: lastPerPkgnameAux (artifactPkgname p :: seen) paths

/-- `_last_per_pkgname`. -/
def lastPerPkgname (paths : List Path) : List Path := (lastPerPkgnameAux [] paths.reverse).reverse

/-- The host-only packages that `install_args` looks at. -/
def hostOnlyFor (w : World) : List Text :=
  if w.toolchain ≠ [] ∨ needsRepoRust w then w.hostOnly else []

/-- `graph`. -/
def graphFor (w : World) : Dict Text (List Text) :=
  if hostOnlyFor w ≠ [] then allPackageDepends w.db else .empty

/-- `toolchain_closure`, in walk order. -/
def toolchainClosure (w : World) : List Text :=
  if hostOnlyFor w ≠ [] ∧ w.toolchain ≠ [] then
    (walk (fun dep => some (stripVersion dep)) (dependsOf (graphFor w))
      (fuelFor (graphFor w) (sortedSet w.toolchain)) [] (sortedSet w.toolchain).reverse).reverse
  else []

/-- The artifacts of the run that the target needs. -/
def sessionNeeded (w : World) : Option (List Path) :=
  if sessionFiles w = [] then some []
  else (depClosure w).map fun needed => (sessionFiles w).filter fun p => artifactPkgname p ∈ needed

/-- The artifacts before repository builds are put in. -/
def gathered (w : World) : Option (List Path) := do
  let resolved ← resolveDepArtifacts w
  let resolved := (toolchainClosure w).foldl (addToolchain w (hostOnlyFor w)) resolved
  let session ← sessionNeeded w
  return resolved.filter (fun p => w.present p && p ∉ session) ++ session

/-- `linked`. -/
def linkedFor (w : World) : List Text :=
  if needsRepoRust w then llvmLinked (hostOnlyFor w) (graphFor w) else []

/-- The packages whose repository builds take the place of the host's. -/
def swapFor (w : World) : List Text :=
  (libllvmPkg :: toolchainClosure w).filter fun n => n ∈ linkedFor w

/-- The repository builds for a target that pulls rust. -/
def fetchSwap (w : World) : Option (List Path) :=
  if linkedFor w = [] then some [] else fetchRepoPackages w (swapFor w)

/-- The repository build for a 32-bit target. -/
def fetchMultilib (w : World) : Option (List Path) :=
  if w.multilib then fetchRepoPackages w [multilibDevel] else some []

/-- `install_args`. -/
def installArgs (w : World) : Option (List Path) := do
  let out ← gathered w
  let out := out.filter fun p => artifactPkgname p ∉ linkedFor w
  let swap ← fetchSwap w
  let multilib ← fetchMultilib w
  return lastPerPkgname (out ++ swap ++ multilib)

end Sysforge.Sandbox
