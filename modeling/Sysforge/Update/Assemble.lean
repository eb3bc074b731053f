import Sysforge.Update.OptOut

/-!
# Package-set assembly

Phase 1 of `update`: the installed packages that an adoption source proposes, without those an
opt-out record covers, are the targets; the ones a pipeline stage owns are set apart.
-/

namespace Sysforge.Assemble

open BuildState OptOut

/-- An override entry of `packages.toml`: its keys, and the value of `source`. -/
structure Override where
  keys : List String
  source : Option String

/-- `entry_is_inert`. -/
def entryIsInert (ov : Override) : Bool :=
  ["enable_build_from_source", "cache", "reason"].all (· ∉ ov.keys)

/-- The arguments of `update` that assembly reads. -/
structure Args where
  pkgnames : List String := []
  includeStageOwned : Bool := false
  offline : Bool := false

/-- `StageOwnership`. -/
structure StageOwnership where
  kernelPkgbase : Option String := none
  toolchainActive : Bool := false
  toolchainConfigured : List String := []

/-- What assembly reads of the host. -/
structure Env where
  installed : Dict String String
  foreign : List String
  overrides : Dict String Override
  /-- `resolve_repo_mode` says `build_from_source` -/
  repoModeSource : Bool
  /-- `str(pkgbuild_src_dir_base / name)`, when there is a source directory -/
  srcPath : Option (String → String)
  ownership : StageOwnership
  /-- `get_pkgbase` -/
  pkgbaseOf : String → Option String
  /-- the `PackageBase` of the AUR's answer -/
  aurInfo : List String → String → Option String

/-- `is_llvm_pkgbase`. -/
def isLlvmPkgbase (pkgbase : String) : Bool :=
  pkgbase ≠ "" && ["llvm", "lib32-llvm", "clang", "lib32-clang", "compiler-rt", "lib32-compiler-rt",
    "lld", "lib32-lld"].any fun p => pkgbase = p || (p ++ "-").toList.isPrefixOf pkgbase.toList

namespace StageOwnership

variable (o : StageOwnership)

/-- `any_active`. -/
def anyActive : Bool := o.kernelPkgbase.isSome || o.toolchainActive

/-- The LLVM suite without its `lib32-` packages. -/
def inSuite (n : String) : Bool := isLlvmPkgbase n && !"lib32-".toList.isPrefixOf n.toList

/-- `owner_of`. -/
def ownerOf (name pkgbase : String) : Option String :=
  let base := if pkgbase = "" then name else pkgbase
  if (o.kernelPkgbase.filter (· ≠ "")).any fun k => k = name || k = base then some "kernel"
  else if o.toolchainActive && (inSuite name || inSuite base || name ∈ o.toolchainConfigured ||
      base ∈ o.toolchainConfigured) then some "toolchain"
  else none

end StageOwnership

/-- An entry of the result: the fields of a build record, and `repo_class`. -/
structure Package where
  entry : Entry
  repoClass : Option String := none

/-- The key of an entry in `group_by_pkgbase`. -/
def Package.pkgbase (p : Package) (name : String) : String := p.entry.pkgbase.getD name

section

variable (args : Args) (bs : BuildState) (env : Env) (optedOut : Rows)

/-- `behavior_overridden`. -/
def behaviorOverridden (name : String) : Bool :=
  (env.overrides.get name).any fun ov => !entryIsInert ov

/-- `source_built`. -/
def sourceBuilt (name : String) : Bool :=
  (bs.data.get name).any fun e => e.buildMode.getD "pacman" ≠ "pacman"

/-- An adoption source proposes the package. -/
def adopted (name : String) : Bool :=
  name ∈ env.foreign || behaviorOverridden env name || sourceBuilt bs name ||
    env.repoModeSource && name ∉ env.foreign

/-- An opt-out record suppresses the package. -/
def suppressed (name : String) : Bool :=
  name ∉ args.pkgnames && (covering optedOut name).isSome

/-- `target_names`, after the opt-outs. -/
def targetNames : List String :=
  (env.installed.keys.filter (adopted bs env)).filter fun n => !suppressed args optedOut n

/-- `stage_owned`, of a target. -/
def stageOwned (name : String) : Option String :=
  if args.includeStageOwned || name ∈ args.pkgnames then none
  else
    let entry := (bs.data.get name).getD {}
    match entry.ownerStage.filter (· ≠ "") with
    | some owner => some owner
    | none =>
      if env.ownership.anyActive then
        env.ownership.ownerOf name (orElse entry.pkgbase (orElse (env.pkgbaseOf name) name))
      else none

/-- `_resolve_source`. -/
def resolveSource (name : String) : Option String :=
  match ((bs.data.get name).bind (·.source)).filter (· ≠ "") with
  | some source => some source
  | none =>
    match ((env.overrides.get name).bind (·.source)).filter (· ≠ "") with
    | some source => some source
    | none => if name ∉ env.foreign then some "repo" else none

/-- `_resolve_repo_class`. -/
def resolveRepoClass (name : String) : Option String :=
  if resolveSource bs env name ≠ some "repo" then none
  else if behaviorOverridden env name || sourceBuilt bs name then some "source"
  else some "pacman"

/-- A target without the record of a source build. -/
def unrecorded (name : String) : Bool :=
  (bs.data.get name).all fun e => e.buildMode.getD "source_built" = "pacman"

/-- The entry of an unrecorded target, with a pkgbase. -/
def unrecordedEntry (name pkgbase : String) : Package :=
  ⟨{ pkgbase := some pkgbase
     pkgbuildDir := some ((env.srcPath.map fun path => path pkgbase).getD "")
     source := resolveSource bs env name }, resolveRepoClass bs env name⟩

/-- The pkgbase that the local database has for an unrecorded target. -/
def localPkgbase (name : String) : String :=
  if env.srcPath.isSome then orElse (env.pkgbaseOf name) name else name

/-- The unrecorded targets that the AUR is asked about. -/
def aurUnrecorded : List String :=
  if env.srcPath.isNone || args.offline then []
  else (targetNames args bs env optedOut).filter fun n => unrecorded bs n &&
    resolveSource bs env n ≠ some "repo" && localPkgbase env n = n

/-- The entry of a target. -/
def package (name : String) : Package :=
  match bs.data.get name with
  | some e =>
    if unrecorded bs name then
      unrecordedEntry bs env name (unrecordedBase name)
    else ⟨{ e with source := e.source.or (resolveSource bs env name) },
      resolveRepoClass bs env name⟩
  | none => unrecordedEntry bs env name (unrecordedBase name)
where
  /-- The pkgbase of an unrecorded target. -/
  unrecordedBase (name : String) : String :=
    let asked := aurUnrecorded args bs env optedOut
    if name ∈ asked then orElse (env.aurInfo asked name) name else localPkgbase env name

/-- What `_assemble_package_set` returns. -/
structure Assembled where
  packages : Dict String Package
  unrecordedNames : List String
  stageOwnedPackages : Dict String Package

/-- `_assemble_package_set`. -/
def assemblePackageSet : Assembled :=
  let targets := targetNames args bs env optedOut
  let named := if args.pkgnames = [] then targets else targets.filter (· ∈ args.pkgnames)
  let owned n := stageOwned args bs env n
  { packages := .ofItems ((named.filter fun n => (owned n).isNone).map fun n =>
      (n, package args bs env optedOut n))
    unrecordedNames := targets.filter (unrecorded bs)
    stageOwnedPackages := .ofItems (named.filterMap fun n => (owned n).map fun owner =>
      let p := package args bs env optedOut n
      (n, { p with entry := { p.entry with ownerStage := some owner } })) }

end

end Sysforge.Assemble
