import Sysforge.Foundations.Regex
import Sysforge.Makepkg.Flags
import Sysforge.Profile.Preserved

/-!
# The emitted makepkg.conf

`emit_makepkg_conf` merges the system's conf with the keys of a resolved profile: the profile's keys
become overrides, a sequence of guards rewrites the overrides, and the conf is the system's
assignments with the overrides in their place and the remaining overrides at the end. The guards
work on the *effective* value of a key, which is the override if there is one and else the value of
the system; what a guard rewrites becomes an override.
-/

namespace Sysforge.EmitConf

open Text Profile Flags

/-! ## The keys -/

/-- `SYSFORGE_KEYS`. -/
def sysforgeKeys : List String :=
  ["batch", "build_mode", "clean_builddir", "consumes", "cpu_quota", "failure_handling", "ionice",
    "jobs", "makepkg_flags", "nice", "pgo_store", "preserve_system_tokens", "sandbox_builds",
    "toolchain"]

/-- `CONF_KEY_MAP["env"]`. -/
def envKeys : List String :=
  ["RUSTC_WRAPPER", "CCACHE_DIR", "SCCACHE_DIR", "CARGO_HOME", "CARGO_NET_GIT_FETCH_WITH_CLI",
    "PKG_CONFIG_PATH", "CC_LD", "CXX_LD"]

/-- `CONF_KEY_MAP["toolchain"]`. -/
def toolchainKeys : List String := ["CC", "CXX"]

/-- `CONF_KEY_MAP`. -/
def confKeyMap : List (String × List String) :=
  [("makepkg", ["AR", "NM", "RANLIB", "STRIP", "CFLAGS", "CXXFLAGS", "CPPFLAGS", "LDFLAGS",
      "DEBUG_CFLAGS", "DEBUG_CXXFLAGS", "DEBUG_LDFLAGS", "MAKEFLAGS", "BUILDENV", "OPTIONS",
      "INTEGRITY_CHECK", "PKGEXT", "SRCEXT", "BUILDDIR"]),
    ("toolchain", toolchainKeys),
    ("rust", ["RUSTFLAGS", "CARGO_PROFILE_RELEASE_LTO", "CARGO_PROFILE_RELEASE_CODEGEN_UNITS",
      "CARGO_PROFILE_RELEASE_OPT_LEVEL", "CARGO_INCREMENTAL"]),
    ("cmake", ["CMAKE_BUILD_TYPE", "CMAKE_C_FLAGS", "CMAKE_CXX_FLAGS", "CMAKE_EXE_LINKER_FLAGS",
      "CMAKE_SHARED_LINKER_FLAGS"]),
    ("meson", ["MESON_ARGS"]), ("env", envKeys)]

/-- `KERNEL_CLEAN_KEYS`. -/
def kernelCleanKeys : List String :=
  ["CFLAGS", "CXXFLAGS", "CPPFLAGS", "LDFLAGS", "DEBUG_CFLAGS", "DEBUG_CXXFLAGS", "DEBUG_LDFLAGS"]

/-- The keys that carry compiler flags. -/
def flagKeys : List String := ["CFLAGS", "CXXFLAGS", "LDFLAGS"]

/-! ## What the emission reads -/

/-- A resolved profile: its values that are strings, and `preserve_system_tokens`. -/
structure Resolved where
  values : Dict String Text
  preserveSystemTokens : Bool := true

/-- The arguments of `emit_makepkg_conf` beside the profile. -/
structure Args where
  activeConsumes : Option (List String) := none
  ccOverride : Option Text := none
  cxxOverride : Option Text := none
  ldOverride : Option Text := none
  kernelBuild : Bool := false
  compilerFlagsExtra : Option Text := none
  linkerFlagsExtra : Option Text := none
  stripFullLto : Bool := false
  pkgbuildHasHardcodedGcc : Bool := false
  reactiveGccFallback : Bool := false
  isLib32 : Bool := false
  isMuslStatic : Bool := false
  pkgbuildOptions : List Text := []
  toolchainVariant : Option String := none
  jobs : Option ℤ := none

/-- The system's conf, the programs on `PATH`, and the two tables of profiles.toml that the
preservation of system tokens reads. -/
structure Host where
  systemAssignments : Dict String Text
  which : Text → Bool
  preservedSystemTokens : Dict String (List Text)
  conflictGroups : ConflictGroups

/-- The overrides. -/
abbrev Overrides := Dict String Text

/-- `is_llvm_toolchain`. -/
def isLlvmToolchain (toolchain : Text) : Bool :=
  decide (toolchain ≠ []) &&
    (baseName toolchain = "llvm".toList || "clang".toList.isPrefixOf (baseName toolchain))

/-- `options_list_disabled`: the last mention of an option decides. -/
def optionsListDisabled (options : List Text) (name : Text) : Bool :=
  options.foldl (fun disabled tok =>
    if tok = name then false else if tok = '!' :: name then true else disabled) false

section Emission

variable (host : Host) (args : Args)

/-- The effective value of a key, if it has one. -/
def effective (ov : Overrides) (key : String) : Option Text :=
  (ov.get key).or ((host.systemAssignments.get key).map unquoteConfValue)

/-- A rewriting of the effective values of some keys, where it changes them. -/
def rewrite (f : Text → Option Text) (ov : Overrides) (keys : List String) : Overrides :=
  keys.foldl (fun ov key =>
    match (effective host ov key).bind f with
    | some v => ov.set key v
    | none => ov) ov

/-- A rewriting of the overrides of some keys, where it changes them. -/
def rewriteOwn (f : Text → Option Text) (ov : Overrides) (keys : List String) : Overrides :=
  keys.foldl (fun ov key =>
    match (ov.get key).bind f with
    | some v => ov.set key v
    | none => ov) ov

/-! ## The overrides -/

/-- Whether `allowed_keys` has a key. -/
def allowed (key : String) : Bool :=
  match args.activeConsumes with
  | none => true
  | some types => types.any fun type =>
    type ≠ "env" && (confKeyMap.lookup type).any fun keys => key ∈ keys

/-- The profile's keys that are written. -/
def written (p : Resolved) : Overrides :=
  p.values.filter fun key _ => key ∉ sysforgeKeys && key ∉ envKeys && allowed args key &&
    !(args.kernelBuild && key ∈ kernelCleanKeys)

/-- The text of a value of the preservation. -/
def textOf : Value → Text
  | .str s => s
  | .other .. => []

/-- The preservation of system tokens. -/
def preserve (p : Resolved) (ov : Overrides) : Overrides :=
  (applyPreservedSystemTokens host.conflictGroups (ov.map fun _ v => Value.str v)
    host.systemAssignments host.preservedSystemTokens p.preserveSystemTokens).1.map fun _ v =>
      textOf v

/-- `_JOBS_RE`, without the condition that it starts a word. -/
def jobsRe : Re :=
  .alt (.seq (Re.lit "-j".toList) (.seq (.star Re.space) (Re.plus (.char isDecimal))))
    (.seq (Re.lit "--jobs=".toList) (Re.plus (.char isDecimal)))

/-- `apply_jobs_to_makeflags`. A match cannot start inside another, so that the ones that start a
word are found among all. -/
def applyJobsToMakeflags (makeflags : Text) (jobs : ℤ) : Text :=
  let replacement := "-j".toList ++ ofInt jobs
  let found := (Re.finditer jobsRe makeflags).filter fun m =>
    m.start = 0 || (makeflags[m.start - 1]?).any isSpace
  if found ≠ [] then Re.subFrom makeflags (fun _ => replacement) 0 found
  else if strip makeflags = [] then replacement
  else strip (makeflags ++ ' ' :: replacement)

/-- The cap on the jobs. -/
def capJobs (ov : Overrides) : Overrides :=
  match args.jobs with
  | some jobs => ov.set "MAKEFLAGS"
      (applyJobsToMakeflags ((effective host ov "MAKEFLAGS").getD []) jobs)
  | none => ov

/-- `--cc` and `--cxx`. -/
def overrideCompilers (ov : Overrides) : Overrides :=
  let ov := args.ccOverride.elim ov fun cc => ov.set "CC" cc
  args.cxxOverride.elim ov fun cxx => ov.set "CXX" cxx

/-- `--ld`, or the default linker of an LLVM variant. -/
def overrideLinker (ov : Overrides) : Overrides :=
  match args.ldOverride with
  | some ld =>
    if args.kernelBuild then ov
    else ov.set "LDFLAGS" (injectLinker ((ov.get "LDFLAGS").getD []) ld)
  | none =>
    if !args.kernelBuild && (args.toolchainVariant = some "stock_llvm" ||
        args.toolchainVariant = some "pgo_llvm") then
      let ldflags := (effective host ov "LDFLAGS").getD []
      if present (detectLinkerFromLdflags ldflags) = none ∧ host.which "lld".toList then
        ov.set "LDFLAGS" (injectLinker ldflags "lld".toList)
      else ov
    else ov

/-- The effective linker. -/
def effectiveLinker (ov : Overrides) : Text :=
  resolveEffectiveLinker host.which none ((ov.get "LDFLAGS").getD [])
    (if (ov.get "LDFLAGS").isSome then []
      else ((host.systemAssignments.get "LDFLAGS").map unquoteConfValue).getD [])

/-! ## The guards -/

/-- The guard of the linker. -/
def guardLinker (linker : Text) (ov : Overrides) : Overrides :=
  if (effective host ov "LDFLAGS").isNone then ov
  else
    let ov := if linker = "lld".toList then ov
      else rewrite host (dropped stripLldFlags) ov ["LDFLAGS"]
    rewriteOwn (fun rustflags =>
      match present (detectLinkerFromRustTokens (words rustflags)) with
      | some l => if l = linker then none else some (unwords (replaceRustTokens linker (words rustflags)))
      | none => none) ov ["RUSTFLAGS"]

/-- The compiler that the guards go by. -/
def effectiveCc (p : Resolved) : Option Text :=
  (present args.ccOverride).or (p.values.get "CC")

/-- `_is_gcc`. -/
def isGcc (p : Resolved) : Bool :=
  (present (effectiveCc args p)).any (fun cc => !isLlvmToolchain cc) ||
    args.pkgbuildHasHardcodedGcc || args.reactiveGccFallback

/-- `-flto=thin`. -/
def thinLto : Text := "-flto=thin".toList

/-- The thin LTO of a value made full. -/
def unthin (val : Text) : Option Text :=
  if contains thinLto val then some (replace thinLto "-flto".toList val) else none

/-- `OPTIONS` with `lto` switched off. -/
def switchOffLto (options : Text) : Text :=
  let parens := fun c : Char => c = '(' || c = ')'
  let inner := ((strip options).dropWhile parens).rdropWhile parens
  '(' :: unwords ((words inner).map fun t => if t = "lto".toList then "!lto".toList else t) ++ [')']

/-- The guard of GCC. -/
def guardGcc (p : Resolved) (linker : Text) (ov : Overrides) : Overrides :=
  if !isGcc args p then ov
  else
    let ov := rewrite host unthin ov ("LTOFLAGS" :: flagKeys)
    if linker ≠ "lld".toList then ov
    else
      let ov := rewrite host (dropped Flags.stripFullLto) (ov.set "LTOFLAGS" []) flagKeys
      let options := ((present (ov.get "OPTIONS")).or (host.systemAssignments.get "OPTIONS")).getD []
      if options = [] then ov else ov.set "OPTIONS" (switchOffLto options)

/-- The removal of full LTO for a profiling pass. -/
def guardPass (ov : Overrides) : Overrides :=
  if args.stripFullLto then
    (rewrite host (dropped Flags.stripFullLto) ov flagKeys).set "LTOFLAGS" []
  else ov

/-- The removal of LTO that the PKGBUILD asks for. -/
def guardNoLto (ov : Overrides) : Overrides :=
  if optionsListDisabled args.pkgbuildOptions "lto".toList then
    let ov := rewrite host (dropped stripAllLto) ov flagKeys
    if (effective host ov "LTOFLAGS").isSome then ov.set "LTOFLAGS" [] else ov
  else ov

/-- A value with more flags. -/
def append (base extra : Text) : Text := strip (base ++ ' ' :: extra)

/-- One key of the injection of compiler flags. `CXXFLAGS` that refers to `CFLAGS` has them. -/
def injectInto (extra : Text) (ov : Overrides) (key : String) : Overrides :=
  let base := (effective host ov key).getD []
  if key = "CXXFLAGS" ∧ contains "$CFLAGS".toList base then ov else ov.set key (append base extra)

/-- `compiler_flags_extra`. -/
def injectCompiler (ov : Overrides) : Overrides :=
  match present args.compilerFlagsExtra with
  | some extra => flagKeys.foldl (injectInto host extra) ov
  | none => ov

/-- `linker_flags_extra`. -/
def injectLinkerFlags (ov : Overrides) : Overrides :=
  match present args.linkerFlagsExtra with
  | some extra => ov.set "LDFLAGS" (append ((effective host ov "LDFLAGS").getD []) extra)
  | none => ov

/-- The guard of a lib32 package. -/
def guardLib32 (ov : Overrides) : Overrides :=
  if args.isLib32 then
    let ov := rewriteOwn (dropped scrubLib32ArchFlags) ov ["CFLAGS", "CXXFLAGS"]
    let ov := rewriteOwn (dropped stripLldFlags) ov ["LDFLAGS"]
    rewriteOwn (dropped stripPgoFlags) ov flagKeys
  else ov

/-- The linker flags of a static musl package, where they change. -/
def muslLdflags (ldflags : Text) : Option Text :=
  let lld := detectLinkerFromLdflags ldflags = some "lld".toList
  let ldflags := if lld then injectLinker ldflags "bfd".toList else ldflags
  if lld ∨ (stripLldFlags ldflags).2 ≠ [] then some (stripLldFlags ldflags).1 else none

/-- The guard of a static musl package. -/
def guardMusl (ov : Overrides) : Overrides :=
  if args.isMuslStatic then
    rewrite host (dropped stripPgoFlags) (rewrite host muslLdflags ov ["LDFLAGS"]) flagKeys
  else ov

/-! ## The conf -/

/-- The overrides up to the injection of flags: the profile's values after the guards. -/
def guarded (p : Resolved) : Overrides :=
  let ov := overrideLinker host args
    (overrideCompilers args (capJobs host args (preserve host p (written args p))))
  let linker := effectiveLinker host ov
  guardNoLto host args (guardPass host args
    (guardGcc host args p linker (guardLinker host linker ov)))

/-- The overrides that are written. -/
def overrides (p : Resolved) : Overrides :=
  guardMusl host args (guardLib32 args (injectLinkerFlags host args
    (injectCompiler host args (guarded host args p))))

/-- A value as it is written: arrays are not quoted. -/
def quote (val : Text) : Text := if val.head? = some '(' then val else '"' :: val ++ ['"']

/-- What the conf assigns to a key of the system's conf, if it is written. -/
def systemLine (ov : Overrides) (key : String) (raw : Text) : Option Text :=
  if key ∈ envKeys ++ toolchainKeys then none
  else
    match ov.get key with
    | some val => some (quote val)
    | none =>
      if args.isLib32 ∧ (key = "CFLAGS" ∨ key = "CXXFLAGS") ∧
          (scrubLib32ArchFlags (unquoteConfValue raw)).2 ≠ [] then
        some ('"' :: (scrubLib32ArchFlags (unquoteConfValue raw)).1 ++ ['"'])
      else if args.isLib32 ∧ key = "LDFLAGS" ∧ (stripLldFlags (unquoteConfValue raw)).2 ≠ [] then
        some ('"' :: (stripLldFlags (unquoteConfValue raw)).1 ++ ['"'])
      else some raw

/-- The assignments in the place of the system's. -/
def systemPart (ov : Overrides) : List (String × Text) :=
  (host.systemAssignments.items.map fun p => (p.1, systemLine args ov p.1 p.2)).filterMap
    fun p => p.2.map fun raw => (p.1, raw)

/-- The assignments at the end. -/
def newPart (ov : Overrides) : List (String × Text) :=
  (ov.items.filter fun p => p.1 ∉ host.systemAssignments.keys).map fun p => (p.1, quote p.2)

/-- **`emit_makepkg_conf`**: what is assigned, in order. -/
def emitMakepkgConf (p : Resolved) : List (String × Text) :=
  systemPart host args (overrides host args p) ++ newPart host (overrides host args p)

/-- An assignment as a line. -/
def assignment (p : String × Text) : Text := p.1.toList ++ '=' :: p.2

/-- The text of the conf. -/
def confText (p : Resolved) : Text :=
  let ov := overrides host args p
  let new := newPart host ov
  unlines ("# Generated by SysForge: merged system conf + profile overrides".toList ::
    (systemPart host args ov).map assignment ++
    if new = [] then []
    else [] :: "# SysForge profile additions (not in system conf)".toList :: new.map assignment)

end Emission

end Sysforge.EmitConf
