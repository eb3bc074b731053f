import Sysforge.Makepkg.EmittedFlags

/-!
# The inputs of a build outside its profile

A build takes inputs that its profile does not hold: a merged profile for `-fprofile-use`, the
driver lists of mesa and the target list of LLVM. They are applied in three places, before and while
the PKGBUILD is patched, and after the build `resolve_build_inputs` derives them again for the
record, from its own reading of the compiler, the package base and the stage.
-/

namespace Sysforge.BuildInputs

open Text Flags EmitConf

/-! ## The package -/

/-- The names in the globals of a PKGBUILD, a lone pkgname as a list. -/
structure Names where
  pkgbase : Option Text
  pkgname : List Text

/-- `_pgo_pkgbase` of `run`. -/
def pgoPkgbase (n : Names) : Option Text := (present n.pkgbase).or n.pkgname.head?

/-- `_pkgbase`. The `_pkgname_from_meta` of the patches is the same, with `unknown` for none. -/
def pkgbaseOf (n : Names) : Option Text := present (pgoPkgbase n)

/-- `_LLVM_PKGBASE_PATTERNS`. -/
def llvmPkgbasePatterns : List Text :=
  ["llvm".toList, "lib32-llvm".toList, "clang".toList, "lib32-clang".toList,
    "compiler-rt".toList, "lib32-compiler-rt".toList, "lld".toList, "lib32-lld".toList]

/-- `is_llvm_pkgbase`, of a name. -/
def isLlvmPkgbase (name : Text) : Bool :=
  llvmPkgbasePatterns.any fun p => name = p || (p ++ ['-']).isPrefixOf name

/-- `_MESA_PKGBASES`. -/
def mesaPkgbases : List Text :=
  ["mesa".toList, "mesa-git".toList, "lib32-mesa".toList, "lib32-mesa-git".toList]

/-- An LLVM package whose targets are filtered. -/
def filtersTargets (n : Names) : Bool :=
  (pkgbaseOf n).any fun name => isLlvmPkgbase name && !"lib32-".toList.isPrefixOf name

/-- `is_mesa_pkgbase`. -/
def isMesaPkgbase (n : Names) : Bool := (pkgbaseOf n).any fun name => name ∈ mesaPkgbases

/-! ## Patching an option of the PKGBUILD -/

/-- A patched PKGBUILD, with the option that was put into it or found there. -/
structure Patched where
  key : Text
  value : Text
  text : Text
  holds : key ++ value <:+: text

/-- A value in quotes or up to the next blank. -/
def valueRe : Re :=
  .alt (.seq (Re.lit1 '"') (.seq (.star (.char (· ≠ '"'))) (Re.lit1 '"')))
    (.alt (.seq (Re.lit1 (Char.ofNat 39)) (.seq (.star (.char (· ≠ Char.ofNat 39)))
      (Re.lit1 (Char.ofNat 39)))) (Re.plus Re.nonSpace))

/-- `m.group(0)`. -/
def group0 (text : Text) (m : Re.Match) : Text := Re.slice text m.start m.stop

/-- A text with an option in the place of a match. -/
def Patched.splice (text : Text) (m : Re.Match) (key value : Text) : Patched :=
  ⟨key, value, Re.splice text m (key ++ value), ⟨text.take m.start, text.drop m.stop, rfl⟩⟩

/-- A text with an option between its parts. -/
def Patched.insert (before after key value : Text) : Patched :=
  ⟨key, value, before ++ (key ++ value) ++ after, ⟨before, after, rfl⟩⟩

/-! ## The targets of LLVM -/

/-- `_LLVM_TARGETS_RE`. -/
def llvmTargetsRe : Re :=
  .seq (Re.lit "-DLLVM_TARGETS_TO_BUILD".toList)
    (.seq (Re.opt (.seq (Re.lit1 ':') (Re.plus (.char Char.isUpper)))) (.seq (Re.lit1 '=') valueRe))

/-- `_CMAKE_COMMAND_RE`, with group 2 for the rest. -/
def cmakeCommandRe : Re :=
  .seq .bol (.seq (.group 1 (.star Re.blank)) (.seq (Re.lit "cmake".toList)
    (.seq (Re.plus Re.blank) (.seq (.group 2 (.seq Re.nonSpace (.star Re.dot))) .eol))))

/-- `_CMAKE_ACTION_MODE`. -/
def cmakeActionMode : List Text :=
  ["--build".toList, "--install".toList, "--open".toList, "--version".toList, "-E".toList,
    "-P".toList]

/-- `_find_cmake_configure_anchor`. -/
def findCmakeConfigureAnchor (text : Text) : Option Re.Match :=
  (Re.finditer cmakeCommandRe text).find? fun m =>
    let rest := (m.group text 2).dropWhile isSpace
    !cmakeActionMode.any fun flag => rest = flag || (flag ++ [' ']).isPrefixOf rest

/-- The length of the command that starts a text, before the blanks at its end are cut: the scan of
`_cmake_statement_end`, given the character before and the open quote. What it stops at says whether
the blanks are cut. -/
def statementLength (prev : Option Char) (quote : Option Char) : Text → ℕ × Bool
  | [] => (0, false)
  | [c] =>
    if quote.isNone && (c = '\n') then (0, false)
    else if quote.isNone && (c = ';' || c = '|' ||
        c = '#' && prev.all fun p => p ∈ " \t;&|()".toList) then (0, true)
    else (1, false)
  | c :: d :: rest =>
    match quote with
    | some q =>
      if c = '\\' && q = '"' then
        ((statementLength (some d) quote rest).map (· + 2) id)
      else
        ((statementLength (some c) (if c = q then none else quote) (d :: rest)).map (· + 1) id)
    | none =>
      if c = Char.ofNat 39 || c = '"' then
        ((statementLength (some c) (some c) (d :: rest)).map (· + 1) id)
      else if c = '\\' then ((statementLength (some d) none rest).map (· + 2) id)
      else if c = '\n' then (0, false)
      else if c = ';' || c = '|' || (c = '&' && d = '&') ||
          c = '#' && prev.all (fun p => p ∈ " \t;&|()".toList) then (0, true)
      else ((statementLength (some c) none (d :: rest)).map (· + 1) id)

/-- `_cmake_statement_end`. -/
def cmakeStatementEnd (text : Text) (searchFrom : ℕ) : ℕ :=
  let found := statementLength (if searchFrom = 0 then none else text[searchFrom - 1]?) none
    (text.drop searchFrom)
  let command := (text.drop searchFrom).take found.1
  searchFrom + if found.2 then (command.rdropWhile fun c => c = ' ' || c = '\t').length
    else command.length

/-- `-DLLVM_TARGETS_TO_BUILD=`. -/
def llvmTargetsKey : Text := "-DLLVM_TARGETS_TO_BUILD=".toList

/-- A value between double quotes. -/
def quoted (v : Text) : Text := '"' :: v ++ ['"']

/-- The value of the option. -/
def targetsValue (targets : List Text) : Text := [';'].intercalate targets

/-- `patch_llvm_targets`: nothing without a place for the option, or where the replacement template
is refused. `template` expands a template of `re.sub`; the name of the option holds no escape. -/
def patchLlvmTargets (template : Text → Option Text) (text : Text) (targets : List Text) :
    Option Patched :=
  if targets = [] then none
  else
    let value := quoted (targetsValue targets)
    match Re.search llvmTargetsRe text with
    | some m =>
      if group0 text m = llvmTargetsKey ++ value then
        some (.splice text m llvmTargetsKey value)
      else (template value).map fun w => .splice text m llvmTargetsKey w
    | none => (findCmakeConfigureAnchor text).map fun m =>
      let lineEnd := cmakeStatementEnd text m.start
      .insert (text.take lineEnd ++ " \\\n".toList ++ m.group text 1 ++ "    ".toList)
        (text.drop lineEnd) llvmTargetsKey value

/-! ## The drivers of mesa -/

/-- `-D`, a blank or none, and the name of a meson option: a group, before the value. -/
def mesaOptionRe (name : Text) : Re :=
  .seq (.group 1 (.seq (Re.lit "-D".toList) (.seq (Re.opt Re.blank)
    (Re.lit (name ++ ['=']))))) valueRe

/-- `_MESA_GALLIUM_RE`. -/
def mesaGalliumRe : Re := mesaOptionRe "gallium-drivers".toList

/-- `_MESA_VULKAN_RE`. -/
def mesaVulkanRe : Re := mesaOptionRe "vulkan-drivers".toList

/-- `_MESA_RUSTICL_RE`. -/
def mesaRusticlRe : Re := mesaOptionRe "gallium-rusticl-enable-drivers".toList

/-- `_MESA_GALLIUM_TOKENS`. -/
def mesaGalliumTokens : List Text :=
  ["asahi".toList, "crocus".toList, "d3d12".toList, "etnaviv".toList, "freedreno".toList,
    "i915".toList, "iris".toList, "lima".toList, "llvmpipe".toList, "nouveau".toList,
    "panfrost".toList, "r300".toList, "r600".toList, "radeonsi".toList, "softpipe".toList,
    "svga".toList, "tegra".toList, "v3d".toList, "vc4".toList, "virgl".toList, "zink".toList]

/-- `_MESA_VULKAN_TOKENS`. -/
def mesaVulkanTokens : List Text :=
  ["amd".toList, "asahi".toList, "broadcom".toList, "freedreno".toList, "gfxstream".toList,
    "imagination".toList, "intel".toList, "intel_hasvk".toList,
    "microsoft-experimental".toList, "nouveau".toList, "panfrost".toList, "swrast".toList,
    "virtio".toList]

/-- The value of a driver option. -/
def driversValue (drivers : List Text) : Text := [','].intercalate drivers

/-- `_rewrite_mesa_option`: nothing when the option is not there. -/
def rewriteMesaOption (text : Text) (regex : Re) (drivers : List Text) : Option Patched :=
  (Re.search regex text).map fun m => .splice text m (m.group text 1) (driversValue drivers)

/-- `_rewrite_mesa_rusticl`. -/
def rewriteMesaRusticl (text : Text) (gallium : List Text) : Text :=
  match Re.search mesaRusticlRe text with
  | none => text
  | some m =>
    let quote := fun c : Char => c = '"' || c = Char.ofNat 39
    let value := (((group0 text m).drop (m.group text 1).length).dropWhile quote).rdropWhile quote
    let kept := (split ',' value).filter fun d => d ≠ [] && decide (d ∈ gallium)
    Re.splice text m (m.group text 1 ++ driversValue (if kept = [] then ["auto".toList] else kept))

/-- An axis is rewritten: it is requested, and `_validate_mesa_tokens` knows every driver. -/
def rewritesAxis (drivers tokens : List Text) : Bool :=
  drivers ≠ [] && drivers.all fun d => d ∈ tokens

/-- The text after the gallium axis. -/
def afterGallium (text : Text) (gallium : List Text) : Text :=
  if rewritesAxis gallium mesaGalliumTokens then
    rewriteMesaRusticl
      (((rewriteMesaOption text mesaGalliumRe gallium).map Patched.text).getD text) gallium
  else text

/-- `patch_mesa_drivers`: what is done for the gallium and for the vulkan axis. -/
def patchMesaDrivers (text : Text) (gallium vulkan : List Text) : Option Patched × Option Patched :=
  (if rewritesAxis gallium mesaGalliumTokens then rewriteMesaOption text mesaGalliumRe gallium
    else none,
    if rewritesAxis vulkan mesaVulkanTokens then
      rewriteMesaOption (afterGallium text gallium) mesaVulkanRe vulkan
    else none)

/-! ## A build -/

/-- `--pgo`. -/
inductive PgoMode
  | record
  | use
  deriving DecidableEq

/-- A build: its options, what the machine and the resolvers answer, the PKGBUILD as the patches
find it, and the attempt that succeeded. -/
structure Build where
  names : Names
  buildMode : String
  ccOverride : Option Text
  compilerFlagsExtra : Option Text
  pgoMode : Option PgoMode
  pgoReuse : Bool
  pgoManaged : Bool
  ownerStage : Option String
  /-- the compiler of the profile that `profile_override` names -/
  overrideCc : Option Text
  envCc : Text
  profile : Resolved
  /-- `profdata_path` and `resolve_store`, by package base -/
  profdataPath : Option Text → Text
  store : Option Text → Text
  isFile : Text → Bool
  /-- the profile of `_resolve_pgo_state` when it is ready -/
  toolchainProfdata : Option Text
  python : Option Text
  /-- `resolve_or_detect_mesa_drivers` and `resolve_or_detect_llvm_targets` -/
  drivers : Option (List Text × List Text)
  targets : Option (List Text)
  template : Text → Option Text
  pkgbuild : Text
  host : Host
  args : Args
  attempt : Resolved

variable (b : Build)

/-- `a or b or c` for compilers. -/
def ccOr (a b : Option Text) (c : Text) : Text := ((present a).or (present b)).getD c

/-! ## What the build uses -/

/-- `_reuse_cc`: the profile is resolved here only when an option names it. -/
def reuseCc : Text := ccOr b.ccOverride b.overrideCc b.envCc

/-- The merged profile of the package. -/
def profdata : Text := b.profdataPath (pgoPkgbase b.names)

/-- The run passes the merged profile of the package: it was merged for `--pgo=use`, or it is
there to reuse. -/
def injects : Bool :=
  match b.pgoMode with
  | some .use => true
  | some .record => false
  | none => (present (pgoPkgbase b.names)).isSome && b.pgoReuse && isLlvmToolchain (reuseCc b) &&
      b.isFile (profdata b)

/-- `use_flags`. -/
def useFlags (profdata : Text) : Text := "-fprofile-use=".toList ++ profdata

/-- `generate_flag`. -/
def generateFlag (store : Text) : Text := "-fprofile-generate=".toList ++ store

/-- Flags with one more. -/
def addFlag (extra : Option Text) (flag : Text) : Option Text :=
  some ((present extra).elim flag fun e => append e flag)

/-- The flags after the toolchain's profile. -/
def toolchainFlags : Option Text :=
  if b.buildMode = "pgo_llvm_toolchain" ∧ b.pgoManaged = false then
    b.toolchainProfdata.elim b.compilerFlagsExtra fun p => addFlag b.compilerFlagsExtra (useFlags p)
  else b.compilerFlagsExtra

/-- `effective_flags_extra`. -/
def effectiveFlagsExtra : Option Text :=
  if b.pgoMode = some .record then
    addFlag (toolchainFlags b) (generateFlag (b.store (pgoPkgbase b.names)))
  else if injects b then addFlag (toolchainFlags b) (useFlags (profdata b))
  else toolchainFlags b

/-- The conf of the attempt that succeeded. -/
def conf : List (String × Text) :=
  emitMakepkgConf b.host { b.args with compilerFlagsExtra := effectiveFlagsExtra b } b.attempt

/-- `_maybe_patch_llvm_targets`. -/
def maybePatchLlvmTargets : Option Patched :=
  if filtersTargets b.names then b.targets.bind (patchLlvmTargets b.template b.pkgbuild) else none

/-- `_maybe_patch_mesa_drivers`. -/
def maybePatchMesaDrivers : Option Patched × Option Patched :=
  if isMesaPkgbase b.names then
    b.drivers.elim (none, none) fun d => patchMesaDrivers b.pkgbuild d.1 d.2
  else (none, none)

/-! ## What is recorded -/

/-- The compiler that the record resolves. -/
def recordCc : Text := ccOr b.ccOverride (b.profile.values.get "CC") b.envCc

/-- A merged profile is there after the build. -/
def isFileAfter (path : Text) : Bool :=
  b.isFile path || (decide (b.pgoMode = some .use) && decide (path = profdata b))

/-- One key of the inputs. -/
def entry (key : String) (value : Option Text) : List (String × Text) :=
  value.toList.map fun v => (key, v)

/-- The profile that is recorded. -/
def recordedProfile : Option Text :=
  if (pkgbaseOf b.names).isSome && b.ownerStage.isNone && isLlvmToolchain (recordCc b) &&
      isFileAfter b (b.profdataPath (pkgbaseOf b.names)) then
    some (b.profdataPath (pkgbaseOf b.names))
  else none

/-- The drivers that are recorded. -/
def recordedDrivers : Option (List Text × List Text) :=
  if isMesaPkgbase b.names then b.drivers else none

/-- The targets that are recorded. -/
def recordedTargets : Option (List Text) :=
  if filtersTargets b.names then b.targets.filter (· ≠ []) else none

/-- `resolve_build_inputs`. -/
def resolveBuildInputs : List (String × Text) :=
  entry "python" b.python ++
    (entry "mesa_gallium" ((recordedDrivers b).map fun d => driversValue d.1) ++
      (entry "mesa_vulkan" ((recordedDrivers b).map fun d => driversValue d.2) ++
        (entry "llvm_targets" ((recordedTargets b).map targetsValue) ++
          entry "pgo_profile" (recordedProfile b))))

end Sysforge.BuildInputs
