import Sysforge.Makepkg.EmitAgree
import Sysforge.Profile.ToolchainSwap

/-!
# The swap that the recovery menu keeps

After a failed build the recovery menu offers another toolchain: a unit, or a pair of compilers that
is typed, with a linker or none. The retry lays the swap over the environment and the conf of the
build that failed; when it succeeds, the swap becomes a row of `[package_compiler_overrides]`, and
the next build resolves its profile with that row. `kept_sameBuild` says when the next build is the
one that succeeded.
-/

namespace Sysforge.Swap

open Text Profile Flags EmitConf

/-! ## The two builds -/

/-- The values of `--toolchain`, `--cc`, `--cxx` and `--ld`. A toolchain is one of the bundles. -/
structure Cli where
  toolchain : Option Text := none
  cc : Option Text := none
  cxx : Option Text := none
  ld : Option Text := none
  known : ∀ tc, toolchain = some tc → ∃ bundle, toolchainBundles.lookup tc = some bundle

/-- What the PKGBUILD, the host and the configuration, the row apart, give every build of a
package. -/
structure Package where
  /-- The profile after its `extends`. -/
  merged : Values
  defaultToolchain : Option Text := none
  preserveSystemTokens : Bool := true
  host : Host
  /-- The arguments of the emission beside the compilers, the reactive retry and the flags. -/
  args : Args := {}
  /-- The flags that a build injects, of `--cc`. -/
  flagsExtra : Option Text → Option Text := fun _ => none
  /-- `extra_env` of the options. -/
  injectedEnv : Values := .empty

/-- What is chosen in the menu: a unit, or compilers that are typed. -/
inductive Choice
  | gcc
  | clang
  | manual (cc cxx : Text)

/-- A blank answer is the current value. -/
def orCurrent (typed : Text) (current : Option Text) : Text :=
  if typed = [] then current.getD [] else typed

/-- `_prompt_toolchain_swap`: the compilers. -/
def promptToolchainSwap (profile : Values) : Choice → Text × Text
  | .gcc => ("gcc".toList, "g++".toList)
  | .clang => ("clang".toList, "clang++".toList)
  | .manual cc cxx => (orCurrent cc (profile.get "CC"), orCurrent cxx (profile.get "CXX"))

/-- `_apply_cli_toolchain`. -/
def applyCliToolchain (cli : Cli) (profile : Values) : Values :=
  match present cli.toolchain with
  | some tc => swapToolchain profile tc
  | none => profile

/-- `resolve_env_vars`. -/
def resolveEnvVars (args : Args) (profile : Values) : Values :=
  profile.filter fun key _ => key ∉ sysforgeKeys &&
    (key ∈ toolchainKeys ||
      (key ∈ envKeys && args.activeConsumes.all fun types => "env" ∈ types) ||
      !confKeyMap.any fun type => key ∈ type.2)

/-- The environment that a build adds: the profile's, the command line's, the injected one. -/
def buildEnv (pkg : Package) (cli : Cli) (profile : Values) : Values :=
  let env := resolveEnvVars pkg.args profile
  let env := cli.cc.elim env fun cc => env.set "CC" cc
  let env := cli.cxx.elim env fun cxx => env.set "CXX" cxx
  env.update pkg.injectedEnv

/-- The environment of a retry under a swap. -/
def swapEnv (cc cxx : Text) (env : Values) : Values :=
  let env := if cc ≠ [] then env.set "CC" cc else env
  if cxx ≠ [] then env.set "CXX" cxx else env

/-- The profile of a retry under a swap. -/
def retryProfile (cc cxx : Text) (profile : Values) : Values :=
  match toolchainForCompilers cc cxx with
  | some tc => swapToolchain profile tc
  | none => profile

/-- The linker of a retry: the one that is given, else that of the command line. -/
def retryLinker (cli : Cli) (ld : Text) : Option Text := (present (some ld)).or (present cli.ld)

/-- The arguments of a retry under a swap. -/
def retryArgs (pkg : Package) (cli : Cli) (cc cxx ld : Text) (reactive : Bool) : Args :=
  { pkg.args with
    ccOverride := present (some cc)
    cxxOverride := present (some cxx)
    ldOverride := retryLinker cli ld
    compilerFlagsExtra := pkg.flagsExtra cli.cc
    reactiveGccFallback := reactive }

/-- `_row`, as it is read back. -/
def savedRow (cc cxx ld : Text) : Row :=
  match toolchainForCompilers cc cxx with
  | some tc => { toolchain := some tc, ld := present (some ld) }
  | none => { cc := some cc, cxx := some cxx, ld := some ld }

/-- The arguments of a build without compiler options. -/
def nextArgs (pkg : Package) : Args :=
  { pkg.args with
    ccOverride := none
    cxxOverride := none
    ldOverride := none
    compilerFlagsExtra := pkg.flagsExtra none
    reactiveGccFallback := false }

/-- A build that failed, and the swap that the user then chose. -/
structure Recovery where
  pkg : Package
  cli : Cli
  row : Row := {}
  choice : Choice
  ld : Text
  reactive : Bool := false

namespace Recovery

variable (r : Recovery)

/-- The profile without a row. -/
def plain : Values := expandToolchain r.pkg.defaultToolchain r.pkg.merged

/-- The profile of the build that failed. -/
def failed : Values :=
  applyCliToolchain r.cli (finishProfile r.pkg.defaultToolchain r.row r.pkg.merged)

def cc : Text := (promptToolchainSwap r.failed r.choice).1

def cxx : Text := (promptToolchainSwap r.failed r.choice).2

/-- The conf of the retry. -/
def retryConf : List (String × Text) :=
  emitMakepkgConf r.pkg.host (retryArgs r.pkg r.cli r.cc r.cxx r.ld r.reactive)
    ⟨retryProfile r.cc r.cxx r.failed, r.pkg.preserveSystemTokens⟩

/-- The environment of the retry. -/
def retryEnv : Values := swapEnv r.cc r.cxx (buildEnv r.pkg r.cli r.failed)

/-- The profile of the next build. -/
def next : Values :=
  finishProfile r.pkg.defaultToolchain (savedRow r.cc r.cxx r.ld) r.pkg.merged

/-- The conf of the next build. -/
def nextConf : List (String × Text) :=
  emitMakepkgConf r.pkg.host (nextArgs r.pkg) ⟨r.next, r.pkg.preserveSystemTokens⟩

/-- The environment of the next build. -/
def nextEnv : Values := buildEnv r.pkg ⟨none, none, none, none, nofun⟩ r.next

end Recovery

/-- The next build has the flags and the tools of the retry. -/
structure SameBuild (r : Recovery) : Prop where
  conf : ∀ key ∈ ltoKeys, r.retryConf.lookup key = r.nextConf.lookup key
  env : ∀ key ∈ bundleKeys, r.retryEnv.get key = r.nextEnv.get key

/-! ## When the swap is kept -/

/-- The linker flags of a profile that is retried. -/
def swapped (toolchain : Option Text) (ldflags : Option Text) : Option Text :=
  toolchain.elim ldflags fun tc => swapLdflags tc ldflags

/-- A linker in the place of the declared one, if one is given. -/
def withLinker (ld : Option Text) (ldflags : Option Text) : Option Text :=
  ld.elim ldflags fun ld => some (injectLinker (ldflags.getD []) ld)

/-- The linker of a row, if it has one, at the end. -/
def rowLinker (ld : Option Text) (ldflags : Option Text) : Option Text :=
  (present ld).elim ldflags fun ld => some (foldLinker (ldflags.getD []) ld)

namespace Recovery

variable (r : Recovery)

/-- The linker that the retry is given. -/
def givenLinker : Option Text := retryLinker r.cli r.ld

/-- The linker flags of the failed build's profile after the swap. -/
def retryLdflags : Option Text :=
  swapped (toolchainForCompilers r.cc r.cxx) (r.failed.get "LDFLAGS")

/-- The linker flags that the saved row makes of the profile without a row. -/
def nextLdflags : Option Text :=
  rowLinker (some r.ld) (swapped (toolchainForCompilers r.cc r.cxx) (r.plain.get "LDFLAGS"))

/-- The keys in which the values that are preserved from the system can differ. -/
def touched : List String :=
  if r.givenLinker.isSome ∧ r.pkg.args.kernelBuild = false then "LDFLAGS" :: bundleKeys
  else bundleKeys

/-- No token of the system is restored to these linker flags. -/
def Unrestored (ldflags : Option Text) : Prop :=
  r.pkg.preserveSystemTokens = true → ∀ v raw tokens, ldflags = some v →
    r.pkg.host.systemAssignments.get "LDFLAGS" = some raw →
    r.pkg.host.preservedSystemTokens.get "LDFLAGS" = some tokens →
    pureShellRef v = none ∧
      (mergePreservedTokens r.pkg.host.conflictGroups v (unquoteConfValue raw) tokens).2 = []

end Recovery

/-- The environment gives the next build the compiler that the retry ran with. -/
structure CompilerKept (r : Recovery) (key : String) (new : Text) (cli : Option Text) : Prop where
  /-- A compiler that is chosen is the injected one, if there is one. -/
  chosen : new ≠ [] → ∀ v, r.pkg.injectedEnv.get key = some v → v = new
  /-- Where none is chosen, none of the command line is lost. -/
  blank : new = [] → r.pkg.injectedEnv.get key = none →
    cli = none ∨ cli = r.failed.get key

/-- A linker that is given reaches the next build's conf as it reached the retry's. -/
structure LinkerKept (r : Recovery) : Prop where
  allowed : allowed r.pkg.args "LDFLAGS" = true
  named : ∀ s, r.nextLdflags = some s → present (detectLinkerFromLdflags s) ≠ none
  retry : r.Unrestored r.retryLdflags
  next : r.Unrestored r.nextLdflags

/-- What makes the next build the retry that succeeded. -/
structure SwapKept (r : Recovery) : Prop where
  /-- A reactive retry took the compiler for GCC, and so does the next build. -/
  reactive : r.reactive = true → r.pkg.args.pkgbuildHasHardcodedGcc = true ∨
    (present (some r.cc)).any (fun cc => !isLlvmToolchain cc) = true
  /-- The command line's compiler did not decide which flags are injected. -/
  flags : r.pkg.flagsExtra r.cli.cc = r.pkg.flagsExtra none
  cc : CompilerKept r "CC" r.cc r.cli.cc
  cxx : CompilerKept r "CXX" r.cxx r.cli.cxx
  /-- The profile's linker flags are not written, or the row makes what the retry made. -/
  linker : r.pkg.args.kernelBuild = true ∨
    (r.givenLinker = none ∧ allowed r.pkg.args "LDFLAGS" = false) ∨
    (withLinker r.givenLinker r.retryLdflags = r.nextLdflags ∧
      (r.givenLinker ≠ none → LinkerKept r))
  /-- No value refers to a key that the swap changes. -/
  refs : r.pkg.preserveSystemTokens = true → ∀ key ∉ r.touched, ∀ v,
    (retryProfile r.cc r.cxx r.failed).get key = some v →
    ∀ ref, pureShellRef v = some ref → ref ∉ r.touched

/-! ## The profiles -/

section Profiles

variable {p q : Values} {row : Row} {tc cc cxx : Text} {bundle : List (String × Text)}
  {key : String}

/-- A profile after swaps and rows: they change the keys of the bundles and the linker flags, and
leave a compiler alone or set one. -/
structure Derived (q p : Values) : Prop where
  other : ∀ key, key ∉ bundleKeys → key ≠ "LDFLAGS" → key ≠ "toolchain" → p.get key = q.get key
  compiler : ∀ key ∈ toolchainKeys, present (p.get key) = none → p.get key = q.get key

theorem Derived.refl (p : Values) : Derived p p := ⟨fun _ _ _ _ => rfl, fun _ _ _ => rfl⟩

theorem Derived.trans {p' : Values} (h : Derived q p) (h' : Derived p p') : Derived q p' := by
  refine ⟨fun key hb hl ht => (h'.other key hb hl ht).trans (h.other key hb hl ht), ?_⟩
  intro key hkey hnone
  have heq := h'.compiler key hkey hnone
  rw [heq] at hnone ⊢
  exact h.compiler key hkey hnone

theorem mem_bundleKeys_of_toolchainKeys (h : key ∈ toolchainKeys) : key ∈ bundleKeys := by
  have hall : ∀ k ∈ toolchainKeys, k ∈ bundleKeys := by decide
  exact hall key h

theorem derived_swapToolchain (hb : toolchainBundles.lookup tc = some bundle) :
    Derived p (swapToolchain p tc) := by
  refine ⟨fun key hk hl ht => get_swapToolchain hb hk hl ht, fun key hkey hnone => ?_⟩
  have hall : ∀ b ∈ toolchainBundles, ∀ k ∈ toolchainKeys, present (b.2.lookup k) ≠ none := by
    decide
  rw [get_swapToolchain_bundle hb (mem_bundleKeys_of_toolchainKeys hkey)] at hnone
  exact absurd hnone (hall _ (lookup_toolchainBundles hb) key hkey)

theorem get_compilerOverride_cc : (applyPackageCompilerOverride row p).get "CC" =
    (present row.cc).or (p.get "CC") := by
  unfold applyPackageCompilerOverride
  cases present row.cc <;> cases present row.cxx <;> cases present row.ld <;>
    simp [Option.elim, Dict.get_set]

theorem get_compilerOverride_cxx : (applyPackageCompilerOverride row p).get "CXX" =
    (present row.cxx).or (p.get "CXX") := by
  unfold applyPackageCompilerOverride
  cases present row.cc <;> cases present row.cxx <;> cases present row.ld <;>
    simp [Option.elim, Dict.get_set]

theorem get_compilerOverride_ldflags : (applyPackageCompilerOverride row p).get "LDFLAGS" =
    rowLinker row.ld (p.get "LDFLAGS") := by
  unfold applyPackageCompilerOverride rowLinker
  cases present row.cc <;> cases present row.cxx <;> cases present row.ld <;>
    simp [Option.elim, Dict.get_set]

theorem get_compilerOverride (hcc : key ≠ "CC") (hcxx : key ≠ "CXX") (hld : key ≠ "LDFLAGS") :
    (applyPackageCompilerOverride row p).get key = p.get key := by
  unfold applyPackageCompilerOverride
  cases present row.cc <;> cases present row.cxx <;> cases present row.ld <;>
    simp [Option.elim, Dict.get_set, hcc, hcxx, hld]

theorem present_or_eq_none {o o' : Option Text} (h : present ((present o).or o') = none) :
    (present o).or o' = o' := by
  cases ho : present o with
  | none => exact Option.none_or
  | some v =>
    rw [ho, Option.some_or] at h
    have hv : v ≠ [] := by
      have := (Option.filter_eq_some_iff.mp ho).2
      exact of_decide_eq_true this
    rw [present_of_ne_nil hv] at h
    cases h

theorem derived_compilerOverride : Derived p (applyPackageCompilerOverride row p) := by
  constructor
  · intro key hb hl _
    refine get_compilerOverride ?_ ?_ hl
    · rintro rfl
      exact hb (by decide)
    · rintro rfl
      exact hb (by decide)
  · intro key hkey hnone
    rw [toolchainKeys, List.mem_cons, List.mem_singleton] at hkey
    rcases hkey with rfl | rfl
    · rw [get_compilerOverride_cc] at hnone ⊢
      exact present_or_eq_none hnone
    · rw [get_compilerOverride_cxx] at hnone ⊢
      exact present_or_eq_none hnone

theorem derived_toolchainOverride : Derived p (applyPackageToolchainOverride row p) := by
  unfold applyPackageToolchainOverride
  cases present row.toolchain with
  | none => exact .refl p
  | some tc =>
    dsimp only
    cases hb : toolchainBundles.lookup tc with
    | none => exact .refl p
    | some bundle => exact derived_swapToolchain hb

theorem derived_applyCliToolchain (cli : Cli) : Derived p (applyCliToolchain cli p) := by
  unfold applyCliToolchain
  cases htc : present cli.toolchain with
  | none => exact .refl p
  | some tc =>
    obtain ⟨bundle, hb⟩ := cli.known tc (Option.filter_eq_some_iff.mp htc).1
    exact derived_swapToolchain hb

theorem toolchainForCompilers_eq (h : toolchainForCompilers cc cxx = some tc) :
    ∃ bundle, toolchainBundles.lookup tc = some bundle ∧ bundle.lookup "CC" = some cc ∧
      bundle.lookup "CXX" = some cxx := by
  obtain ⟨b, hb, rfl⟩ := Option.map_eq_some_iff.mp h
  have hall : ∀ b ∈ toolchainBundles, toolchainBundles.lookup b.1 = some b.2 := by decide
  have hp := List.find?_some hb
  rw [Bool.and_eq_true, decide_eq_true_eq, decide_eq_true_eq] at hp
  exact ⟨b.2, hall b (List.mem_of_find?_eq_some hb), hp⟩

end Profiles

/-! ## The retry and the next build -/

section Builds

variable {r : Recovery} {p : Values} {cc cxx tc ld : Text} {key : String}

theorem cc_ne_nil_of_unit (h : toolchainForCompilers cc cxx = some tc) : cc ≠ [] ∧ cxx ≠ [] := by
  obtain ⟨bundle, hb, hcc, hcxx⟩ := toolchainForCompilers_eq h
  have hall : ∀ b ∈ toolchainBundles, b.2.lookup "CC" ≠ some [] ∧ b.2.lookup "CXX" ≠ some [] := by
    decide
  obtain ⟨h₁, h₂⟩ := hall _ (lookup_toolchainBundles hb)
  refine ⟨?_, ?_⟩
  · rintro rfl
    exact h₁ hcc
  · rintro rfl
    exact h₂ hcxx

theorem derived_retryProfile : Derived p (retryProfile cc cxx p) := by
  unfold retryProfile
  cases h : toolchainForCompilers cc cxx with
  | none => exact .refl p
  | some tc =>
    obtain ⟨bundle, hb, -⟩ := toolchainForCompilers_eq h
    exact derived_swapToolchain hb

theorem retryProfile_ldflags : (retryProfile cc cxx p).get "LDFLAGS" =
    swapped (toolchainForCompilers cc cxx) (p.get "LDFLAGS") := by
  unfold retryProfile
  cases h : toolchainForCompilers cc cxx with
  | none => rfl
  | some tc =>
    obtain ⟨bundle, hb, -⟩ := toolchainForCompilers_eq h
    exact get_swapToolchain_ldflags hb

theorem derived_finishProfile {d : Option Text} {row : Row} {merged : Values} :
    Derived (expandToolchain d merged) (finishProfile d row merged) :=
  derived_toolchainOverride.trans derived_compilerOverride

theorem derived_failed : Derived r.plain r.failed :=
  derived_finishProfile.trans (derived_applyCliToolchain r.cli)

theorem derived_next : Derived r.plain r.next := derived_finishProfile

/-- The saved row makes of the profile without a row what a retry makes of it, and then sets the
compilers that are typed, and the linker. -/
theorem next_eq : r.next = applyPackageCompilerOverride (savedRow r.cc r.cxx r.ld)
    (retryProfile r.cc r.cxx r.plain) := by
  unfold Recovery.next finishProfile applyPackageToolchainOverride savedRow retryProfile
  cases h : toolchainForCompilers r.cc r.cxx with
  | none => rfl
  | some tc =>
    obtain ⟨bundle, hb, -⟩ := toolchainForCompilers_eq h
    dsimp only
    rw [present_of_ne_nil (ne_nil_of_bundle hb)]
    dsimp only
    rw [hb, Option.isSome_some, if_pos rfl]
    rfl

theorem present_present (o : Option Text) : present (present o) = present o := by
  unfold present
  rw [Option.filter_filter]
  simp only [Bool.and_self]

theorem next_ldflags : r.next.get "LDFLAGS" = r.nextLdflags := by
  rw [next_eq, get_compilerOverride_ldflags, retryProfile_ldflags, Recovery.nextLdflags, savedRow]
  cases toolchainForCompilers r.cc r.cxx with
  | none => rfl
  | some tc =>
    dsimp only
    rw [rowLinker, present_present]
    rfl

/-- The next build has the compiler that was chosen, else that of the profile without a row. -/
theorem next_cc : r.next.get "CC" = (present (some r.cc)).or (r.plain.get "CC") := by
  rw [next_eq, get_compilerOverride_cc, savedRow, retryProfile]
  cases h : toolchainForCompilers r.cc r.cxx with
  | none => rfl
  | some tc =>
    obtain ⟨bundle, hb, hcc, -⟩ := toolchainForCompilers_eq h
    rw [present_of_ne_nil (cc_ne_nil_of_unit h).1]
    exact (get_swapToolchain_bundle hb (by decide)).trans hcc

theorem next_cxx : r.next.get "CXX" = (present (some r.cxx)).or (r.plain.get "CXX") := by
  rw [next_eq, get_compilerOverride_cxx, savedRow, retryProfile]
  cases h : toolchainForCompilers r.cc r.cxx with
  | none => rfl
  | some tc =>
    obtain ⟨bundle, hb, -, hcxx⟩ := toolchainForCompilers_eq h
    rw [present_of_ne_nil (cc_ne_nil_of_unit h).2]
    exact (get_swapToolchain_bundle hb (by decide)).trans hcxx

theorem orCurrent_eq_nil {typed : Text} {current : Option Text} (h : orCurrent typed current = []) :
    present current = none := by
  unfold orCurrent at h
  by_cases ht : typed = []
  · rw [if_pos ht] at h
    cases current with
    | none => rfl
    | some v =>
      rw [Option.getD_some] at h
      rw [h]
      rfl
  · rw [if_neg ht] at h
    exact absurd h ht

/-- A compiler is left blank only where the profile has none. -/
theorem blank_cc (h : r.cc = []) : present (r.failed.get "CC") = none := by
  have hunit : "gcc".toList ≠ [] ∧ "clang".toList ≠ [] := by decide
  unfold Recovery.cc at h
  cases hc : r.choice with
  | gcc => rw [hc] at h; exact absurd h hunit.1
  | clang => rw [hc] at h; exact absurd h hunit.2
  | manual cc cxx => rw [hc] at h; exact orCurrent_eq_nil h

theorem blank_cxx (h : r.cxx = []) : present (r.failed.get "CXX") = none := by
  have hunit : "g++".toList ≠ [] ∧ "clang++".toList ≠ [] := by decide
  unfold Recovery.cxx at h
  cases hc : r.choice with
  | gcc => rw [hc] at h; exact absurd h hunit.1
  | clang => rw [hc] at h; exact absurd h hunit.2
  | manual cc cxx => rw [hc] at h; exact orCurrent_eq_nil h

/-! ## The environment -/

theorem get_resolveEnvVars_toolchain {args : Args} (hkey : key ∈ toolchainKeys) :
    (resolveEnvVars args p).get key = p.get key := by
  have hall : ∀ k ∈ toolchainKeys, k ∉ sysforgeKeys := by decide
  unfold resolveEnvVars
  rw [Dict.get_filter, decide_eq_true (hall key hkey), decide_eq_true hkey]
  cases p.get key with
  | none => rfl
  | some v => rfl

/-- The binutils of a profile travel in no environment. -/
theorem get_resolveEnvVars_binutils {args : Args} (hkey : key ∈ bundleKeys)
    (hnot : key ∉ toolchainKeys) : (resolveEnvVars args p).get key = none := by
  have hall : ∀ k ∈ bundleKeys, k ∉ envKeys ∧ (confKeyMap.any fun type => k ∈ type.2) = true := by
    decide
  obtain ⟨henv, hmap⟩ := hall key hkey
  unfold resolveEnvVars
  rw [Dict.get_filter, decide_eq_false hnot, decide_eq_false henv, hmap]
  cases p.get key with
  | none => rfl
  | some v => exact if_neg (by simp)

/-- What a build adds to the environment for a key. -/
theorem get_buildEnv {pkg : Package} {cli : Cli} : (buildEnv pkg cli p).get key =
    (pkg.injectedEnv.get key).or
      (if key = "CXX" ∧ cli.cxx ≠ none then cli.cxx
        else if key = "CC" ∧ cli.cc ≠ none then cli.cc
        else (resolveEnvVars pkg.args p).get key) := by
  unfold buildEnv
  dsimp only
  rw [Dict.get_update]
  congr 1
  cases cli.cc <;> cases cli.cxx <;> simp [Option.elim, Dict.get_set]

theorem get_swapEnv {env : Values} : (swapEnv cc cxx env).get key =
    if key = "CXX" ∧ cxx ≠ [] then some cxx
    else if key = "CC" ∧ cc ≠ [] then some cc else env.get key := by
  unfold swapEnv
  by_cases hcc : cc = [] <;> by_cases hcxx : cxx = [] <;> simp [hcc, hcxx, Dict.get_set]

/-- Where a compiler is chosen it is the next build's; where none is, the retry left the profile's
alone, and so does the next build. -/
theorem tool_env {new : Text} {cli : Option Text} (hkey : key ∈ toolchainKeys)
    (h : CompilerKept r key new cli)
    (hblank : new = [] → present (r.failed.get key) = none)
    (hnext : r.next.get key = (present (some new)).or (r.plain.get key)) :
    (if new ≠ [] then some new else (r.pkg.injectedEnv.get key).or (if cli ≠ none then cli
      else r.failed.get key)) = (r.pkg.injectedEnv.get key).or (r.next.get key) := by
  rw [hnext]
  by_cases hnew : new = []
  · have hplain := derived_failed.compiler key hkey (hblank hnew)
    have hnone : present (some new) = none := present_none_iff.mpr (.inr (congrArg some hnew))
    rw [if_neg (not_not_intro hnew), hnone, Option.none_or, ← hplain]
    cases hi : r.pkg.injectedEnv.get key with
    | some v => rfl
    | none =>
      rw [Option.none_or, Option.none_or]
      rcases h.blank hnew hi with hc | hc
      · rw [if_neg (not_not_intro hc)]
      · rw [hc, ite_self]
  · rw [if_pos hnew, present_of_ne_nil hnew, Option.some_or]
    cases hi : r.pkg.injectedEnv.get key with
    | none => rfl
    | some v => rw [h.chosen hnew v hi, Option.some_or]

theorem env_eq (hcc : CompilerKept r "CC" r.cc r.cli.cc)
    (hcxx : CompilerKept r "CXX" r.cxx r.cli.cxx) (hkey : key ∈ bundleKeys) : r.retryEnv.get key = r.nextEnv.get key := by
  unfold Recovery.retryEnv Recovery.nextEnv
  rw [get_swapEnv, get_buildEnv, get_buildEnv]
  by_cases hx : key = "CXX"
  · subst hx
    rw [get_resolveEnvVars_toolchain (by decide), get_resolveEnvVars_toolchain (by decide)]
    simpa using tool_env (by decide) hcxx blank_cxx next_cxx
  · by_cases hc : key = "CC"
    · subst hc
      rw [get_resolveEnvVars_toolchain (by decide), get_resolveEnvVars_toolchain (by decide)]
      simpa using tool_env (by decide) hcc blank_cc next_cc
    · have hnot : key ∉ toolchainKeys := by
        rw [toolchainKeys, List.mem_cons, List.mem_singleton, not_or]
        exact ⟨hc, hx⟩
      rw [get_resolveEnvVars_binutils hkey hnot, get_resolveEnvVars_binutils hkey hnot]
      simp [hc, hx]

/-! ## The conf -/

theorem isGcc_eq (h : r.reactive = true → r.pkg.args.pkgbuildHasHardcodedGcc = true ∨
      (present (some r.cc)).any (fun cc => !isLlvmToolchain cc) = true) {b : Bool} :
    isGcc (retryArgs r.pkg r.cli r.cc r.cxx r.ld r.reactive) ⟨retryProfile r.cc r.cxx r.failed, b⟩ =
      isGcc (nextArgs r.pkg) ⟨r.next, b⟩ := by
  have hcc : effectiveCc (retryArgs r.pkg r.cli r.cc r.cxx r.ld r.reactive)
      ⟨retryProfile r.cc r.cxx r.failed, b⟩ = effectiveCc (nextArgs r.pkg) ⟨r.next, b⟩ := by
    change (present (present (some r.cc))).or ((retryProfile r.cc r.cxx r.failed).get "CC") =
      r.next.get "CC"
    rw [present_present, next_cc]
    by_cases hnil : r.cc = []
    · have hnone : toolchainForCompilers r.cc r.cxx = none := by
        cases h : toolchainForCompilers r.cc r.cxx with
        | none => rfl
        | some tc => exact absurd hnil (cc_ne_nil_of_unit h).1
      rw [present_none_iff.mpr (.inr (congrArg some hnil)), Option.none_or, Option.none_or,
        retryProfile, hnone]
      exact derived_failed.compiler "CC" (by decide) (blank_cc hnil)
    · rw [present_of_ne_nil hnil, Option.some_or, Option.some_or]
  unfold isGcc
  rw [hcc]
  cases hr : r.reactive with
  | false => rfl
  | true =>
    change ((present _).any _ || r.pkg.args.pkgbuildHasHardcodedGcc || true) =
      ((present _).any _ || r.pkg.args.pkgbuildHasHardcodedGcc || false)
    rcases h hr with hg | hg
    · simp only [hg, Bool.or_true, Bool.true_or]
    · have hnext : effectiveCc (nextArgs r.pkg) ⟨r.next, b⟩ =
          (present (some r.cc)).or (r.plain.get "CC") := next_cc
      have hne : r.cc ≠ [] := by
        intro hnil
        rw [present_none_iff.mpr (.inr (congrArg some hnil))] at hg
        cases hg
      rw [hnext, present_of_ne_nil hne, Option.some_or]
      rw [present_of_ne_nil hne] at hg
      rw [present_of_ne_nil hne, hg, Bool.true_or, Bool.true_or, Bool.true_or]

/-- The values of the two builds that can be written, before any change. -/
abbrev retryWritten (r : Recovery) : Overrides :=
  written r.pkg.args ⟨retryProfile r.cc r.cxx r.failed, r.pkg.preserveSystemTokens⟩

abbrev nextWritten (r : Recovery) : Overrides :=
  written r.pkg.args ⟨r.next, r.pkg.preserveSystemTokens⟩

theorem get_written {args : Args} {b : Bool} : (written args ⟨p, b⟩).get key =
    (p.get key).filter fun _ => decide (key ∉ sysforgeKeys) && decide (key ∉ envKeys) &&
      allowed args key && !(args.kernelBuild && decide (key ∈ kernelCleanKeys)) :=
  Dict.get_filter ..

/-- No linker flags are written. -/
theorem get_written_ldflags {args : Args} {b : Bool}
    (h : args.kernelBuild = true ∨ allowed args "LDFLAGS" = false) :
    (written args ⟨p, b⟩).get "LDFLAGS" = none := by
  have hclean : decide ("LDFLAGS" ∈ kernelCleanKeys) = true := by decide
  rw [get_written]
  cases p.get "LDFLAGS" with
  | none => rfl
  | some v =>
    rw [Option.filter_some, if_neg]
    rcases h with h | h
    · simp [h, hclean]
    · simp [h]

/-- The written values agree outside the keys that the swap touches. -/
theorem written_agree (h : SwapKept r) (hkey : key ∉ r.touched) :
    (retryWritten r).get key = (nextWritten r).get key := by
  have hbundle : key ∉ bundleKeys := by
    intro hmem
    refine hkey ?_
    unfold Recovery.touched
    split
    · exact List.mem_cons_of_mem _ hmem
    · exact hmem
  by_cases hld : key = "LDFLAGS"
  · subst hld
    rcases h.linker with hk | ⟨-, hnot⟩ | ⟨heq, -⟩
    · rw [get_written_ldflags (.inl hk), get_written_ldflags (.inl hk)]
    · rw [get_written_ldflags (.inr hnot), get_written_ldflags (.inr hnot)]
    · by_cases hk : r.pkg.args.kernelBuild = true
      · rw [get_written_ldflags (.inl hk), get_written_ldflags (.inl hk)]
      · have hnone : r.givenLinker = none := by
          by_contra hsome
          refine hkey ?_
          unfold Recovery.touched
          rw [if_pos ⟨Option.isSome_iff_ne_none.mpr hsome, Bool.eq_false_iff.mpr hk⟩]
          exact List.mem_cons_self
        rw [hnone] at heq
        rw [get_written, get_written, retryProfile_ldflags, next_ldflags]
        exact congrArg (Option.filter _) heq
  · by_cases htc : key = "toolchain"
    · have hown : decide (key ∉ sysforgeKeys) = false := by
        rw [htc]
        decide
      rw [get_written, get_written, hown]
      cases (retryProfile r.cc r.cxx r.failed).get key <;> cases r.next.get key <;> rfl
    · rw [get_written, get_written, derived_retryProfile.other key hbundle hld htc,
        derived_failed.other key hbundle hld htc, derived_next.other key hbundle hld htc]

/-- The values after the preservation of system tokens agree there too. -/
theorem preserve_agree (h : SwapKept r) (hkey : key ∉ r.touched) :
    (preserve r.pkg.host ⟨retryProfile r.cc r.cxx r.failed, r.pkg.preserveSystemTokens⟩
        (retryWritten r)).get key =
      (preserve r.pkg.host ⟨r.next, r.pkg.preserveSystemTokens⟩ (nextWritten r)).get key := by
  have hv : AgreeOff r.touched ((retryWritten r).map fun _ v => Value.str v)
      ((nextWritten r).map fun _ v => Value.str v) := by
    intro k hk
    rw [Dict.get_map, Dict.get_map, written_agree h hk]
  unfold preserve
  rw [Dict.get_map, Dict.get_map]
  dsimp only
  cases hp : r.pkg.preserveSystemTokens with
  | false => exact congrArg _ (hv key hkey)
  | true =>
    rw [applyPreservedSystemTokens_eq, applyPreservedSystemTokens_eq]
    refine congrArg _ (passed_congr hv ?_ key hkey)
    intro k hk ref href
    unfold refOf at href
    rw [Dict.get_map] at href
    cases hw : (retryWritten r).get k with
    | none =>
      rw [hw] at href
      cases href
    | some v =>
      rw [hw] at href
      rw [get_written] at hw
      exact h.refs hp k hk v (Option.filter_eq_some_iff.mp hw).1 ref href

/-- Linker flags to which nothing is restored stay as they are. -/
theorem preserve_ldflags {p : Values} {ldflags : Option Text} (hu : r.Unrestored ldflags)
    {ov : Overrides} (hov : ov.get "LDFLAGS" = ldflags) :
    (preserve r.pkg.host ⟨p, r.pkg.preserveSystemTokens⟩ ov).get "LDFLAGS" = ldflags := by
  unfold preserve
  rw [Dict.get_map]
  dsimp only
  have hget : (ov.map fun _ v => Value.str v).get "LDFLAGS" = ldflags.map Value.str := by
    rw [Dict.get_map, hov]
  have hback : (ldflags.map Value.str).map textOf = ldflags := by
    cases ldflags <;> rfl
  cases hp : r.pkg.preserveSystemTokens with
  | false => exact (congrArg _ hget).trans hback
  | true =>
    rw [applyPreservedSystemTokens_eq]
    refine Eq.trans (congrArg _ ?_) hback
    by_cases hskip : r.pkg.host.preservedSystemTokens.get "LDFLAGS" = none ∨
        r.pkg.host.systemAssignments.get "LDFLAGS" = none ∨
        ∀ v, (ov.map fun _ v => Value.str v).get "LDFLAGS" ≠ some (.str v)
    · exact (passed_frame hskip).trans hget
    · simp only [not_or, not_forall, not_not] at hskip
      obtain ⟨ht, hs, v, hval⟩ := hskip
      obtain ⟨tokens, ht⟩ := Option.ne_none_iff_exists'.mp ht
      obtain ⟨raw, hraw⟩ := Option.ne_none_iff_exists'.mp hs
      obtain ⟨merged, hfinal, -⟩ := @passed_get r.pkg.host.conflictGroups v "LDFLAGS" _ _ _
        raw tokens hval hraw ht
      have hld : ldflags = some v := by
        rw [hget] at hval
        cases ldflags with
        | none => cases hval
        | some w =>
          have hw := Value.str.inj (Option.some.inj hval)
          rw [hw]
      obtain ⟨href, hnil⟩ := hu hp v raw tokens hld hraw ht
      rw [href, restoreValue, if_pos hnil] at hfinal
      rw [hld]
      exact hfinal

theorem get_overrideCompilers {host : Host} {args : Args} {ov : Overrides} (hkey : key ∈ ltoKeys) :
    (overrideCompilers args (capJobs host args ov)).get key = ov.get key := by
  have hall : ∀ k ∈ ltoKeys, k ≠ "MAKEFLAGS" ∧ k ≠ "CC" ∧ k ≠ "CXX" := by decide
  obtain ⟨hmake, hcc, hcxx⟩ := hall key hkey
  unfold overrideCompilers capJobs
  cases args.jobs <;> cases args.ccOverride <;> cases args.cxxOverride <;>
    simp [Option.elim, Dict.get_set, hmake, hcc, hcxx]

theorem get_overrideLinker {host : Host} {args : Args} {ov : Overrides}
    (h : key ≠ "LDFLAGS" ∨ args.kernelBuild = true) :
    (overrideLinker host args ov).get key = ov.get key := by
  have hset (v : Text) (hk : key ≠ "LDFLAGS") : (ov.set "LDFLAGS" v).get key = ov.get key := by
    rw [Dict.get_set, if_neg hk]
  unfold overrideLinker
  cases args.ldOverride with
  | none =>
    dsimp only
    split_ifs with hv hl
    · rcases h with h | h
      · exact hset _ h
      · rw [h] at hv
        cases hv
    · rfl
    · rfl
  | some ld =>
    dsimp only
    split_ifs with hk
    · rfl
    · exact hset _ (h.resolve_right hk)

/-- A linker that is given takes the place of the declared one. -/
theorem get_overrideLinker_given {host : Host} {args : Args} {ov : Overrides}
    (hld : args.ldOverride = some ld) (hk : args.kernelBuild = false) :
    (overrideLinker host args ov).get "LDFLAGS" = withLinker (some ld) (ov.get "LDFLAGS") := by
  unfold overrideLinker
  rw [hld]
  dsimp only
  rw [if_neg (Bool.eq_false_iff.mp hk), Dict.get_set, if_pos rfl]
  rfl

/-- No default takes the place of a declared linker. -/
theorem get_overrideLinker_named {host : Host} {args : Args} {ov : Overrides} {v : Text}
    (hld : args.ldOverride = none) (hv : ov.get "LDFLAGS" = some v)
    (hnamed : present (detectLinkerFromLdflags v) ≠ none) : overrideLinker host args ov = ov := by
  unfold overrideLinker effective
  rw [hld, hv, Option.some_or, Option.getD_some]
  dsimp only
  split
  · exact if_neg fun h => hnamed h.1
  · rfl

/-- Where no linker is given both builds default it alike. -/
theorem agree_overrideLinker {host : Host} {args args' : Args} {ov ov' : Overrides}
    (h : Agree ov ov') (hld : args.ldOverride = none) (hld' : args'.ldOverride = none)
    (hk : args.kernelBuild = args'.kernelBuild)
    (hv : args.toolchainVariant = args'.toolchainVariant) :
    Agree (overrideLinker host args ov) (overrideLinker host args' ov') := by
  unfold overrideLinker
  rw [hld, hld', hk, hv, h.effective (by decide)]
  dsimp only
  split
  · split
    · exact h.set _
    · exact h
  · exact h

/-- The values of both builds, before a linker is put in. -/
abbrev retryValues (r : Recovery) : Overrides :=
  preserve r.pkg.host ⟨retryProfile r.cc r.cxx r.failed, r.pkg.preserveSystemTokens⟩
    (retryWritten r)

abbrev nextValues (r : Recovery) : Overrides :=
  preserve r.pkg.host ⟨r.next, r.pkg.preserveSystemTokens⟩ (nextWritten r)

theorem notMem_touched (hkey : key ∈ ltoKeys)
    (h : key ≠ "LDFLAGS" ∨ r.givenLinker = none ∨ r.pkg.args.kernelBuild = true) :
    key ∉ r.touched := by
  have hall : ∀ k ∈ ltoKeys, k ∉ bundleKeys := by decide
  unfold Recovery.touched
  split_ifs with hc
  · rw [List.mem_cons, not_or]
    refine ⟨?_, hall key hkey⟩
    rcases h with h | h | h
    · exact h
    · rw [h] at hc
      exact absurd hc.1 (by decide)
    · rw [h] at hc
      exact absurd hc.2 (by decide)
  · exact hall key hkey

/-- The linker flags of both builds where a linker is given. -/
theorem values_ldflags (hk : r.pkg.args.kernelBuild = false) (h : LinkerKept r) :
    (retryValues r).get "LDFLAGS" = r.retryLdflags ∧
      (nextValues r).get "LDFLAGS" = r.nextLdflags := by
  have hwritten {p : Values} {b : Bool} :
      (written r.pkg.args ⟨p, b⟩).get "LDFLAGS" = p.get "LDFLAGS" := by
    have hown : decide ("LDFLAGS" ∉ sysforgeKeys) = true ∧ decide ("LDFLAGS" ∉ envKeys) = true := by
      decide
    rw [get_written, hown.1, hown.2, h.allowed, hk]
    cases p.get "LDFLAGS" <;> rfl
  exact ⟨preserve_ldflags h.retry (hwritten.trans retryProfile_ldflags),
    preserve_ldflags h.next (hwritten.trans next_ldflags)⟩

theorem agree_unguarded (h : SwapKept r) :
    Agree (unguarded r.pkg.host (retryArgs r.pkg r.cli r.cc r.cxx r.ld r.reactive)
        ⟨retryProfile r.cc r.cxx r.failed, r.pkg.preserveSystemTokens⟩)
      (unguarded r.pkg.host (nextArgs r.pkg) ⟨r.next, r.pkg.preserveSystemTokens⟩) := by
  change Agree (overrideLinker r.pkg.host _ (overrideCompilers _ (capJobs r.pkg.host
      (retryArgs r.pkg r.cli r.cc r.cxx r.ld r.reactive) (retryValues r))))
    (overrideLinker r.pkg.host _ (overrideCompilers _ (capJobs r.pkg.host (nextArgs r.pkg)
      (nextValues r))))
  have hvalues (hg : r.givenLinker = none ∨ r.pkg.args.kernelBuild = true) :
      Agree (overrideCompilers (retryArgs r.pkg r.cli r.cc r.cxx r.ld r.reactive)
          (capJobs r.pkg.host (retryArgs r.pkg r.cli r.cc r.cxx r.ld r.reactive) (retryValues r)))
        (overrideCompilers (nextArgs r.pkg)
          (capJobs r.pkg.host (nextArgs r.pkg) (nextValues r))) := by
    intro key hkey
    rw [get_overrideCompilers hkey, get_overrideCompilers hkey]
    exact preserve_agree h (notMem_touched hkey (.inr hg))
  cases hk : r.pkg.args.kernelBuild with
  | true =>
    intro key hkey
    have hretry : (retryArgs r.pkg r.cli r.cc r.cxx r.ld r.reactive).kernelBuild = true := hk
    have hnext : (nextArgs r.pkg).kernelBuild = true := hk
    rw [get_overrideLinker (.inr hretry), get_overrideLinker (.inr hnext)]
    exact hvalues (.inr hk) key hkey
  | false =>
    cases hg : r.givenLinker with
    | none => exact agree_overrideLinker (hvalues (.inl hg)) hg rfl rfl rfl
    | some ld =>
      intro key hkey
      by_cases hld : key = "LDFLAGS"
      · subst hld
        rcases h.linker with hk' | ⟨hnone, -⟩ | ⟨heq, hkept⟩
        · rw [hk] at hk'
          cases hk'
        · rw [hg] at hnone
          cases hnone
        · have hkept := hkept (by rw [hg]; exact Option.some_ne_none ld)
          obtain ⟨hretry, hnext⟩ := values_ldflags hk hkept
          rw [hg] at heq
          have hsome : r.nextLdflags = some (injectLinker (r.retryLdflags.getD []) ld) := heq.symm
          have hgiven : (retryArgs r.pkg r.cli r.cc r.cxx r.ld r.reactive).ldOverride = some ld :=
            hg
          have hbase := (@get_overrideCompilers _ r.pkg.host (nextArgs r.pkg) (nextValues r)
            hkey).trans (hnext.trans hsome)
          rw [get_overrideLinker_given hgiven hk, get_overrideCompilers hkey, hretry, heq,
            get_overrideLinker_named rfl hbase (hkept.named _ hsome), hbase, hsome]
      · rw [get_overrideLinker (.inl hld), get_overrideLinker (.inl hld),
          get_overrideCompilers hkey, get_overrideCompilers hkey]
        exact preserve_agree h (notMem_touched hkey (.inl hld))

end Builds

/-- A system whose linker flags are one token. -/
def plainHost : Host where
  systemAssignments := .ofItems [("LDFLAGS", "\"-Wl,-O1\"".toList)]
  which _ := true
  preservedSystemTokens := .empty
  conflictGroups := .empty

/-- A package that builds with the LLVM bundle. -/
def llvmPackage : Package where
  merged := .ofItems [("toolchain", "llvm".toList), ("LDFLAGS", "-Wl,-O2".toList)]
  host := plainHost

/-- The build failed, and the retry runs with GCC and its own linker. -/
def gccSwap : Recovery where
  pkg := llvmPackage
  cli := ⟨none, none, none, none, nofun⟩
  choice := .gcc
  ld := []

theorem gccSwap_kept : SwapKept gccSwap where
  reactive := nofun
  flags := rfl
  cc := ⟨fun _ _ h => absurd h (Option.some_ne_none _).symm, fun h => absurd h (by decide)⟩
  cxx := ⟨fun _ _ h => absurd h (Option.some_ne_none _).symm, fun h => absurd h (by decide)⟩
  linker := .inr (.inr ⟨by decide, fun h => absurd rfl h⟩)
  refs _ key _ v hv ref href := by
    have hall : ∀ q ∈ (retryProfile gccSwap.cc gccSwap.cxx gccSwap.failed).items,
        pureShellRef q.2 = none := by decide
    rw [hall _ (Dict.mem_items.mpr hv)] at href
    cases href

/-- The build was given `--ld`, which the retry keeps and the saved row does not. -/
def moldSwap : Recovery :=
  { gccSwap with cli := ⟨none, none, none, some "mold".toList, nofun⟩ }

end Sysforge.Swap
