import Sysforge.Makepkg.BuildInputs

/-!
# The record of the build inputs against the build

The record is right when each input is recorded with the value that reached the package, and only
then: the profile of a `-fprofile-use` in the `CFLAGS` of the conf, the driver lists and the target
list that were put into the PKGBUILD or found there. `recordedAsUsed_iff` gives the exact condition
on the configuration and the package. The run reads the compiler of the profile only when an option
names the profile, and the record always does, so that a package of an LLVM profile is recorded as
built with a profile that it never got (`not_recordedAsUsed`).
-/

namespace Sysforge.BuildInputs

open Text Flags EmitConf

variable {b : Build} {text v P : Text} {drivers targets tokens : List Text} {regex : Re}

/-! ## What was put into the PKGBUILD -/

theorem quoted_injective : Function.Injective quoted := fun _ _ h =>
  List.append_cancel_right (List.cons.inj h).2

/-- The place for the option of LLVM: the option, which the replacement template leaves as it is, or
a configure command. -/
def HasTargetsPlace (template : Text → Option Text) (text : Text) (targets : List Text) : Prop :=
  match Re.search llvmTargetsRe text with
  | some m => group0 text m = llvmTargetsKey ++ quoted (targetsValue targets) ∨
      template (quoted (targetsValue targets)) = some (quoted (targetsValue targets))
  | none => (findCmakeConfigureAnchor text).isSome

/-- The targets are in the PKGBUILD exactly when it has a place for them. -/
theorem patchLlvmTargets_value {template : Text → Option Text} (ht : targets ≠ []) :
    (∃ p, patchLlvmTargets template text targets = some p ∧
        p.value = quoted (targetsValue targets)) ↔ HasTargetsPlace template text targets := by
  rw [patchLlvmTargets, if_neg ht, HasTargetsPlace]
  cases Re.search llvmTargetsRe text with
  | none =>
    dsimp only
    cases findCmakeConfigureAnchor text with
    | none => exact iff_of_false nofun nofun
    | some m => exact iff_of_true ⟨_, rfl, rfl⟩ rfl
  | some m =>
    dsimp only
    by_cases hg : group0 text m = llvmTargetsKey ++ quoted (targetsValue targets)
    · rw [if_pos hg]
      exact iff_of_true ⟨_, rfl, rfl⟩ (.inl hg)
    · rw [if_neg hg, or_iff_right hg]
      cases template (quoted (targetsValue targets)) with
      | none => exact iff_of_false nofun nofun
      | some w =>
        constructor
        · rintro ⟨p, hp, hw⟩
          obtain rfl := Option.some.inj hp
          exact congrArg some hw
        · intro hw
          exact ⟨_, rfl, Option.some.inj hw⟩

/-- The option of a driver axis is there, and every driver of the list is known. -/
def HasDriversPlace (text : Text) (regex : Re) (drivers tokens : List Text) : Prop :=
  rewritesAxis drivers tokens = true ∧ (Re.search regex text).isSome

theorem rewriteMesaOption_value :
    (∃ p, (if rewritesAxis drivers tokens then rewriteMesaOption text regex drivers
        else none) = some p ∧ p.value = v) ↔
      HasDriversPlace text regex drivers tokens ∧ v = driversValue drivers := by
  rw [HasDriversPlace]
  by_cases ha : rewritesAxis drivers tokens = true
  · rw [if_pos ha, rewriteMesaOption, and_iff_right ha]
    cases Re.search regex text with
    | none => exact iff_of_false nofun nofun
    | some m =>
      rw [Option.map_some, Option.isSome_some, and_iff_right rfl]
      constructor
      · rintro ⟨p, hp, rfl⟩
        obtain rfl := Option.some.inj hp
        rfl
      · rintro rfl
        exact ⟨_, rfl, rfl⟩
  · rw [if_neg ha]
    exact iff_of_false nofun fun h => ha h.1.1

/-! ## What is recorded -/

theorem lookup_entry {key key' : String} {value : Option Text} :
    (entry key value).lookup key' = if key' = key then value else none := by
  cases value with
  | none => rw [entry, ite_self]; rfl
  | some v =>
    rw [entry, Option.toList_some, List.map_singleton, Assoc.lookup_cons_eq]
    rfl

theorem lookup_mesa_gallium : (resolveBuildInputs b).lookup "mesa_gallium" =
    (recordedDrivers b).map fun d => driversValue d.1 := by
  simp only [resolveBuildInputs, List.lookup_append, lookup_entry]
  simp

theorem lookup_mesa_vulkan : (resolveBuildInputs b).lookup "mesa_vulkan" =
    (recordedDrivers b).map fun d => driversValue d.2 := by
  simp only [resolveBuildInputs, List.lookup_append, lookup_entry]
  simp

theorem lookup_llvm_targets : (resolveBuildInputs b).lookup "llvm_targets" =
    (recordedTargets b).map targetsValue := by
  simp only [resolveBuildInputs, List.lookup_append, lookup_entry]
  simp

theorem lookup_pgo_profile : (resolveBuildInputs b).lookup "pgo_profile" = recordedProfile b := by
  simp only [resolveBuildInputs, List.lookup_append, lookup_entry]
  simp

/-- The package's own merged profile is recorded. -/
def records (b : Build) : Bool :=
  (present (pgoPkgbase b.names)).isSome && b.ownerStage.isNone && isLlvmToolchain (recordCc b) &&
    (b.isFile (profdata b) || decide (b.pgoMode = some .use))

theorem recordedProfile_eq_some :
    recordedProfile b = some P ↔ records b = true ∧ P = profdata b := by
  have hpath : (pkgbaseOf b.names).isSome = true →
      b.profdataPath (pkgbaseOf b.names) = profdata b := by
    intro h
    obtain ⟨n, hn⟩ := Option.isSome_iff_exists.mp h
    rw [profdata, hn, (Option.filter_eq_some_iff.mp hn).1]
  rw [recordedProfile, records, ← pkgbaseOf]
  by_cases h : (pkgbaseOf b.names).isSome = true
  · rw [hpath h, h, isFileAfter, decide_eq_true rfl, Bool.and_true, Bool.true_and]
    split_ifs with hc
    · rw [Option.some_inj, and_iff_right hc, eq_comm]
    · exact iff_of_false nofun fun h' => hc h'.1
  · rw [Bool.not_eq_true] at h
    rw [h, Bool.false_and, Bool.false_and, Bool.false_and, Bool.false_and,
      if_neg Bool.false_ne_true]
    exact iff_of_false nofun fun h' => Bool.false_ne_true h'.1

/-! ## The profiles that reach the compiler -/

/-- The arguments of the attempt that succeeded. -/
def attemptArgs (b : Build) : Args :=
  { b.args with compilerFlagsExtra := effectiveFlagsExtra b }

/-- The flags that the build passes beside the package's own merged profile. -/
def otherFlags (b : Build) : List Text :=
  words ((toolchainFlags b).getD []) ++
    if b.pgoMode = some .record then words (generateFlag (b.store (pgoPkgbase b.names))) else []

/-- A profile reaches the compiler that is not the package's own merged profile: from the options,
the toolchain or the store, or from the flags of the configuration. -/
def OtherProfile (b : Build) (P : Text) : Prop :=
  b.args.isMuslStatic = false ∧
    ((b.args.isLib32 = false ∧ useFlags P ∈ otherFlags b) ∨
      OwnFlag b.host (attemptArgs b) b.attempt (useFlags P))

/-- The package's own merged profile is passed, and the package keeps profile flags. -/
def Takes (b : Build) : Prop :=
  b.args.isMuslStatic = false ∧ b.args.isLib32 = false ∧ injects b = true

theorem words_addFlag (extra : Option Text) (flag : Text) :
    words ((addFlag extra flag).getD []) = words (extra.getD []) ++ words flag := by
  rw [addFlag, Option.getD_some]
  cases extra with
  | none => rfl
  | some e =>
    by_cases he : e = []
    · subst he
      rfl
    · have hp : present (some e) = some e := by
        rw [present, Option.filter_eq_some_iff]
        exact ⟨rfl, decide_eq_true he⟩
      rw [hp]
      exact words_append e flag

theorem words_effectiveFlagsExtra : words ((effectiveFlagsExtra b).getD []) =
    otherFlags b ++ if injects b then words (useFlags (profdata b)) else [] := by
  rw [effectiveFlagsExtra, otherFlags]
  by_cases hr : b.pgoMode = some .record
  · have hi : injects b = false := by rw [injects, hr]
    rw [if_pos hr, if_pos hr, words_addFlag, hi, if_neg Bool.false_ne_true, List.append_nil]
  · rw [if_neg hr, if_neg hr, List.append_nil]
    by_cases hi : injects b = true
    · rw [if_pos hi, if_pos hi, words_addFlag]
    · rw [if_neg hi, if_neg hi, List.append_nil]

theorem mem_words_present {o : Option Text} {t : Text} :
    (∃ extra, present o = some extra ∧ t ∈ words extra) ↔ t ∈ words (o.getD []) := by
  constructor
  · rintro ⟨e, he, ht⟩
    obtain ⟨rfl, -⟩ := Option.filter_eq_some_iff.mp he
    exact ht
  · intro ht
    cases o with
    | none => exact absurd ht List.not_mem_nil
    | some e =>
      refine ⟨e, Option.filter_eq_some_iff.mpr ⟨rfl, decide_eq_true ?_⟩, ht⟩
      rintro rfl
      exact absurd ht List.not_mem_nil

theorem isPgoFlag_useFlags : isPgoFlag (useFlags P) = true := by
  refine List.any_eq_true.mpr ⟨"-fprofile-use".toList, by decide, ?_⟩
  rw [Bool.or_eq_true, List.isPrefixOf_iff_prefix]
  exact .inr ⟨P, rfl⟩

theorem useFlags_injective : Function.Injective useFlags := fun _ _ h =>
  List.append_cancel_left h

/-- A profile reaches the compiler as the package's own or as another. -/
theorem mem_conf : useFlags P ∈ emittedFlags (conf b) "CFLAGS" ↔
    Takes b ∧ useFlags P ∈ words (useFlags (profdata b)) ∨ OtherProfile b P := by
  rw [conf, ← attemptArgs, mem_emittedFlags_iff isPgoFlag_useFlags, mem_words_present,
    show (attemptArgs b).compilerFlagsExtra = effectiveFlagsExtra b from rfl,
    words_effectiveFlagsExtra, List.mem_append, List.mem_ite_nil_right, Takes, OtherProfile]
  show b.args.isMuslStatic = false ∧ (b.args.isLib32 = false ∧ _ ∨ _) ↔ _
  by_cases hm : b.args.isMuslStatic = false
  · by_cases hl : b.args.isLib32 = false
    · rw [and_iff_right hm, and_iff_right hm, and_iff_right hm, and_iff_right hl, and_iff_right hl,
        and_iff_right hl]
      exact (or_congr or_comm Iff.rfl).trans or_assoc
    · exact ⟨fun h => .inr ⟨hm, .inr (h.2.resolve_left fun h' => hl h'.1)⟩,
        fun h => ⟨hm, .inr ((h.resolve_left fun h' => hl h'.1.2.1).2.resolve_left fun h' =>
          hl h'.1)⟩⟩
  · exact iff_of_false (fun h => hm h.1) fun h => h.elim (fun h' => hm h'.1.1) fun h' => hm h'.1

theorem useFlags_noSpace (h : ∀ c ∈ P, isSpace c = false) : words (useFlags P) = [useFlags P] := by
  refine words_of_forall (List.cons_ne_nil _ _) fun c hc => ?_
  rcases List.mem_append.mp hc with hc | hc
  · have hany : "-fprofile-use=".toList.any isSpace = false := by decide
    exact Bool.eq_false_iff.mpr (List.any_eq_false.mp hany c hc)
  · exact h c hc

/-- A text with a blank is a word before it. -/
theorem exists_blank (h : ¬ ∀ c ∈ P, isSpace c = false) :
    ∃ w d rest, P = w ++ d :: rest ∧ (∀ c ∈ w, isSpace c = false) ∧ isSpace d = true := by
  induction P with
  | nil => exact absurd (fun c hc => absurd hc List.not_mem_nil) h
  | cons c P ih =>
    by_cases hc : isSpace c = true
    · exact ⟨[], c, P, rfl, fun _ h => absurd h List.not_mem_nil, hc⟩
    · rw [Bool.not_eq_true] at hc
      have hP : ¬ ∀ c ∈ P, isSpace c = false := fun hP => h (List.forall_mem_cons.mpr ⟨hc, hP⟩)
      obtain ⟨w, d, rest, rfl, hw, hd⟩ := ih hP
      exact ⟨c :: w, d, rest, rfl, List.forall_mem_cons.mpr ⟨hc, hw⟩, hd⟩

/-- A path with a blank is cut there. -/
theorem exists_cut (h : ¬ ∀ c ∈ P, isSpace c = false) :
    ∃ Q, useFlags Q ∈ words (useFlags P) ∧ Q ≠ P := by
  obtain ⟨Q, d, rest, rfl, hQ, hd⟩ := exists_blank h
  refine ⟨Q, ?_, fun heq => ?_⟩
  · have hcut : useFlags (Q ++ d :: rest) = useFlags Q ++ d :: rest :=
      (List.append_assoc _ _ _).symm
    rw [hcut, words_append_cons hd, useFlags_noSpace hQ]
    exact List.mem_append_left _ List.mem_cons_self
  · exact absurd (List.self_eq_append_right.mp heq) (List.cons_ne_nil _ _)

/-! ## The record against the build -/

/-- Each input is recorded with the value that reached the package, and only then. -/
structure RecordedAsUsed (b : Build) : Prop where
  profile : ∀ P, (resolveBuildInputs b).lookup "pgo_profile" = some P ↔
    useFlags P ∈ emittedFlags (conf b) "CFLAGS"
  gallium : ∀ v, (resolveBuildInputs b).lookup "mesa_gallium" = some v ↔
    ∃ p, (maybePatchMesaDrivers b).1 = some p ∧ p.value = v
  vulkan : ∀ v, (resolveBuildInputs b).lookup "mesa_vulkan" = some v ↔
    ∃ p, (maybePatchMesaDrivers b).2 = some p ∧ p.value = v
  targets : ∀ v, (resolveBuildInputs b).lookup "llvm_targets" = some v ↔
    ∃ p, maybePatchLlvmTargets b = some p ∧ p.value = quoted v

/-- The build takes the package's own merged profile exactly when the record names it, its path has
no blank, and no other profile reaches the compiler. -/
structure ProfileAgrees (b : Build) : Prop where
  other : ∀ P, OtherProfile b P → records b = true ∧ P = profdata b
  taken : Takes b → records b = true ∧ ∀ c ∈ profdata b, isSpace c = false
  recorded : records b = true → Takes b ∨ OtherProfile b (profdata b)

/-- The configurations and packages whose record is right: the profile agrees, and the PKGBUILD has
a place for every list that the package is given. -/
structure Agrees (b : Build) : Prop where
  profile : ProfileAgrees b
  gallium : isMesaPkgbase b.names = true → ∀ d, b.drivers = some d →
    HasDriversPlace b.pkgbuild mesaGalliumRe d.1 mesaGalliumTokens
  vulkan : isMesaPkgbase b.names = true → ∀ d, b.drivers = some d →
    HasDriversPlace (afterGallium b.pkgbuild d.1) mesaVulkanRe d.2 mesaVulkanTokens
  targets : filtersTargets b.names = true → ∀ ts, b.targets = some ts → ts ≠ [] →
    HasTargetsPlace b.template b.pkgbuild ts

theorem profile_iff : (∀ P, (resolveBuildInputs b).lookup "pgo_profile" = some P ↔
    useFlags P ∈ emittedFlags (conf b) "CFLAGS") ↔ ProfileAgrees b := by
  simp only [lookup_pgo_profile, recordedProfile_eq_some, mem_conf]
  constructor
  · intro h
    refine ⟨fun P hP => (h P).mpr (.inr hP), fun ht => ⟨?_, ?_⟩, fun hr => ?_⟩
    · by_cases hs : ∀ c ∈ profdata b, isSpace c = false
      · refine ((h (profdata b)).mpr (.inl ⟨ht, ?_⟩)).1
        rw [useFlags_noSpace hs]
        exact List.mem_cons_self
      · obtain ⟨Q, hQ, -⟩ := exists_cut hs
        exact ((h Q).mpr (.inl ⟨ht, hQ⟩)).1
    · -- the first part of a path that is cut would be recorded
      by_contra hs
      obtain ⟨Q, hQ, hne⟩ := exists_cut hs
      exact hne ((h Q).mpr (.inl ⟨ht, hQ⟩)).2
    · exact ((h (profdata b)).mp ⟨hr, rfl⟩).imp_left And.left
  · rintro ⟨hother, htaken, hrecorded⟩ P
    constructor
    · rintro ⟨hr, rfl⟩
      refine (hrecorded hr).imp_left fun ht => ⟨ht, ?_⟩
      rw [useFlags_noSpace (htaken ht).2]
      exact List.mem_cons_self
    · rintro (⟨ht, hP⟩ | hP)
      · obtain ⟨hr, hs⟩ := htaken ht
        rw [useFlags_noSpace hs, List.mem_singleton] at hP
        exact ⟨hr, useFlags_injective hP⟩
      · exact hother P hP

/-- A list of drivers is recorded where it is put exactly when it has a place. -/
theorem drivers_iff (axis : List Text × List Text → List Text)
    (patched : List Text × List Text → Option Patched) (place : List Text × List Text → Prop)
    (hp : ∀ d v, (∃ p, patched d = some p ∧ p.value = v) ↔ place d ∧ v = driversValue (axis d)) :
    (∀ v, (recordedDrivers b).map (fun d => driversValue (axis d)) = some v ↔
      ∃ p, (if isMesaPkgbase b.names then b.drivers.bind patched else none) = some p ∧
        p.value = v) ↔
      (isMesaPkgbase b.names = true → ∀ d, b.drivers = some d → place d) := by
  rw [recordedDrivers]
  by_cases hm : isMesaPkgbase b.names = true
  · rw [if_pos hm, if_pos hm]
    cases hd : b.drivers with
    | none => exact iff_of_true (fun v => iff_of_false nofun nofun) (fun _ d h => nomatch h)
    | some d =>
      rw [Option.map_some, Option.bind_some]
      constructor
      · intro h _ d' hd'
        obtain rfl := Option.some.inj hd'
        exact ((hp d _).mp ((h _).mp rfl)).1
      · intro h v
        rw [hp, and_iff_right (h hm d rfl), Option.some_inj, eq_comm]
  · rw [if_neg hm, if_neg hm]
    exact iff_of_true (fun v => iff_of_false nofun nofun) fun h => absurd h hm

theorem targets_iff : (∀ v, (resolveBuildInputs b).lookup "llvm_targets" = some v ↔
      ∃ p, maybePatchLlvmTargets b = some p ∧ p.value = quoted v) ↔
    (filtersTargets b.names = true → ∀ ts, b.targets = some ts → ts ≠ [] →
      HasTargetsPlace b.template b.pkgbuild ts) := by
  rw [lookup_llvm_targets, recordedTargets, maybePatchLlvmTargets]
  by_cases hf : filtersTargets b.names = true
  · rw [if_pos hf, if_pos hf]
    cases hts : b.targets with
    | none => exact iff_of_true (fun v => iff_of_false nofun nofun) fun _ ts h => nomatch h
    | some ts =>
      rw [Option.bind_some]
      by_cases hne : ts = []
      · subst hne
        exact iff_of_true (fun v => iff_of_false nofun nofun) fun _ ts h hn =>
          absurd (Option.some.inj h).symm hn
      · have hfilter : (some ts).filter (· ≠ []) = some ts :=
          Option.filter_eq_some_iff.mpr ⟨rfl, decide_eq_true hne⟩
        rw [hfilter, Option.map_some]
        constructor
        · rintro h - ts' hts' -
          obtain rfl := Option.some.inj hts'
          exact (patchLlvmTargets_value hne).mp ((h _).mp rfl)
        · intro h v
          have hplace := (patchLlvmTargets_value hne).mpr (h hf ts rfl hne)
          constructor
          · rintro hv
            obtain rfl := Option.some.inj hv
            exact hplace
          · rintro ⟨p, hp, hv⟩
            obtain ⟨p', hp', hv'⟩ := hplace
            obtain rfl := Option.some.inj (hp.symm.trans hp')
            exact congrArg some (quoted_injective (hv'.symm.trans hv))
  · rw [if_neg hf, if_neg hf]
    exact iff_of_true (fun v => iff_of_false nofun nofun) fun h => absurd h hf

theorem maybePatchMesaDrivers_eq : maybePatchMesaDrivers b =
    (if isMesaPkgbase b.names then b.drivers.bind fun d => (patchMesaDrivers b.pkgbuild d.1 d.2).1
      else none,
    if isMesaPkgbase b.names then b.drivers.bind fun d => (patchMesaDrivers b.pkgbuild d.1 d.2).2
      else none) := by
  rw [maybePatchMesaDrivers]
  by_cases hm : isMesaPkgbase b.names = true
  · rw [if_pos hm, if_pos hm, if_pos hm]
    cases b.drivers <;> rfl
  · rw [if_neg hm, if_neg hm, if_neg hm]

/-- **The record names what the build used** exactly when the record and the run agree on the
package's own merged profile, no other profile reaches the compiler, and the PKGBUILD has a place
for the lists that it is given. -/
theorem recordedAsUsed_iff (b : Build) : RecordedAsUsed b ↔ Agrees b := by
  have hgallium := @drivers_iff b Prod.fst (fun d => (patchMesaDrivers b.pkgbuild d.1 d.2).1)
    (fun d => HasDriversPlace b.pkgbuild mesaGalliumRe d.1 mesaGalliumTokens)
    fun d v => rewriteMesaOption_value
  have hvulkan := @drivers_iff b Prod.snd (fun d => (patchMesaDrivers b.pkgbuild d.1 d.2).2)
    (fun d => HasDriversPlace (afterGallium b.pkgbuild d.1) mesaVulkanRe d.2 mesaVulkanTokens)
    fun d v => rewriteMesaOption_value
  rw [← lookup_mesa_gallium] at hgallium
  rw [← lookup_mesa_vulkan] at hvulkan
  constructor
  · rintro ⟨hprofile, hg, hv, htargets⟩
    rw [maybePatchMesaDrivers_eq] at hg hv
    exact ⟨profile_iff.mp hprofile, hgallium.mp hg, hvulkan.mp hv, targets_iff.mp htargets⟩
  · rintro ⟨hprofile, hg, hv, htargets⟩
    refine ⟨profile_iff.mpr hprofile, ?_, ?_, targets_iff.mpr htargets⟩
    · rw [maybePatchMesaDrivers_eq]
      exact hgallium.mpr hg
    · rw [maybePatchMesaDrivers_eq]
      exact hvulkan.mpr hv

/-! ## A package of an LLVM profile -/

/-- A rebuild of a package whose profile names clang, with a merged profile of an earlier
`--pgo=use`, and no compiler in the environment. -/
def clangProfile : Build where
  names := ⟨none, ["foo".toList]⟩
  buildMode := "source_built"
  ccOverride := none
  compilerFlagsExtra := none
  pgoMode := none
  pgoReuse := true
  pgoManaged := false
  ownerStage := none
  overrideCc := none
  envCc := []
  profile := ⟨.ofItems [("CC", "clang".toList)], true⟩
  profdataPath := fun _ => "/pgo/foo/foo.profdata".toList
  store := fun _ => "/pgo/foo".toList
  isFile := fun _ => true
  toolchainProfdata := none
  python := none
  drivers := none
  targets := none
  template := some
  pkgbuild := []
  host := ⟨.empty, fun _ => true, .empty, .empty⟩
  args := {}
  attempt := ⟨.ofItems [("CC", "clang".toList)], true⟩

/-- The record names a profile that the build did not get. -/
theorem not_recordedAsUsed : ¬ RecordedAsUsed clangProfile := by
  intro h
  have hrecorded : (resolveBuildInputs clangProfile).lookup "pgo_profile" =
      some "/pgo/foo/foo.profdata".toList := by decide
  have hflags : emittedFlags (conf clangProfile) "CFLAGS" = [] := by decide
  have hused := (h.profile _).mp hrecorded
  rw [hflags] at hused
  cases hused

end Sysforge.BuildInputs
