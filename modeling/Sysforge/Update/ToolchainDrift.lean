import Sysforge.Update.VersionCheck

/-!
# Toolchain drift

Phase 4.25 of `update` compares the toolchain that a pkgbase was built under with the active one. It
takes the record of the first package that has a variant. `judgedAlike_iff` says what of a record
the comparison reads: two records are judged alike under every toolchain and every answer of the
host exactly when their stamps are the same.
-/

namespace Sysforge.ToolchainDrift

open BuildState VersionCheck

/-- `_resolve_current`: the build mode and the profile a fresh build would use. -/
structure Resolved where
  buildMode : String := "source_built"
  cc : Option String := none
  sandboxBuilds : Option Bool := none

/-- What the phase reads: the active toolchain, and the host's answers by PKGBUILD directory. -/
structure Toolchain where
  activeVariant : String
  activeFingerprint : Option String := none
  resolveCurrent : String → Option Resolved := fun _ => none
  sandboxEnabled : Bool := false
  needsRepoRust : String → Bool := fun _ => false

/-- A compiler family. -/
inductive Family
  | gcc | llvm
  deriving DecidableEq

/-- `variant_family`. -/
def variantFamily (variant : String) : Option Family :=
  if variant = "gcc" then some .gcc
  else if variant ∈ ["stock_llvm", "pgo_llvm"] then some .llvm
  else none

/-- `variant_for_compiler`. -/
def variantForCompiler (cc : Option String) : Option String :=
  let name := Text.baseName ((cc.getD "").toList.rdropWhile (· = '/'))
  if Text.contains "clang".toList name then some "stock_llvm"
  else if Text.contains "gcc".toList name || Text.contains "g++".toList name then some "gcc"
  else none

section

variable (t : Toolchain) (e : Entry)

/-- `_resolve_current` of a record. -/
def resolveCurrent : Option Resolved := (truthy e.pkgbuildDir).bind t.resolveCurrent

/-- The stage always builds on the host. -/
def hostStage : Bool := e.ownerStage = some "kernel" || e.ownerStage = some "toolchain"

/-- `_sandboxed_for`. -/
def sandboxedFor (r : Resolved) : Bool :=
  if r.buildMode = "kernel" || hostStage e then false else r.sandboxBuilds.getD t.sandboxEnabled

/-- `builds_with_repo_compiler`. -/
def buildsWithRepoCompiler : Option Bool :=
  (resolveCurrent t e).map fun r => sandboxedFor t e r && e.pkgbuildDir.any t.needsRepoRust

/-- `current_compiler`. -/
def currentCompiler : Option String := (resolveCurrent t e).bind (·.cc)

/-- The record is of a build with the repo LLVM in the sandbox. -/
def sandboxStamped : Bool :=
  "sandbox|".toList.isPrefixOf (e.toolchainFingerprint.getD "").toList

/-- The record was built with the family that the configuration picks, not the active one. -/
def keepsFamily (variant : String) : Bool :=
  (variantFamily variant).isSome && variantFamily variant ≠ variantFamily t.activeVariant &&
    (variantForCompiler (currentCompiler t e)).bind variantFamily = variantFamily variant

/-- A record of the active variant: the fingerprints differ, and both are known. -/
def fingerprintDrift (variant : String) (recorded active : Option String) :
    Option (String × String) :=
  match truthy recorded, truthy active with
  | some recorded, some active =>
    if recorded ≠ active then
      some (variant, "toolchain rebuilt since build (same variant: " ++ variant ++ ")")
    else none
  | _, _ => none

/-- What the loop decides at the first record with a variant. -/
def recordDrift (variant : String) : Option (String × String) :=
  if sandboxStamped e && buildsWithRepoCompiler t e = some true then none
  else if variant ≠ t.activeVariant then
    if keepsFamily t e variant then none
    else some (variant, "built under a different variant than active (" ++ t.activeVariant ++ ")")
  else fingerprintDrift variant e.toolchainFingerprint t.activeFingerprint

end

/-- The first record with a variant. -/
def stampedRecord (bs : BuildState) (pkgnames : List String) : Option (Entry × String) :=
  pkgnames.findSome? fun n => (bs.data.get n).bind fun e => e.toolchainVariant.map (e, ·)

/-- `_phase_toolchain_drift`, of one pkgbase. -/
def toolchainDrift (t : Toolchain) (bs : BuildState) (pkgnames : List String) :
    Option (String × String) :=
  if t.activeVariant = "system" then none
  else (stampedRecord bs pkgnames).bind fun r => recordDrift t r.1 r.2

/-! ## What of a record counts -/

/-- What the comparison reads of a record. -/
@[ext]
structure Stamp where
  variant : String
  fingerprint : Option String
  /-- where the sandbox may still build with the repo LLVM -/
  sandboxDir : Option String
  /-- where the configuration may still pick the family -/
  familyDir : Option String
  deriving DecidableEq

/-- The stamp of a record with a variant; no record is of the active variant `system`. -/
def stamp (e : Entry) (variant : String) : Stamp where
  variant
  fingerprint := if variant = "system" then none else truthy e.toolchainFingerprint
  sandboxDir := if sandboxStamped e && !hostStage e then truthy e.pkgbuildDir else none
  familyDir := if (variantFamily variant).isSome then truthy e.pkgbuildDir else none

variable {t : Toolchain} {e e' : Entry} {variant variant' d : String}

theorem truthy_eq_some {s : Option String} : truthy s = some d ↔ s = some d ∧ d ≠ "" := by
  rw [truthy, Option.filter_eq_some_iff]
  simp

theorem resolveCurrent_of_truthy (h : truthy e.pkgbuildDir = some d) :
    resolveCurrent t e = t.resolveCurrent d := by
  rw [resolveCurrent, h, Option.bind_some]

theorem sandboxDir_eq_some : (stamp e variant).sandboxDir = some d ↔
    sandboxStamped e = true ∧ hostStage e = false ∧ truthy e.pkgbuildDir = some d := by
  dsimp only [stamp]
  by_cases hc : (sandboxStamped e && !hostStage e) = true
  · rw [if_pos hc]
    rw [Bool.and_eq_true, Bool.not_eq_true'] at hc
    exact ⟨fun h => ⟨hc.1, hc.2, h⟩, fun h => h.2.2⟩
  · rw [if_neg hc]
    refine ⟨fun h => (Option.some_ne_none d h.symm).elim, fun h => (hc ?_).elim⟩
    rw [h.1, h.2.1]
    rfl

theorem familyDir_eq_some : (stamp e variant).familyDir = some d ↔
    (variantFamily variant).isSome = true ∧ truthy e.pkgbuildDir = some d := by
  dsimp only [stamp]
  by_cases hc : (variantFamily variant).isSome = true
  · rw [if_pos hc]
    exact ⟨fun h => ⟨hc, h⟩, fun h => h.2⟩
  · rw [if_neg hc]
    exact ⟨fun h => (Option.some_ne_none d h.symm).elim, fun h => (hc h.1).elim⟩

/-- The sandbox still builds with the repo LLVM only where the stamp points. -/
theorem repoCompiler_iff : (sandboxStamped e && buildsWithRepoCompiler t e = some true) = true ↔
    ∃ d r, (stamp e variant).sandboxDir = some d ∧ t.resolveCurrent d = some r ∧
      r.buildMode ≠ "kernel" ∧ r.sandboxBuilds.getD t.sandboxEnabled = true ∧
      t.needsRepoRust d = true := by
  simp only [Bool.and_eq_true, decide_eq_true_eq]
  constructor
  · rintro ⟨hs, hb⟩
    obtain ⟨r, hr, hb⟩ := Option.map_eq_some_iff.mp hb
    obtain ⟨d, hd, hr⟩ := Option.bind_eq_some_iff.mp hr
    obtain ⟨hsb, hrust⟩ := Bool.and_eq_true _ _ ▸ hb
    have hh : ¬ (decide (r.buildMode = "kernel") || hostStage e) = true := fun h => by
      rw [sandboxedFor, if_pos h] at hsb
      cases hsb
    rw [sandboxedFor, if_neg hh] at hsb
    rw [Bool.or_eq_true, not_or, decide_eq_true_eq, Bool.not_eq_true] at hh
    rw [(truthy_eq_some.mp hd).1, Option.any_some] at hrust
    exact ⟨d, r, sandboxDir_eq_some.mpr ⟨hs, hh.2, hd⟩, hr, hh.1, hsb, hrust⟩
  · rintro ⟨d, r, hd, hr, hk, hsb, hrust⟩
    obtain ⟨hs, hh, hd⟩ := sandboxDir_eq_some.mp hd
    refine ⟨hs, ?_⟩
    rw [buildsWithRepoCompiler, resolveCurrent_of_truthy hd, hr, Option.map_some, sandboxedFor,
      if_neg (by simp [hk, hh]), hsb, (truthy_eq_some.mp hd).1, Option.any_some, hrust]
    rfl

theorem keepsFamily_congr (h : (stamp e variant).familyDir = (stamp e' variant).familyDir) :
    keepsFamily t e variant = keepsFamily t e' variant := by
  dsimp only [stamp] at h
  by_cases hf : (variantFamily variant).isSome = true
  · rw [if_pos hf, if_pos hf] at h
    rw [keepsFamily, keepsFamily, currentCompiler, currentCompiler, resolveCurrent,
      resolveCurrent, h]
  · rw [Bool.not_eq_true] at hf
    rw [keepsFamily, keepsFamily, hf, Bool.false_and, Bool.false_and, Bool.false_and]

/-- Records of one stamp are judged alike. -/
theorem recordDrift_congr (h : stamp e variant = stamp e' variant')
    (ht : t.activeVariant ≠ "system") : recordDrift t e variant = recordDrift t e' variant' := by
  obtain rfl : variant = variant' := congrArg Stamp.variant h
  have hrepo : (sandboxStamped e && buildsWithRepoCompiler t e = some true) =
      (sandboxStamped e' && buildsWithRepoCompiler t e' = some true) := by
    rw [Bool.eq_iff_iff, @repoCompiler_iff t e variant, @repoCompiler_iff t e' variant, h]
  unfold recordDrift
  rw [hrepo, keepsFamily_congr (congrArg Stamp.familyDir h)]
  by_cases hv : variant = t.activeVariant
  · have hfp := congrArg Stamp.fingerprint h
    dsimp only [stamp] at hfp
    rw [if_neg (hv ▸ ht), if_neg (hv ▸ ht)] at hfp
    rw [fingerprintDrift, fingerprintDrift, hfp]
  · rw [if_pos hv, if_pos hv]

/-! ## Records that are always judged alike -/

theorem variantForCompiler_none : variantForCompiler none = none := by decide

/-- Without a compiler to compare with, the family is not kept. -/
theorem keepsFamily_of_cc_none (h : currentCompiler t e = none) :
    keepsFamily t e variant = false := by
  rw [keepsFamily, h, variantForCompiler_none, Option.bind_none]
  cases variantFamily variant with
  | none => rfl
  | some f => simp only [reduceCtorEq, decide_false, Bool.and_false]

/-- A toolchain for which only the PKGBUILD of one directory is readable. -/
def only (d active : String) (r : Resolved) : Toolchain :=
  { activeVariant := active, resolveCurrent := fun d' => if d' = d then some r else none
    needsRepoRust := fun _ => true }

theorem currentCompiler_only {active : String} {r : Resolved} (h : truthy e.pkgbuildDir ≠ some d) :
    currentCompiler (only d active r) e = none := by
  rw [currentCompiler, resolveCurrent]
  cases hd : truthy e.pkgbuildDir with
  | none => rfl
  | some d' =>
    have hne : d' ≠ d := fun heq => h (heq ▸ hd)
    rw [Option.bind_some, only]
    dsimp only
    rw [if_neg hne, Option.bind_none]

theorem of_only {d' active : String} {r r' : Resolved}
    (h : (only d active r).resolveCurrent d' = some r') : d' = d ∧ r = r' := by
  dsimp only [only] at h
  by_cases hd : d' = d
  · rw [if_pos hd] at h
    exact ⟨hd, Option.some.inj h⟩
  · rw [if_neg hd] at h
    cases h

theorem recordDrift_of_ne
    (hrepo : (sandboxStamped e && buildsWithRepoCompiler t e = some true) = false)
    (hcc : currentCompiler t e = none) (hv : variant ≠ t.activeVariant) :
    (recordDrift t e variant).isSome = true := by
  rw [recordDrift, hrepo, if_neg Bool.false_ne_true, if_pos hv, keepsFamily_of_cc_none hcc,
    if_neg Bool.false_ne_true]
  rfl

/-- The records are judged alike under every active toolchain and every answer of the host. -/
def JudgedAlike (e : Entry) (variant : String) (e' : Entry) (variant' : String) : Prop :=
  ∀ t : Toolchain, t.activeVariant ≠ "system" →
    recordDrift t e variant = recordDrift t e' variant'

theorem JudgedAlike.symm (h : JudgedAlike e variant e' variant') :
    JudgedAlike e' variant' e variant := fun t ht => (h t ht).symm

/-- The host can read no PKGBUILD. -/
theorem recordDrift_unreadable (active : String) (fp : Option String) :
    recordDrift { activeVariant := active, activeFingerprint := fp } e variant =
      if variant ≠ active then
        some (variant, "built under a different variant than active (" ++ active ++ ")")
      else fingerprintDrift variant e.toolchainFingerprint fp := by
  have hcur : resolveCurrent { activeVariant := active, activeFingerprint := fp } e = none := by
    rw [resolveCurrent]
    cases truthy e.pkgbuildDir <;> rfl
  rw [recordDrift, buildsWithRepoCompiler, hcur, keepsFamily_of_cc_none (by
    rw [currentCompiler, hcur, Option.bind_none])]
  simp only [Option.map_none, reduceCtorEq, decide_false, Bool.and_false, Bool.false_eq_true,
    if_false]

theorem fingerprintDrift_none (recorded : Option String) :
    fingerprintDrift variant recorded none = none := by
  rw [fingerprintDrift]
  cases truthy recorded <;> rfl

theorem fingerprintDrift_isSome {recorded active : Option String} :
    (fingerprintDrift variant recorded active).isSome = true ↔
      ∃ f g, truthy recorded = some f ∧ truthy active = some g ∧ f ≠ g := by
  rw [fingerprintDrift]
  cases truthy recorded with
  | none => exact ⟨fun h => absurd h Bool.false_ne_true, fun ⟨_, _, h, _⟩ =>
      (Option.some_ne_none _ h.symm).elim⟩
  | some f =>
    cases truthy active with
    | none => exact ⟨fun h => absurd h Bool.false_ne_true, fun ⟨_, _, _, h, _⟩ =>
        (Option.some_ne_none _ h.symm).elim⟩
    | some g =>
      dsimp only
      by_cases hne : f ≠ g
      · rw [if_pos hne]
        exact ⟨fun _ => ⟨f, g, rfl, rfl, hne⟩, fun _ => rfl⟩
      · rw [if_neg hne]
        refine ⟨fun h => absurd h Bool.false_ne_true, fun ⟨f', g', hf, hg, hfg⟩ => ?_⟩
        cases hf
        cases hg
        exact absurd hfg hne

theorem JudgedAlike.eq_system (h : JudgedAlike e variant e' variant') (hne : variant ≠ variant') :
    variant = "system" := by
  by_contra hs
  have h := h { activeVariant := variant, activeFingerprint := none } hs
  rw [recordDrift_unreadable, recordDrift_unreadable, if_neg (not_not_intro rfl),
    if_pos hne.symm, fingerprintDrift_none] at h
  exact Option.some_ne_none _ h.symm

theorem JudgedAlike.variant_eq (h : JudgedAlike e variant e' variant') : variant = variant' := by
  by_contra hne
  exact hne ((h.eq_system hne).trans (h.symm.eq_system (Ne.symm hne)).symm)

theorem append_x_ne (s : String) : s ++ "x" ≠ s ∧ s ++ "x" ≠ "" := by
  have hlen : (s ++ "x").length = s.length + 1 := String.length_append s "x"
  refine ⟨fun h => ?_, fun h => ?_⟩
  · rw [h] at hlen
    omega
  · rw [h] at hlen
    exact absurd hlen (Nat.succ_ne_zero _).symm

/-- A record of the active variant that has a fingerprint drifts under every other one. -/
theorem JudgedAlike.fingerprint_of_some (h : JudgedAlike e variant e' variant) {fp : String}
    (hs : variant ≠ "system") (hfp : truthy e.toolchainFingerprint = some fp) :
    truthy e'.toolchainFingerprint = some fp := by
  have hdrift : ∀ active, fingerprintDrift variant e.toolchainFingerprint active =
      fingerprintDrift variant e'.toolchainFingerprint active := by
    intro active
    have h := h { activeVariant := variant, activeFingerprint := active } hs
    rwa [recordDrift_unreadable, recordDrift_unreadable, if_neg (not_not_intro rfl),
      if_neg (not_not_intro rfl)] at h
  obtain ⟨hne, hempty⟩ := append_x_ne fp
  obtain ⟨fp', -, hfp', -⟩ := fingerprintDrift_isSome.mp (hdrift (some (fp ++ "x")) ▸
    fingerprintDrift_isSome.mpr ⟨fp, fp ++ "x", hfp, truthy_eq_some.mpr ⟨rfl, hempty⟩, hne.symm⟩)
  by_contra hc
  have hdiff : fp' ≠ fp := fun heq => hc (heq ▸ hfp')
  have hfp₀ : truthy (some fp) = some fp := truthy_eq_some.mpr ⟨rfl, (truthy_eq_some.mp hfp).2⟩
  obtain ⟨f, g, hf, hg, hfg⟩ := fingerprintDrift_isSome.mp ((hdrift (some fp)).symm ▸
    fingerprintDrift_isSome.mpr ⟨fp', fp, hfp', hfp₀, hdiff⟩)
  rw [hfp] at hf
  rw [hfp₀] at hg
  cases hf
  cases hg
  exact hfg rfl

theorem JudgedAlike.fingerprint_eq (h : JudgedAlike e variant e' variant)
    (hs : variant ≠ "system") :
    truthy e.toolchainFingerprint = truthy e'.toolchainFingerprint :=
  Option.ext fun _ => ⟨fun hfp => h.fingerprint_of_some hs hfp,
    fun hfp => h.symm.fingerprint_of_some hs hfp⟩

/-- An active variant that is not the given one. -/
def otherVariant (variant : String) : String := if variant = "gcc" then "pgo_llvm" else "gcc"

theorem otherVariant_ne : variant ≠ otherVariant variant ∧ otherVariant variant ≠ "system" := by
  rw [otherVariant]
  by_cases h : variant = "gcc"
  · rw [if_pos h, h]
    decide
  · rw [if_neg h]
    exact ⟨h, by decide⟩

theorem JudgedAlike.sandboxDir_of_some (h : JudgedAlike e variant e' variant)
    (hd : (stamp e variant).sandboxDir = some d) : (stamp e' variant).sandboxDir = some d := by
  by_contra hne
  have hdrift := h (only d (otherVariant variant) { sandboxBuilds := some true }) otherVariant_ne.2
  have hrepo : (sandboxStamped e && buildsWithRepoCompiler
      (only d (otherVariant variant) { sandboxBuilds := some true }) e = some true) = true :=
    repoCompiler_iff.mpr ⟨d, _, hd, if_pos rfl, by decide, rfl, rfl⟩
  have hsome : (recordDrift (only d (otherVariant variant) { sandboxBuilds := some true }) e'
      variant).isSome = true := by
    refine recordDrift_of_ne (Bool.eq_false_iff.mpr fun hrepo' => ?_) ?_ otherVariant_ne.1
    · obtain ⟨d', r, hd', hr, -⟩ := (@repoCompiler_iff _ e' variant).mp hrepo'
      rw [(of_only hr).1] at hd'
      exact hne hd'
    · rw [currentCompiler]
      cases hr : resolveCurrent
          (only d (otherVariant variant) { sandboxBuilds := some true }) e' with
      | none => rfl
      | some r =>
        obtain ⟨d', -, hr⟩ := Option.bind_eq_some_iff.mp hr
        rw [← (of_only hr).2, Option.bind_some]
  rw [← hdrift, recordDrift, if_pos hrepo] at hsome
  cases hsome

/-- A compiler of the family. -/
def familyCc : Family → String
  | .gcc => "gcc"
  | .llvm => "clang"

theorem variantForCompiler_familyCc (f : Family) :
    (variantForCompiler (some (familyCc f))).bind variantFamily = some f := by
  cases f <;> decide

theorem JudgedAlike.familyDir_of_some (h : JudgedAlike e variant e' variant)
    (hd : (stamp e variant).familyDir = some d) : (stamp e' variant).familyDir = some d := by
  by_contra hne
  obtain ⟨hf, hdir⟩ := familyDir_eq_some.mp hd
  obtain ⟨f, hf⟩ := Option.isSome_iff_exists.mp hf
  have hother : variantFamily "other" = none := by decide
  have hv : variant ≠
      (only d "other" { cc := some (familyCc f), sandboxBuilds := some false }).activeVariant := by
    intro hv
    rw [hv, only, hother] at hf
    cases hf
  have hdrift := h (only d "other" { cc := some (familyCc f), sandboxBuilds := some false })
    (show "other" ≠ "system" by decide)
  have hrepo : ∀ e, (sandboxStamped e && buildsWithRepoCompiler
      (only d "other" { cc := some (familyCc f), sandboxBuilds := some false }) e = some true) =
        false := by
    refine fun e => Bool.eq_false_iff.mpr fun hrepo => ?_
    obtain ⟨d', r, -, hr, -, hs, -⟩ := (@repoCompiler_iff _ e variant).mp hrepo
    rw [← (of_only hr).2] at hs
    cases hs
  have hnone : currentCompiler
      (only d "other" { cc := some (familyCc f), sandboxBuilds := some false }) e' = none :=
    currentCompiler_only fun hdir' => hne (familyDir_eq_some.mpr ⟨by rw [hf]; rfl, hdir'⟩)
  have hkeep : keepsFamily
      (only d "other" { cc := some (familyCc f), sandboxBuilds := some false }) e variant =
        true := by
    have hcc : currentCompiler
        (only d "other" { cc := some (familyCc f), sandboxBuilds := some false }) e =
          some (familyCc f) := by
      rw [currentCompiler, resolveCurrent_of_truthy hdir, only]
      dsimp only
      rw [if_pos rfl, Option.bind_some]
    rw [keepsFamily, hcc, variantForCompiler_familyCc, hf]
    simp only [only, hother, Option.isSome_some, ne_eq, reduceCtorEq, not_false_eq_true,
      decide_true, Bool.and_self]
  have hsome := recordDrift_of_ne (hrepo e') hnone hv
  rw [← hdrift, recordDrift, hrepo, if_neg Bool.false_ne_true, if_pos hv, hkeep,
    if_pos rfl] at hsome
  cases hsome

/-- **What toolchain drift reads of a record**: two records are judged alike under every toolchain
and every answer of the host exactly when they have one stamp. -/
theorem judgedAlike_iff :
    JudgedAlike e variant e' variant' ↔ stamp e variant = stamp e' variant' := by
  refine ⟨fun h => ?_, fun h t ht => recordDrift_congr h ht⟩
  obtain rfl := h.variant_eq
  have hsandbox : (stamp e variant).sandboxDir = (stamp e' variant).sandboxDir :=
    Option.ext fun _ => ⟨fun hd => h.sandboxDir_of_some hd, fun hd => h.symm.sandboxDir_of_some hd⟩
  have hfamily : (stamp e variant).familyDir = (stamp e' variant).familyDir :=
    Option.ext fun _ => ⟨fun hd => h.familyDir_of_some hd, fun hd => h.symm.familyDir_of_some hd⟩
  have hfp : (stamp e variant).fingerprint = (stamp e' variant).fingerprint := by
    dsimp only [stamp]
    by_cases hs : variant = "system"
    · rw [if_pos hs, if_pos hs]
    · rw [if_neg hs, if_neg hs, h.fingerprint_eq hs]
  exact Stamp.ext rfl hfp hsandbox hfamily

end Sysforge.ToolchainDrift
