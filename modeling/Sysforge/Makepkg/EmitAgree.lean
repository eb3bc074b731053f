import Sysforge.Makepkg.EmittedFlags

/-!
# Two emissions that write the same flags

Two builds of one package can differ in their profiles and in the compilers they are given. The
guards of `emit_makepkg_conf` only look at the effective values of the flag keys, so overrides that
agree on these keys before the guards agree on them in the conf: `lookup_emit_congr`. The pass that
preserves system tokens keeps two maps in agreement outside the keys in which they differ, provided
no other key refers to one of these: `passed_congr`.
-/

namespace Sysforge.Profile

open Text

variable {groups : ConflictGroups} {values values' : Dict String Value} {system : Dict String Text}
  {preserved : Dict String (List Text)} {touched : List String}

/-- Two maps agree outside some keys. -/
def AgreeOff (touched : List String) (m m' : Dict String Value) : Prop :=
  ∀ key ∉ touched, m.get key = m'.get key

theorem AgreeOff.symm {m m' : Dict String Value} (h : AgreeOff touched m m') :
    AgreeOff touched m' m := fun key hkey => (h key hkey).symm

theorem AgreeOff.trans {m m' m'' : Dict String Value} (h : AgreeOff touched m m')
    (h' : AgreeOff touched m' m'') : AgreeOff touched m m'' :=
  fun key hkey => (h key hkey).trans (h' key hkey)

theorem AgreeOff.refOf (h : AgreeOff touched values values') {key : String} (hkey : key ∉ touched) :
    refOf values key = refOf values' key := by
  rw [Profile.refOf, Profile.refOf, h key hkey]

/-- No key outside `touched` refers to one of these keys. -/
def RefsOff (touched : List String) (values : Dict String Value) : Prop :=
  ∀ key ∉ touched, ∀ ref, refOf values key = some ref → ref ∉ touched

theorem RefsOff.congr (h : AgreeOff touched values values') (hr : RefsOff touched values) :
    RefsOff touched values' := fun key hkey ref href =>
  hr key hkey ref ((h.refOf hkey).trans href)

/-- One key of the pass, in both maps. -/
theorem preserveKey_congr {acc acc' : Dict String Value × Dict String (List Text)} {k : String}
    (hv : AgreeOff touched values values') (hr : RefsOff touched values) (hk : k ∉ touched)
    (h : AgreeOff touched acc.1 acc'.1) :
    AgreeOff touched (preserveKey groups values system preserved acc k).1
      (preserveKey groups values' system preserved acc' k).1 := by
  intro key hkey
  by_cases hne : key = k
  · subst hne
    by_cases hskip : preserved.get key = none ∨ system.get key = none ∨
        ∀ v, acc.1.get key ≠ some (.str v)
    · rw [preserveKey_skip hskip, preserveKey_skip (by rwa [← h key hkey]), h key hkey]
    · simp only [not_or, not_forall, not_not] at hskip
      obtain ⟨hp, hs, v, hval⟩ := hskip
      obtain ⟨tokens, ht⟩ := Option.ne_none_iff_exists'.mp hp
      obtain ⟨raw, hraw⟩ := Option.ne_none_iff_exists'.mp hs
      have hbase : restoreValue groups acc.1 system (refOf values key) v raw tokens =
          restoreValue groups acc'.1 system (refOf values' key) v raw tokens := by
        rw [← hv.refOf hkey]
        cases href : refOf values key with
        | none => rfl
        | some ref => rw [restoreValue, restoreValue, baseOf_congr (h ref (hr key hkey ref href))]
      rw [preserveKey, preserveKey, ← h key hkey, hval, hraw, ht]
      dsimp only
      rw [hbase]
      split
      · rw [h key hkey]
      · rw [Dict.get_set, Dict.get_set, if_pos rfl, if_pos rfl]
  · rw [preserveKey_frame hne, preserveKey_frame hne, h key hkey]

/-- A key of `touched` changes nothing else. -/
theorem preserveKey_off {acc : Dict String Value × Dict String (List Text)} {k : String}
    (hk : k ∈ touched) :
    AgreeOff touched (preserveKey groups values system preserved acc k).1 acc.1 := by
  intro key hkey
  refine preserveKey_frame ?_
  rintro rfl
  exact hkey hk

/-- The pass over some keys, in both maps, of which the second skips `touched`. -/
theorem foldl_preserveKey_congr (hv : AgreeOff touched values values')
    (hr : RefsOff touched values) {l : List String}
    {acc acc' : Dict String Value × Dict String (List Text)}
    (h : AgreeOff touched acc.1 acc'.1) :
    AgreeOff touched (l.foldl (preserveKey groups values system preserved) acc).1
      ((l.filter fun k => k ∉ touched).foldl
        (preserveKey groups values' system preserved) acc').1 := by
  induction l generalizing acc acc' with
  | nil => exact h
  | cons k l ih =>
    by_cases hk : k ∈ touched
    · rw [List.filter_cons_of_neg (by simp [hk]), List.foldl_cons]
      exact ih ((preserveKey_off hk).trans h)
    · rw [List.filter_cons_of_pos (by simp [hk]), List.foldl_cons, List.foldl_cons]
      exact ih (preserveKey_congr hv hr hk h)

theorem preserveOrder_congr (hv : AgreeOff touched values values') :
    (preserveOrder values preserved).filter (fun k => k ∉ touched) =
      (preserveOrder values' preserved).filter fun k => k ∉ touched := by
  have hpart (f : Option String → Bool) :
      (preserved.keys.filter fun k => f (refOf values k)).filter (fun k => k ∉ touched) =
        (preserved.keys.filter fun k => f (refOf values' k)).filter fun k => k ∉ touched := by
    rw [List.filter_filter, List.filter_filter]
    refine List.filter_congr fun k _ => ?_
    by_cases hk : k ∈ touched
    · simp [hk]
    · rw [hv.refOf hk]
  rw [preserveOrder, preserveOrder, List.filter_append, List.filter_append,
    hpart Option.isNone, hpart Option.isSome]

/-- **The pass keeps two maps in agreement outside some keys that no other key refers to.** -/
theorem passed_congr (hv : AgreeOff touched values values') (hr : RefsOff touched values) :
    AgreeOff touched (passed groups values system preserved)
      (passed groups values' system preserved) := by
  refine (foldl_preserveKey_congr hv hr (fun _ _ => rfl) : AgreeOff touched _
    ((List.filter (fun k => k ∉ touched) (preserveOrder values preserved)).foldl
      (preserveKey groups values' system preserved) (values, .empty)).1).trans ?_
  rw [preserveOrder_congr hv]
  exact (foldl_preserveKey_congr (fun _ _ => rfl) (hr.congr hv) hv.symm).symm

end Sysforge.Profile

namespace Sysforge.EmitConf

open Text Profile Flags

/-- The keys of the conf that carry flags and switch LTO. -/
def ltoKeys : List String := flagKeys ++ ["LTOFLAGS", "OPTIONS"]

/-- The overrides agree on these keys. -/
def Agree (ov ov' : Overrides) : Prop := ∀ key ∈ ltoKeys, ov.get key = ov'.get key

section Agree

variable {host : Host} {args : Args} {ov ov' : Overrides} {f : Text → Option Text} {key : String}
  {keys : List String}

theorem Agree.effective (h : Agree ov ov') (hkey : key ∈ ltoKeys) :
    effective host ov key = effective host ov' key := by
  unfold EmitConf.effective
  rw [h key hkey]

theorem Agree.set (h : Agree ov ov') (v : Text) : Agree (ov.set key v) (ov'.set key v) := by
  intro k hk
  rw [Dict.get_set, Dict.get_set, h k hk]

theorem Agree.rewrite (h : Agree ov ov') (hkeys : ∀ key ∈ keys, key ∈ ltoKeys) :
    Agree (rewrite host f ov keys) (rewrite host f ov' keys) := by
  induction keys generalizing ov ov' with
  | nil => exact h
  | cons key keys ih =>
    have hrest : ∀ k ∈ keys, k ∈ ltoKeys := fun k hk => hkeys k (List.mem_cons_of_mem _ hk)
    refine @ih (rewrite host f ov [key]) (rewrite host f ov' [key]) ?_ hrest
    simp only [EmitConf.rewrite, List.foldl_cons, List.foldl_nil]
    rw [h.effective (hkeys key List.mem_cons_self)]
    cases (EmitConf.effective host ov' key).bind f with
    | none => exact h
    | some v => exact h.set v

theorem mem_ltoKeys_of_flagKeys (h : key ∈ flagKeys) : key ∈ ltoKeys := List.mem_append_left _ h

/-- A rewriting of the flags of compilers and linker. -/
theorem Agree.rewrite_flags (h : Agree ov ov') (f : Text → Option Text) :
    Agree (EmitConf.rewrite host f ov flagKeys) (EmitConf.rewrite host f ov' flagKeys) :=
  h.rewrite fun _ => mem_ltoKeys_of_flagKeys

theorem Agree.rewriteOwn (h : Agree ov ov') (hkeys : ∀ key ∈ keys, key ∈ ltoKeys) :
    Agree (rewriteOwn f ov keys) (rewriteOwn f ov' keys) := by
  induction keys generalizing ov ov' with
  | nil => exact h
  | cons key keys ih =>
    have hrest : ∀ k ∈ keys, k ∈ ltoKeys := fun k hk => hkeys k (List.mem_cons_of_mem _ hk)
    refine @ih (rewriteOwn f ov [key]) (rewriteOwn f ov' [key]) ?_ hrest
    simp only [EmitConf.rewriteOwn, List.foldl_cons, List.foldl_nil]
    rw [h key (hkeys key List.mem_cons_self)]
    cases (ov'.get key).bind f with
    | none => exact h
    | some v => exact h.set v

/-- A rewriting of another key changes nothing here. -/
theorem Agree.rewriteOwn_off (h : Agree ov ov') (hkey : key ∉ ltoKeys) :
    Agree (EmitConf.rewriteOwn f ov [key]) (EmitConf.rewriteOwn f ov' [key]) := by
  intro k hk
  have hne : k ≠ key := fun heq => hkey (heq ▸ hk)
  rw [get_rewriteOwn_single, get_rewriteOwn_single, if_neg hne, if_neg hne, h k hk]

theorem Agree.effectiveLinker (h : Agree ov ov') :
    effectiveLinker host ov = effectiveLinker host ov' := by
  unfold EmitConf.effectiveLinker
  rw [h "LDFLAGS" (by decide)]

theorem Agree.guardLinker (h : Agree ov ov') {linker : Text} :
    Agree (guardLinker host linker ov) (guardLinker host linker ov') := by
  unfold EmitConf.guardLinker
  rw [h.effective (by decide)]
  by_cases hn : (EmitConf.effective host ov' "LDFLAGS").isNone = true
  · rw [if_pos hn, if_pos hn]
    exact h
  · rw [if_neg hn, if_neg hn]
    refine Agree.rewriteOwn_off ?_ (by decide)
    by_cases hl : linker = "lld".toList
    · rw [if_pos hl, if_pos hl]
      exact h
    · rw [if_neg hl, if_neg hl]
      exact h.rewrite (by decide)

theorem Agree.guardGcc (h : Agree ov ov') {args' : Args} {p p' : Resolved} {linker : Text}
    (hgcc : isGcc args p = isGcc args' p') :
    Agree (guardGcc host args p linker ov) (guardGcc host args' p' linker ov') := by
  unfold EmitConf.guardGcc
  rw [hgcc]
  dsimp only
  have hthin : Agree (EmitConf.rewrite host unthin ov ("LTOFLAGS" :: flagKeys))
      (EmitConf.rewrite host unthin ov' ("LTOFLAGS" :: flagKeys)) := h.rewrite (by decide)
  by_cases hg : (!isGcc args' p') = true
  · rw [if_pos hg, if_pos hg]
    exact h
  · rw [if_neg hg, if_neg hg]
    by_cases hl : linker ≠ "lld".toList
    · rw [if_pos hl, if_pos hl]
      exact hthin
    · rw [if_neg hl, if_neg hl]
      have hoff : Agree (Dict.set _ "LTOFLAGS" []) (Dict.set _ "LTOFLAGS" []) := hthin.set []
      have hfull := @Agree.rewrite_flags host _ _ hoff (dropped Flags.stripFullLto)
      rw [hfull "OPTIONS" (by decide)]
      split
      · exact hfull
      · exact hfull.set _

theorem Agree.guardPass (h : Agree ov ov') :
    Agree (guardPass host args ov) (guardPass host args ov') := by
  unfold EmitConf.guardPass
  by_cases hs : args.stripFullLto = true
  · rw [if_pos hs, if_pos hs]
    exact (h.rewrite_flags _).set []
  · rw [if_neg hs, if_neg hs]
    exact h

theorem Agree.guardNoLto (h : Agree ov ov') :
    Agree (guardNoLto host args ov) (guardNoLto host args ov') := by
  unfold EmitConf.guardNoLto
  by_cases ho : optionsListDisabled args.pkgbuildOptions "lto".toList = true
  · rw [if_pos ho, if_pos ho]
    have hr := @Agree.rewrite_flags host _ _ h (dropped stripAllLto)
    dsimp only
    rw [hr.effective (by decide)]
    split
    · exact hr.set []
    · exact hr
  · rw [if_neg ho, if_neg ho]
    exact h

theorem Agree.injectInto (h : Agree ov ov') {extra : Text} (hkey : key ∈ ltoKeys) :
    Agree (injectInto host extra ov key) (injectInto host extra ov' key) := by
  unfold EmitConf.injectInto
  rw [h.effective hkey]
  dsimp only
  split
  · exact h
  · exact h.set _

theorem Agree.injectCompiler (h : Agree ov ov') {args' : Args}
    (hx : args.compilerFlagsExtra = args'.compilerFlagsExtra) :
    Agree (injectCompiler host args ov) (injectCompiler host args' ov') := by
  unfold EmitConf.injectCompiler
  rw [hx]
  cases present args'.compilerFlagsExtra with
  | none => exact h
  | some extra =>
    simp only [flagKeys, List.foldl_cons, List.foldl_nil]
    exact ((h.injectInto (by decide)).injectInto (by decide)).injectInto (by decide)

theorem Agree.injectLinkerFlags (h : Agree ov ov') :
    Agree (injectLinkerFlags host args ov) (injectLinkerFlags host args ov') := by
  unfold EmitConf.injectLinkerFlags
  cases present args.linkerFlagsExtra with
  | none => exact h
  | some extra =>
    dsimp only
    rw [h.effective (by decide)]
    exact h.set _

theorem Agree.guardLib32 (h : Agree ov ov') : Agree (guardLib32 args ov) (guardLib32 args ov') := by
  unfold EmitConf.guardLib32
  by_cases hl : args.isLib32 = true
  · rw [if_pos hl, if_pos hl]
    exact ((h.rewriteOwn (by decide)).rewriteOwn (by decide)).rewriteOwn
      fun _ => mem_ltoKeys_of_flagKeys
  · rw [if_neg hl, if_neg hl]
    exact h

theorem Agree.guardMusl (h : Agree ov ov') :
    Agree (guardMusl host args ov) (guardMusl host args ov') := by
  unfold EmitConf.guardMusl
  by_cases hm : args.isMuslStatic = true
  · rw [if_pos hm, if_pos hm]
    exact (h.rewrite (by decide)).rewrite_flags _
  · rw [if_neg hm, if_neg hm]
    exact h

end Agree

section Conf

variable {host : Host} {args args' : Args} {p p' : Resolved} {key : String}

/-- The overrides before the guards. -/
def unguarded (host : Host) (args : Args) (p : Resolved) : Overrides :=
  overrideLinker host args (overrideCompilers args (capJobs host args
    (preserve host p (written args p))))

/-- The arguments that the guards and the injection of flags read, the compiler apart, are equal. -/
structure SameArgs (args args' : Args) : Prop where
  compilerFlagsExtra : args.compilerFlagsExtra = args'.compilerFlagsExtra
  linkerFlagsExtra : args.linkerFlagsExtra = args'.linkerFlagsExtra
  stripFullLto : args.stripFullLto = args'.stripFullLto
  isLib32 : args.isLib32 = args'.isLib32
  isMuslStatic : args.isMuslStatic = args'.isMuslStatic
  pkgbuildOptions : args.pkgbuildOptions = args'.pkgbuildOptions

theorem agree_overrides (ha : SameArgs args args') (hgcc : isGcc args p = isGcc args' p')
    (h : Agree (unguarded host args p) (unguarded host args' p')) :
    Agree (overrides host args p) (overrides host args' p') := by
  have hpass {ov : Overrides} : guardPass host args ov = guardPass host args' ov := by
    unfold guardPass
    rw [ha.stripFullLto]
  have hno {ov : Overrides} : guardNoLto host args ov = guardNoLto host args' ov := by
    unfold guardNoLto
    rw [ha.pkgbuildOptions]
  have hld {ov : Overrides} : injectLinkerFlags host args ov = injectLinkerFlags host args' ov := by
    unfold injectLinkerFlags
    rw [ha.linkerFlagsExtra]
  have hlib {ov : Overrides} : guardLib32 args ov = guardLib32 args' ov := by
    unfold guardLib32
    rw [ha.isLib32]
  have hmusl {ov : Overrides} : guardMusl host args ov = guardMusl host args' ov := by
    unfold guardMusl
    rw [ha.isMuslStatic]
  have hguarded : Agree (guarded host args p) (guarded host args' p') := by
    change Agree (guardNoLto host args (guardPass host args (guardGcc host args p
        (effectiveLinker host (unguarded host args p))
        (guardLinker host (effectiveLinker host (unguarded host args p)) (unguarded host args p)))))
      (guardNoLto host args' (guardPass host args' (guardGcc host args' p'
        (effectiveLinker host (unguarded host args' p'))
        (guardLinker host (effectiveLinker host (unguarded host args' p'))
          (unguarded host args' p')))))
    rw [hno, hpass, h.effectiveLinker]
    exact ((h.guardLinker.guardGcc hgcc).guardPass).guardNoLto
  unfold overrides
  rw [hmusl, hlib, hld]
  exact ((hguarded.injectCompiler ha.compilerFlagsExtra).injectLinkerFlags.guardLib32).guardMusl

/-- **Builds whose overrides agree before the guards write the same flags.** -/
theorem lookup_emit_congr (ha : SameArgs args args') (hgcc : isGcc args p = isGcc args' p')
    (h : Agree (unguarded host args p) (unguarded host args' p')) (hkey : key ∈ ltoKeys) :
    (emitMakepkgConf host args p).lookup key = (emitMakepkgConf host args' p').lookup key := by
  have hown : key ∉ envKeys ++ toolchainKeys := by
    have hall : ∀ k ∈ ltoKeys, k ∉ envKeys ++ toolchainKeys := by decide
    exact hall key hkey
  have hov := agree_overrides ha hgcc h key hkey
  rw [lookup_emitMakepkgConf hown, lookup_emitMakepkgConf hown, hov]
  have hline : systemLine args (overrides host args p) key =
      systemLine args' (overrides host args' p') key := by
    funext raw
    unfold systemLine
    rw [hov, ha.isLib32]
  rw [hline]

end Conf

end Sysforge.EmitConf
