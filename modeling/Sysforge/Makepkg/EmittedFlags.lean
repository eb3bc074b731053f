import Sysforge.Makepkg.EmitConf

/-!
# Which profile flags reach the compiler

The flags that a build injects go through the guards of a lib32 and of a static musl package before
they are written. For a profile flag this says exactly when the `CFLAGS` of the emitted conf carry
it: `mem_emittedFlags_iff`. Each step of the emission has one lemma about the effective value of a
key.
-/

namespace Sysforge.EmitConf

open Text Profile Flags

theorem words_append (base extra : Text) : words (append base extra) = words base ++ words extra := by
  rw [append, words_strip, words_append_cons (by decide)]

/-! ## The steps -/

section Steps

variable {host : Host} {args : Args} {p : Resolved} {ov : Overrides} {f : Text → Option Text}
  {key k : String} {keys : List String} {t : Text}

theorem effective_set (v : Text) :
    effective host (ov.set k v) key = if key = k then some v else effective host ov key := by
  unfold effective
  rw [Dict.get_set]
  by_cases h : key = k
  · rw [if_pos h, if_pos h, Option.some_or]
  · rw [if_neg h, if_neg h]

/-- One key of a rewriting. -/
theorem effective_rewrite_single : effective host (rewrite host f ov [k]) key =
    if key = k then (effective host ov k).map fun v => (f v).getD v else effective host ov key := by
  simp only [rewrite, List.foldl_cons, List.foldl_nil]
  cases he : effective host ov k with
  | none =>
    simp only [Option.bind_none, Option.map_none]
    by_cases h : key = k
    · rw [if_pos h, h, he]
    · rw [if_neg h]
  | some v =>
    simp only [Option.bind_some, Option.map_some]
    cases hf : f v with
    | none =>
      by_cases h : key = k
      · rw [if_pos h, h, he, Option.getD_none]
      · rw [if_neg h]
    | some w => rw [effective_set, Option.getD_some]

theorem effective_rewrite (hk : keys.Nodup) : effective host (rewrite host f ov keys) key =
    if key ∈ keys then (effective host ov key).map fun v => (f v).getD v
    else effective host ov key := by
  induction keys generalizing ov with
  | nil => rw [if_neg List.not_mem_nil]; rfl
  | cons k keys ih =>
    obtain ⟨hnot, hk⟩ := List.nodup_cons.mp hk
    have hstep : rewrite host f ov (k :: keys) = rewrite host f (rewrite host f ov [k]) keys := rfl
    rw [hstep, ih hk, effective_rewrite_single]
    by_cases h : key = k
    · subst h
      rw [if_neg hnot, if_pos rfl, if_pos List.mem_cons_self]
    · rw [if_neg h]
      by_cases hmem : key ∈ keys
      · rw [if_pos hmem, if_pos (List.mem_cons_of_mem _ hmem)]
      · rw [if_neg hmem, if_neg (List.not_mem_cons_of_ne_of_not_mem h hmem)]

theorem get_rewriteOwn_single : (rewriteOwn f ov [k]).get key =
    if key = k then (ov.get k).map fun v => (f v).getD v else ov.get key := by
  simp only [rewriteOwn, List.foldl_cons, List.foldl_nil]
  cases he : ov.get k with
  | none =>
    simp only [Option.bind_none, Option.map_none]
    by_cases h : key = k
    · rw [if_pos h, h, he]
    · rw [if_neg h]
  | some v =>
    simp only [Option.bind_some, Option.map_some]
    cases hf : f v with
    | none =>
      by_cases h : key = k
      · rw [if_pos h, h, he, Option.getD_none]
      · rw [if_neg h]
    | some w => rw [Dict.get_set, Option.getD_some]

theorem get_rewriteOwn (hk : keys.Nodup) : (rewriteOwn f ov keys).get key =
    if key ∈ keys then (ov.get key).map fun v => (f v).getD v else ov.get key := by
  induction keys generalizing ov with
  | nil => rw [if_neg List.not_mem_nil]; rfl
  | cons k keys ih =>
    obtain ⟨hnot, hk⟩ := List.nodup_cons.mp hk
    have hstep : rewriteOwn f ov (k :: keys) = rewriteOwn f (rewriteOwn f ov [k]) keys := rfl
    rw [hstep, ih hk, get_rewriteOwn_single]
    by_cases h : key = k
    · subst h
      rw [if_neg hnot, if_pos rfl, if_pos List.mem_cons_self]
    · rw [if_neg h]
      by_cases hmem : key ∈ keys
      · rw [if_pos hmem, if_pos (List.mem_cons_of_mem _ hmem)]
      · rw [if_neg hmem, if_neg (List.not_mem_cons_of_ne_of_not_mem h hmem)]

theorem nodup_flagKeys : flagKeys.Nodup := by decide

/-- The effective `CFLAGS` carry a token. -/
def Carries (host : Host) (ov : Overrides) (t : Text) : Prop :=
  ∃ v, effective host ov "CFLAGS" = some v ∧ t ∈ words v

theorem Carries.congr {ov' : Overrides} (h : ov'.get "CFLAGS" = ov.get "CFLAGS") :
    Carries host ov' t ↔ Carries host ov t := by
  unfold Carries effective
  rw [h]

theorem get_injectInto_of_ne {extra : Text} (h : key ≠ k) :
    (injectInto host extra ov k).get key = ov.get key := by
  unfold injectInto
  dsimp only
  split_ifs with hc
  · rfl
  · rw [Dict.get_set, if_neg h]

theorem get_injectCompiler : (injectCompiler host args ov).get "CFLAGS" =
    match present args.compilerFlagsExtra with
    | some extra => some (append ((effective host ov "CFLAGS").getD []) extra)
    | none => ov.get "CFLAGS" := by
  unfold injectCompiler
  cases present args.compilerFlagsExtra with
  | none => rfl
  | some extra =>
    simp only [flagKeys, List.foldl_cons, List.foldl_nil]
    rw [get_injectInto_of_ne (by decide), get_injectInto_of_ne (by decide)]
    unfold injectInto
    dsimp only
    rw [if_neg (fun h => absurd h.1 (by decide)), Dict.get_set, if_pos rfl]

theorem get_injectLinkerFlags :
    (injectLinkerFlags host args ov).get "CFLAGS" = ov.get "CFLAGS" := by
  unfold injectLinkerFlags
  cases present args.linkerFlagsExtra with
  | none => rfl
  | some extra => rw [Dict.get_set, if_neg (by decide)]

theorem get_guardLib32 : (guardLib32 args ov).get "CFLAGS" =
    if args.isLib32 then (ov.get "CFLAGS").map fun v =>
      let v := (dropped scrubLib32ArchFlags v).getD v
      (dropped stripPgoFlags v).getD v
    else ov.get "CFLAGS" := by
  unfold guardLib32
  by_cases h : args.isLib32 = true
  · rw [if_pos h, if_pos h, get_rewriteOwn nodup_flagKeys, if_pos (by decide),
      get_rewriteOwn (List.nodup_singleton _), if_neg (by decide), get_rewriteOwn (by decide),
      if_pos (by decide), Option.map_map]
    rfl
  · rw [if_neg h, if_neg h]

/-- A lib32 package drops the profile flags of `CFLAGS` that are an override. -/
theorem carries_guardLib32 (ht : isPgoFlag t = true) : Carries host (guardLib32 args ov) t ↔
    Carries host ov t ∧ (args.isLib32 = true → ov.get "CFLAGS" = none) := by
  have hget : (guardLib32 args ov).get "CFLAGS" = _ := get_guardLib32
  by_cases h : args.isLib32 = true
  · rw [if_pos h] at hget
    cases hv : ov.get "CFLAGS" with
    | none =>
      rw [hv, Option.map_none] at hget
      rw [Carries.congr (hget.trans hv.symm)]
      exact (and_iff_left fun _ => rfl).symm
    | some v =>
      rw [hv, Option.map_some] at hget
      refine iff_of_false ?_ fun hc => Option.some_ne_none _ (hc.2 h)
      rintro ⟨w, hw, htw⟩
      unfold effective at hw
      rw [hget, Option.some_or] at hw
      have heq := Option.some.inj hw
      rw [← heq] at htw
      exact absurd ht (Bool.eq_false_iff.mp (mem_words_dropped.mp htw).2)
  · rw [if_neg h] at hget
    rw [Carries.congr hget]
    exact (and_iff_left fun hl => absurd hl h).symm

/-- A static musl package drops the profile flags. -/
theorem carries_guardMusl (ht : isPgoFlag t = true) : Carries host (guardMusl host args ov) t ↔
    Carries host ov t ∧ args.isMuslStatic = false := by
  unfold guardMusl
  by_cases h : args.isMuslStatic = true
  · rw [if_pos h]
    refine iff_of_false ?_ fun hc => absurd h (Bool.eq_false_iff.mp hc.2)
    rintro ⟨w, hw, htw⟩
    rw [effective_rewrite nodup_flagKeys, if_pos (by decide)] at hw
    obtain ⟨v, -, rfl⟩ := Option.map_eq_some_iff.mp hw
    exact absurd ht (Bool.eq_false_iff.mp (mem_words_dropped.mp htw).2)
  · rw [if_neg h]
    exact (and_iff_left (Bool.eq_false_iff.mpr h)).symm

theorem carries_injectCompiler : Carries host (injectCompiler host args ov) t ↔
    Carries host ov t ∨ ∃ extra, present args.compilerFlagsExtra = some extra ∧ t ∈ words extra := by
  have hget : (injectCompiler host args ov).get "CFLAGS" = _ := get_injectCompiler
  cases he : present args.compilerFlagsExtra with
  | none =>
    rw [he] at hget
    rw [Carries.congr hget]
    exact (or_iff_left (by rintro ⟨_, h, -⟩; cases h)).symm
  | some extra =>
    rw [he] at hget
    dsimp only at hget
    have heff : effective host (injectCompiler host args ov) "CFLAGS" =
        some (append ((effective host ov "CFLAGS").getD []) extra) := by
      unfold effective at hget ⊢
      rw [hget, Option.some_or]
    constructor
    · rintro ⟨v, hv, ht⟩
      obtain rfl := Option.some.inj (heff.symm.trans hv)
      rw [words_append, List.mem_append] at ht
      rcases ht with ht | ht
      · cases hb : effective host ov "CFLAGS" with
        | none => rw [hb] at ht; exact absurd ht List.not_mem_nil
        | some b => rw [hb] at ht; exact .inl ⟨b, hb, ht⟩
      · exact .inr ⟨extra, rfl, ht⟩
    · intro h
      refine ⟨_, heff, ?_⟩
      rw [words_append, List.mem_append]
      rcases h with ⟨b, hb, ht⟩ | ⟨e, he', ht⟩
      · rw [hb]
        exact .inl ht
      · obtain rfl := Option.some.inj he'
        exact .inr ht

end Steps

/-! ## The conf -/

section Conf

variable {host : Host} {args : Args} {p : Resolved} {ov : Overrides} {key : String} {t v : Text}

/-- The flags that the conf assigns to a key. -/
def emittedFlags (conf : List (String × Text)) (key : String) : List Text :=
  words (unquoteConfValue ((conf.lookup key).getD []))

theorem lookup_systemPart : (systemPart host args ov).lookup key =
    (host.systemAssignments.get key).bind (systemLine args ov key) := by
  have hnodup : (Assoc.keys (host.systemAssignments.items.map fun p =>
      (p.1, systemLine args ov p.1 p.2))).Nodup := by
    rw [Assoc.keys_map]
    exact host.systemAssignments.nodup
  have h := Assoc.lookup_filterMap (fun raw : Text => raw) hnodup key
  rw [Assoc.lookup_map (fun k raw => systemLine args ov k raw)] at h
  refine h.trans ?_
  unfold Dict.get
  cases host.systemAssignments.items.lookup key with
  | none => rfl
  | some raw =>
    rw [Option.map_some, Option.join_some, Option.bind_some]
    exact Option.map_id'

theorem lookup_newPart : (newPart host ov).lookup key =
    if key ∈ host.systemAssignments.keys then none else (ov.get key).map quote := by
  have h := Assoc.lookup_map (fun (_ : String) raw => quote raw)
    (ov.items.filter fun p => p.1 ∉ host.systemAssignments.keys) key
  refine h.trans ?_
  have hf := Dict.get_filter ov (fun k _ => k ∉ host.systemAssignments.keys) key
  refine (congrArg (Option.map quote) hf).trans ?_
  by_cases hk : key ∈ host.systemAssignments.keys
  · rw [if_pos hk, decide_eq_false (not_not_intro hk)]
    cases ov.get key <;> rfl
  · rw [if_neg hk, decide_eq_true hk]
    cases ov.get key <;> rfl

/-- What is assigned to a key that is no variable of the environment. -/
theorem lookup_emitMakepkgConf (hkey : key ∉ envKeys ++ toolchainKeys) :
    (emitMakepkgConf host args p).lookup key =
      match (overrides host args p).get key with
      | some v => some (quote v)
      | none => (host.systemAssignments.get key).bind
          (systemLine args (overrides host args p) key) := by
  rw [emitMakepkgConf, List.lookup_append, lookup_systemPart, lookup_newPart]
  cases hs : host.systemAssignments.get key with
  | none =>
    rw [if_neg (Dict.get_eq_none.mp hs)]
    cases (overrides host args p).get key <;> rfl
  | some raw =>
    have hmem : key ∈ host.systemAssignments.keys := by
      by_contra hnot
      rw [Dict.get_eq_none.mpr hnot] at hs
      cases hs
    rw [if_pos hmem, Option.or_none, Option.bind_some]
    unfold systemLine
    rw [if_neg hkey]
    cases (overrides host args p).get key <;> rfl

theorem unquote_quoted (v : Text) : unquoteConfValue ('"' :: v ++ ['"']) = v := by
  have hlast : ('"' :: v ++ ['"']).getLast? = some '"' := by
    rw [List.getLast?_append_of_ne_nil _ (List.cons_ne_nil _ _)]
    rfl
  have hstrip : strip ('"' :: v ++ ['"']) = '"' :: v ++ ['"'] := by
    refine strip_eq_self_of (fun c hc => ?_) fun c hc => ?_
    · obtain rfl := Option.some.inj (Option.mem_def.mp hc)
      decide
    · rw [hlast] at hc
      obtain rfl := Option.some.inj (Option.mem_def.mp hc)
      decide
  unfold unquoteConfValue
  dsimp only
  rw [hstrip, if_pos ⟨by simp, rfl, hlast⟩, List.cons_append, List.tail_cons, List.dropLast_concat]

theorem words_unquote_quote (v : Text) : words (unquoteConfValue (quote v)) = words v := by
  unfold quote
  by_cases h : v.head? = some '('
  · rw [if_pos h]
    unfold unquoteConfValue
    dsimp only
    rw [if_neg, words_strip]
    rintro ⟨-, hq, -⟩
    obtain ⟨rest, rfl⟩ : ∃ rest, v = '(' :: rest := by
      cases v with
      | nil => cases h
      | cons c rest => exact ⟨rest, congrArg (· :: rest) (Option.some.inj h)⟩
    obtain ⟨tail, htail⟩ : strip ('(' :: rest) <+: '(' :: rest := by
      rw [strip_eq, List.dropWhile_cons_of_neg (by decide)]
      exact List.rdropWhile_prefix _ _
    cases hs : strip ('(' :: rest) with
    | nil => rw [hs] at hq; cases hq
    | cons c s =>
      rw [hs] at hq htail
      obtain rfl := Option.some.inj hq
      exact absurd (List.cons.inj htail).1 (by decide)
  · rw [if_neg h, unquote_quoted]

theorem scrub_keeps_pgoFlag (ht : isPgoFlag t = true) : decide (t ∈ lib32InvalidMarch) = false := by
  rw [decide_eq_false_iff_not]
  intro hmem
  have hall : ∀ u ∈ lib32InvalidMarch, isPgoFlag u = false := by decide
  exact absurd ht (Bool.eq_false_iff.mp (hall t hmem))

/-- The scrub of a system value that passes through keeps the profile flags. -/
theorem mem_words_systemLine (ht : isPgoFlag t = true) (ho : ov.get "CFLAGS" = none) (raw : Text) :
    t ∈ words (unquoteConfValue ((systemLine args ov "CFLAGS" raw).getD [])) ↔
      t ∈ words (unquoteConfValue raw) := by
  unfold systemLine
  rw [if_neg (by decide), ho]
  dsimp only
  split_ifs with hc hl
  · rw [Option.getD_some, unquote_quoted]
    refine mem_words_stripTokens.trans (and_iff_left ?_)
    exact scrub_keeps_pgoFlag ht
  · exact absurd hl.2.1 (by decide)
  · rw [Option.getD_some]

/-- A profile flag of the effective `CFLAGS` is one of the emitted conf. -/
theorem mem_emittedFlags (ht : isPgoFlag t = true) :
    t ∈ emittedFlags (emitMakepkgConf host args p) "CFLAGS" ↔
      Carries host (overrides host args p) t := by
  unfold emittedFlags Carries effective
  rw [lookup_emitMakepkgConf (by decide)]
  cases ho : (overrides host args p).get "CFLAGS" with
  | some v =>
    dsimp only
    rw [Option.getD_some, words_unquote_quote, Option.some_or]
    exact ⟨fun h => ⟨v, rfl, h⟩, fun ⟨w, hw, h⟩ => Option.some.inj hw ▸ h⟩
  | none =>
    dsimp only
    rw [Option.none_or]
    cases hs : host.systemAssignments.get "CFLAGS" with
    | none =>
      rw [Option.bind_none, Option.getD_none, Option.map_none]
      exact iff_of_false List.not_mem_nil fun ⟨w, hw, _⟩ => Option.some_ne_none w hw.symm
    | some raw =>
      rw [Option.bind_some, Option.map_some]
      refine (mem_words_systemLine ht ho raw).trans ?_
      exact ⟨fun h => ⟨_, rfl, h⟩, fun ⟨w, hw, h⟩ => (Option.some.inj hw) ▸ h⟩

/-- The `CFLAGS` that the configuration gives a build carry the flag, and it is not dropped. -/
def OwnFlag (host : Host) (args : Args) (p : Resolved) (t : Text) : Prop :=
  Carries host (guarded host args p) t ∧
    (args.isLib32 = true →
      (guarded host args p).get "CFLAGS" = none ∧ present args.compilerFlagsExtra = none)

/-- **A profile flag is among the emitted `CFLAGS` iff it was injected, and the package is not
lib32, or the configuration has it; and the package is not static musl.** -/
theorem mem_emittedFlags_iff (ht : isPgoFlag t = true) :
    t ∈ emittedFlags (emitMakepkgConf host args p) "CFLAGS" ↔ args.isMuslStatic = false ∧
      ((args.isLib32 = false ∧
        ∃ extra, present args.compilerFlagsExtra = some extra ∧ t ∈ words extra) ∨
        OwnFlag host args p t) := by
  rw [mem_emittedFlags ht, overrides, carries_guardMusl ht, carries_guardLib32 ht,
    Carries.congr get_injectLinkerFlags, get_injectLinkerFlags, carries_injectCompiler,
    get_injectCompiler, and_comm]
  refine and_congr_right fun _ => ?_
  cases hx : present args.compilerFlagsExtra with
  | none =>
    have hno : ¬ ∃ extra, (none : Option Text) = some extra ∧ t ∈ words extra := by
      rintro ⟨_, h, -⟩
      cases h
    rw [or_iff_left hno, or_iff_right fun h => hno h.2]
    unfold OwnFlag
    exact and_congr_right fun _ => forall_congr' fun _ => (and_iff_left hx).symm
  | some extra =>
    have hset (v : Option Text) : ¬ (v = none ∧ present args.compilerFlagsExtra = none) :=
      fun h => Option.some_ne_none extra (hx.symm.trans h.2)
    by_cases hl : args.isLib32 = true
    · refine iff_of_false (fun h => Option.some_ne_none _ (h.2 hl)) ?_
      rintro (h | h)
      · exact absurd hl (Bool.eq_false_iff.mp h.1)
      · exact hset _ (h.2 hl)
    · have hown : OwnFlag host args p t ↔ Carries host (guarded host args p) t :=
        and_iff_left fun h => absurd h hl
      rw [and_iff_left fun h => absurd h hl, and_iff_right (Bool.eq_false_iff.mpr hl), hown, or_comm]

end Conf

end Sysforge.EmitConf
