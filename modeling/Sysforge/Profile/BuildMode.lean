import Mathlib.Data.List.TakeWhile
import Sysforge.Profile.Extracted

/-!
# The build mode

`get_build_mode` reads the build mode of a package off the `extends` chain of its profile without
resolving the profile: the first profile of the chain that sets it decides. The resolved profile has
the appends of the chain merged on, and what the splice of the extracted profile puts below:
`buildMode_iff` says when the two agree.
-/

namespace Sysforge.Profile

/-! ## The code -/

/-- The key of the build mode. -/
def modeKey : String := "build_mode"

/-- `_REMOVED_BUILD_MODE`. -/
def removedBuildMode : Value := .str "patched_pkgbuild".toList

/-- The error for the removed mode. -/
def removedMessage : String :=
  "profiles.toml: build_mode = 'patched_pkgbuild' was removed in 4.0.0. " ++
    "Change it to build_mode = \"source_built\"."

/-- `normalize_build_mode`. -/
def normalizeBuildMode (mode : Option Value) : Except String (Option Value) :=
  if mode = some removedBuildMode then .error removedMessage else .ok mode

/-- The walk of `get_build_mode`. It visits no name twice, and only names of profiles, so that fuel
for the profiles is enough. -/
def walkBuildMode (profiles : Profiles) : ℕ → List String → String → Option Value
  | 0, _, _ => none
  | fuel + 1, visited, name =>
    if name = "" ∨ name ∈ visited then none
    else
      match profiles.get name with
      | none => none
      | some profile =>
        match profile.keys.get modeKey with
        | some mode => some mode
        | none => profile.parent.elim none (walkBuildMode profiles fuel (name :: visited))

/-- `get_build_mode`. -/
def getBuildMode (config : Config) (rules : List Rule) : Except String (Option Value) :=
  normalizeBuildMode (walkBuildMode config.profiles (config.profiles.items.length + 1) []
    (profileName config rules))

/-! ## When it is the resolved profile's -/

/-- The first profile of a chain that sets the mode. -/
def setsMode (l : List (String × Profile)) : Option (String × Profile) :=
  l.find? fun q => (q.2.keys.get modeKey).isSome

/-- The profiles before it. -/
def beforeMode (l : List (String × Profile)) : List (String × Profile) :=
  l.takeWhile fun q => (q.2.keys.get modeKey).isNone

/-- The extracted profile becomes the root of the chain. -/
def Spliced (extracted : Dict String Text) (l : List (String × Profile)) : Prop :=
  extracted.items ≠ [] ∧ (sentinel ∈ Assoc.keys l ∨ (Assoc.keys l).getLast? = some "bare")

instance (extracted : Dict String Text) (l : List (String × Profile)) :
    Decidable (Spliced extracted l) := instDecidableAnd

/-- The profiles of a chain whose `append` table is merged. -/
def appending (extracted : Dict String Text) (l : List (String × Profile)) :
    List (String × Profile) :=
  if Spliced extracted l then above l else l.dropLast

/-- The mode that is set first survives the appends before it, and the walk comes to it. A mode that
is set below the reserved name is not resolved. -/
structure ModeAgrees (groups : ConflictGroups) (extracted : Dict String Text)
    (l : List (String × Profile)) : Prop where
  /-- No profile before is named by the empty text, and the appends leave the mode alone. -/
  direct : ∀ q mode, setsMode l = some q → q.2.keys.get modeKey = some mode →
    ¬ (Spliced extracted l ∧ q ∉ above l) →
    "" ∉ Assoc.keys (beforeMode l) ∧ q.1 ≠ "" ∧
      mergeAppends groups mode (appends modeKey (beforeMode l)) = .ok mode
  /-- The appends above the reserved name make up the mode, or there are none and the walk stops. -/
  shadowed : ∀ q mode, setsMode l = some q → q.2.keys.get modeKey = some mode →
    Spliced extracted l → q ∉ above l →
    if "" ∈ Assoc.keys (beforeMode l) ∨ q.1 = "" then appends modeKey (above l) = []
    else appends modeKey (above l) ≠ [] ∧
      mergeAppends groups (.str []) (appends modeKey (above l)) = .ok mode
  /-- Nothing is appended to a mode that no profile sets. -/
  unset : setsMode l = none → appends modeKey (appending extracted l) = []

section Mode

variable {groups : ConflictGroups} {profiles : Profiles} {config : Config} {rules : List Rule}
  {name key : String} {l : List (String × Profile)} {q z : String × Profile} {v mode : Value}
  {r r₀ : Dict String Value} {extracted : Dict String Text} {o : Option Value}

theorem normalizeBuildMode_inj {m m' : Option Value} :
    normalizeBuildMode m = normalizeBuildMode m' ↔ m = m' := by
  constructor
  · intro h
    unfold normalizeBuildMode at h
    split_ifs at h with hm hm'
    · exact hm.trans hm'.symm
    · exact Except.ok.inj h
  · exact congrArg _

theorem setsMode_some (h : setsMode l = some q) :
    ∃ post mode, l = beforeMode l ++ q :: post ∧ q.2.keys.get modeKey = some mode := by
  obtain ⟨hq, l₁, post, rfl, hl₁⟩ := List.find?_eq_some_iff_append.mp h
  obtain ⟨mode, hmode⟩ := Option.isSome_iff_exists.mp hq
  refine ⟨post, mode, ?_, hmode⟩
  have hbefore : beforeMode (l₁ ++ q :: post) = l₁ := by
    unfold beforeMode
    rw [List.takeWhile_append_of_pos, List.takeWhile_cons_of_neg, List.append_nil]
    · rw [hmode]
      exact Bool.false_ne_true
    · intro q' hq'
      rw [← Option.not_isSome]
      exact hl₁ q' hq'
  rw [hbefore]

theorem unset_beforeMode : Unset modeKey (beforeMode l) := by
  intro q hq
  have hnone : (q.2.keys.get modeKey).isNone = true :=
    @List.mem_takeWhile_imp _ (fun q : String × Profile => (q.2.keys.get modeKey).isNone) _ _ hq
  exact Option.isNone_iff_eq_none.mp hnone

theorem unset_of_setsMode (h : setsMode l = none) : Unset modeKey l := fun q hq =>
  Option.not_isSome_iff_eq_none.mp (List.find?_eq_none.mp h q hq)

/-! ## The walk -/

/-- What the walk finds on a chain. -/
def scan : List (String × Profile) → Option Value
  | [] => none
  | q :: l => if q.1 = "" then none else (q.2.keys.get modeKey).or (scan l)

theorem walkBuildMode_eq (h : IsChain profiles name l) {fuel : ℕ} {visited : List String}
    (hf : l.length ≤ fuel) (hv : (visited ++ Assoc.keys l).Nodup) :
    walkBuildMode profiles fuel visited name = scan l := by
  induction h generalizing fuel visited with
  | @root name p hp hpar =>
    obtain ⟨fuel, rfl⟩ := Nat.exists_eq_add_of_le' (show 1 ≤ fuel from hf)
    have hname : name ∉ visited := by
      rw [List.nodup_append] at hv
      exact fun hmem => hv.2.2 _ hmem _ List.mem_cons_self rfl
    rw [walkBuildMode, scan]
    by_cases hnil : name = ""
    · rw [if_pos (.inl hnil), if_pos hnil]
    · rw [if_neg (not_or.mpr ⟨hnil, hname⟩), if_neg hnil, hp]
      dsimp only
      rw [hpar]
      cases p.keys.get modeKey <;> rfl
  | @step name parent p l hp hpar hl ih =>
    obtain ⟨fuel, rfl⟩ := Nat.exists_eq_add_of_le'
      (le_trans (Nat.succ_le_succ (Nat.zero_le _)) hf : 1 ≤ fuel)
    have hname : name ∉ visited := by
      rw [List.nodup_append] at hv
      exact fun hmem => hv.2.2 _ hmem _ List.mem_cons_self rfl
    rw [walkBuildMode, scan]
    by_cases hnil : name = ""
    · rw [if_pos (.inl hnil), if_pos hnil]
    · rw [if_neg (not_or.mpr ⟨hnil, hname⟩), if_neg hnil, hp]
      dsimp only
      rw [hpar]
      cases hk : p.keys.get modeKey with
      | some mode => rfl
      | none =>
        have hnodup : ((name :: visited) ++ Assoc.keys l).Nodup := by
          rw [Assoc.keys_cons] at hv
          exact List.nodup_middle.mp hv
        exact ih (Nat.le_of_succ_le_succ hf) hnodup

theorem scan_append {l l' : List (String × Profile)} (h : Unset modeKey l) :
    scan (l ++ l') = if "" ∈ Assoc.keys l then none else scan l' := by
  induction l with
  | nil => rfl
  | cons q l ih =>
    rw [List.cons_append, scan, h q List.mem_cons_self, Option.none_or,
      ih fun q hq => h q (List.mem_cons_of_mem _ hq), Assoc.keys_cons]
    by_cases hq : q.1 = ""
    · rw [if_pos hq, if_pos (hq ▸ List.mem_cons_self)]
    · have hne : "" ≠ q.1 := fun h => hq h.symm
      rw [if_neg hq]
      refine if_congr ?_ rfl rfl
      rw [List.mem_cons, or_iff_right hne]

theorem scan_unset (h : setsMode l = none) : scan l = none := by
  have happ := @scan_append l [] (unset_of_setsMode h)
  rw [List.append_nil] at happ
  rw [happ]
  exact ite_self none

theorem scan_direct (h : setsMode l = some q) (hq : q.2.keys.get modeKey = some mode) :
    scan l = if "" ∈ Assoc.keys (beforeMode l) ∨ q.1 = "" then none else some mode := by
  obtain ⟨post, -, hl, -⟩ := setsMode_some h
  rw [congrArg scan hl, scan_append unset_beforeMode, scan, hq, Option.some_or]
  by_cases hb : "" ∈ Assoc.keys (beforeMode l)
  · rw [if_pos hb, if_pos (.inl hb)]
  · rw [if_neg hb]
    by_cases hn : q.1 = ""
    · rw [if_pos hn, if_pos (.inr hn)]
    · rw [if_neg hn, if_neg (not_or.mpr ⟨hb, hn⟩)]

/-! ## The resolved profile -/

/-- What profiles that leave a key alone append to its value. -/
def mergeOnto (groups : ConflictGroups) (o : Option Value) (as : List Value) :
    Except Failure (Option Value) :=
  if as = [] then .ok o else (mergeAppends groups (o.getD (.str [])) as).map some

theorem mergeOnto_some (as : List Value) :
    mergeOnto groups (some v) as = (mergeAppends groups v as).map some := by
  unfold mergeOnto
  by_cases h : as = []
  · rw [if_pos h, h]
    rfl
  · rw [if_neg h, Option.getD_some]

/-- Over profiles below, profiles that leave a key alone append to it. -/
theorem keyChain_appends {l l' : List (String × Profile)} (hl' : l' ≠ []) (h : Unset key l) :
    keyChain groups key (l ++ l') =
      keyChain groups key l' >>= fun o => mergeOnto groups o (appends key l) := by
  induction l with
  | nil =>
    rw [List.nil_append]
    cases keyChain groups key l' <;> rfl
  | cons q l ih =>
    have hset := h q List.mem_cons_self
    rw [List.cons_append, keyChain_cons _ (by simp [hl']),
      ih fun q hq => h q (List.mem_cons_of_mem _ hq), appends_cons]
    cases keyChain groups key l' with
    | error e => rfl
    | ok o =>
      change mergeOnto groups o (appends key l) >>= keyOver groups key q.2 =
        mergeOnto groups o (appends key l ++ _)
      cases ha : q.2.append.get key with
      | none =>
        rw [Option.toList_none, List.append_nil]
        have hover : keyOver groups key q.2 = Except.ok := by
          funext v
          rw [keyOver, hset, ha]
        rw [hover]
        cases mergeOnto groups o (appends key l) <;> rfl
      | some a =>
        have hover (v : Option Value) : keyOver groups key q.2 v =
            (mergeAppendValue groups (v.getD (.str [])) a).map some := by
          rw [keyOver, hset, ha]
        have hmerge : mergeOnto groups o (appends key l ++ [a]) =
            (mergeAppends groups (o.getD (.str [])) (appends key l) >>= fun w =>
              mergeAppendValue groups w a).map some := by
          rw [mergeOnto, if_neg (by simp), mergeAppends, List.foldlM_append]
          refine congrArg _ (congrArg _ (funext fun w => ?_))
          rw [List.foldlM_cons]
          cases mergeAppendValue groups w a <;> rfl
        rw [Option.toList_some, hmerge, mergeOnto]
        by_cases hnil : appends key l = []
        · rw [if_pos hnil, hnil]
          exact hover o
        · rw [if_neg hnil]
          cases mergeAppends groups (o.getD (.str [])) (appends key l) with
          | error e => rfl
          | ok w => exact hover (some w)

theorem unset_rebase (h : Unset key l) : Unset key (l.map rebase) := by
  intro q hq
  obtain ⟨q', hq', rfl⟩ := List.mem_map.mp hq
  rw [rebase_keys]
  exact h q' hq'

theorem appends_rebase : appends key (l.map rebase) = appends key l := by
  unfold appends
  rw [List.filterMap_map]
  refine congrArg _ (List.filterMap_congr fun q _ => ?_)
  exact congrArg (fun d : Dict String Value => d.get key) (rebase_append q)

/-- A profile that sets a key hides everything below it. -/
theorem keyChain_direct {pre post : List (String × Profile)} (hpre : Unset key pre)
    (hq : q.2.keys.get key = some v) (h : keyChain groups key (pre ++ q :: post) = .ok o) :
    (mergeAppends groups v (appends key pre)).map some = .ok o := by
  rw [keyChain_appends (List.cons_ne_nil _ _) hpre, bind_ok] at h
  obtain ⟨o', ho', h⟩ := h
  have hval : o' = some v := by
    by_cases hnil : post = []
    · rw [hnil, keyChain, hq] at ho'
      exact (Except.ok.inj ho').symm
    · rw [keyChain_cons _ hnil, bind_ok] at ho'
      obtain ⟨w, -, hw⟩ := ho'
      rw [keyOver, hq] at hw
      exact (Except.ok.inj hw).symm
  rw [hval, mergeOnto_some] at h
  exact h

/-! ## The chain that is resolved -/

theorem isChain_base (h : IsChain profiles name l) : IsChain (base profiles) name l := by
  have hget {n : String} {p : Profile} (hp : profiles.get n = some p) :
      (base profiles).get n = some p := by
    rw [base, Dict.get_set, Dict.get_set, Dict.get_set]
    by_cases hs : n = sentinel
    · rw [if_pos hs, if_neg bare_ne_sentinel.symm, ← hs, hp, Option.getD_some]
    · rw [if_neg hs]
      by_cases hb : n = "bare"
      · rw [if_pos hb, ← hb, hp, Option.getD_some]
      · rw [if_neg hb, hp]
  induction h with
  | root hp h => exact .root (hget hp) h
  | step hp h _ ih => exact .step (hget hp) h ih

/-- The value of the mode in the resolved profile, along the chain that is resolved. -/
theorem keyChain_resolved (hl : IsChain config.profiles (profileName config rules) l)
    (hr : resolveProfile groups config rules extracted = .ok r) :
    keyChain groups modeKey (if Spliced extracted l then
      (above l).map rebase ++ [(sentinel, root extracted)] else l) = .ok (r.get modeKey) := by
  by_cases he : extracted.items = []
  · rw [if_neg fun h => h.1 he]
    rw [resolveProfile, if_pos he] at hr
    obtain ⟨l', hl', hm⟩ := mergeExtends_ok_iff.mp hr
    rw [hl.det hl']
    exact mergeChain_get hm modeKey
  · by_cases hroot : sentinel ∈ Assoc.keys l ∨ (Assoc.keys l).getLast? = some "bare"
    · rw [if_pos ⟨he, hroot⟩]
      have hchain := @isChain_inject _ _ _ extracted (isChain_base hl) hroot
      exact mergeChain_get ((resolveProfile_ok_iff he hchain).mp hr) modeKey
    · rw [if_neg fun h => hroot h.2]
      obtain ⟨hs, hb⟩ := not_or.mp hroot
      have hchain := @isChain_inject_of_not _ _ _ extracted (isChain_base hl) hs hb
      exact mergeChain_get ((resolveProfile_ok_iff he hchain).mp hr) modeKey

theorem mergeOnto_none {as : List Value} (h : mergeOnto groups none as = .ok o) :
    (o = none ↔ as = []) ∧
      (o = some mode ↔ as ≠ [] ∧ mergeAppends groups (.str []) as = .ok mode) := by
  unfold mergeOnto at h
  by_cases has : as = []
  · rw [if_pos has] at h
    obtain rfl := Except.ok.inj h
    exact ⟨iff_of_true rfl has, iff_of_false nofun fun h => h.1 has⟩
  · rw [if_neg has, Option.getD_none] at h
    cases hm : mergeAppends groups (.str []) as with
    | error e =>
      rw [hm] at h
      cases h
    | ok w =>
      rw [hm] at h
      obtain rfl := Except.ok.inj h
      refine ⟨iff_of_false nofun has, ?_⟩
      rw [Option.some_inj, and_iff_right has]
      exact ⟨congrArg _, Except.ok.inj⟩

/-- The walk finds a mode that is set exactly where it comes to it and the appends leave it. -/
theorem direct_iff {as : List Value} {c : Prop} [Decidable c]
    (h : (mergeAppends groups mode as).map some = .ok o) :
    (if c then none else some mode) = o ↔ ¬ c ∧ mergeAppends groups mode as = .ok mode := by
  cases hm : mergeAppends groups mode as with
  | error e =>
    rw [hm] at h
    cases h
  | ok w =>
    rw [hm] at h
    obtain rfl := Except.ok.inj h
    by_cases hc : c
    · rw [if_pos hc]
      exact iff_of_false nofun fun h => h.1 hc
    · rw [if_neg hc, Option.some_inj, and_iff_right hc]
      exact ⟨fun h => congrArg _ h.symm, fun h => (Except.ok.inj h).symm⟩

theorem setsMode_above_mem (h : setsMode l = some q) (hq : q ∈ above l) :
    setsMode (above l) = some q ∧ beforeMode (above l) = beforeMode l := by
  have hset : (q.2.keys.get modeKey).isSome = true :=
    @List.find?_some _ (fun q : String × Profile => (q.2.keys.get modeKey).isSome) _ _ h
  have hstart : above l <+: l := List.takeWhile_prefix _
  have hsets : setsMode (above l) = some q := by
    cases habove : setsMode (above l) with
    | none => exact absurd hset (List.find?_eq_none.mp habove q hq)
    | some q' => exact (hstart.find?_eq_some habove).symm.trans h
  refine ⟨hsets, ?_⟩
  obtain ⟨rest, hrest⟩ := hstart
  have hshort : (beforeMode (above l)).length ≠ (above l).length := by
    intro hlen
    have heq : beforeMode (above l) = above l :=
      (List.takeWhile_prefix _).eq_of_length hlen
    have hunset := @unset_beforeMode (above l) q (by rwa [heq])
    rw [hunset] at hset
    cases hset
  conv_rhs => rw [← hrest]
  unfold beforeMode at hshort ⊢
  rw [List.takeWhile_append, if_neg hshort]

theorem setsMode_above_notMem (h : setsMode l = some q) (hq : q ∉ above l) :
    Unset modeKey (above l) := by
  refine unset_of_setsMode ?_
  cases habove : setsMode (above l) with
  | none => rfl
  | some q' =>
    have hsame := (List.takeWhile_prefix _ : above l <+: l).find?_eq_some habove
    rw [← setsMode, h] at hsame
    exact absurd (Option.some.inj hsame ▸ List.mem_of_find?_eq_some habove) hq

theorem keyChain_root (he : extracted.get modeKey = none) :
    keyChain groups modeKey [(sentinel, root extracted)] = .ok none := by
  have hflag : IsFlag modeKey := by decide
  rw [keyChain, get_root hflag, he, Option.map_none]

/-- A chain that sets no mode. -/
theorem keyChain_unset (h : Unset modeKey l) (hne : l ≠ []) :
    keyChain groups modeKey l = mergeOnto groups none (appends modeKey l.dropLast) := by
  have hroot : keyChain groups modeKey [l.getLast hne] = .ok none := by
    rw [keyChain, h _ (List.getLast_mem hne)]
  conv_lhs => rw [← List.dropLast_append_getLast hne]
  rw [keyChain_appends (List.cons_ne_nil _ _) fun q hq => h q (List.dropLast_subset l hq), hroot]
  rfl

/-- **The build mode read off the chain is the resolved profile's exactly where no append changes
it and the walk comes to it**, for every configuration, rules and extracted flags. -/
theorem buildMode_iff (hl : IsChain config.profiles (profileName config rules) l)
    (hr : resolveProfile groups config rules extracted = .ok r)
    (he : extracted.get modeKey = none) :
    getBuildMode config rules = normalizeBuildMode (r.get modeKey) ↔
      ModeAgrees groups extracted l := by
  have hwalk : getBuildMode config rules = normalizeBuildMode (scan l) := by
    rw [getBuildMode, walkBuildMode_eq hl (Nat.le_succ_of_le hl.length_le) (by simpa using hl.nodup)]
  have hres := keyChain_resolved hl hr
  rw [hwalk, normalizeBuildMode_inj]
  cases hset : setsMode l with
  | none =>
    rw [scan_unset hset, eq_comm]
    have hunset := unset_of_setsMode hset
    have honto : mergeOnto groups none (appends modeKey (appending extracted l)) =
        .ok (r.get modeKey) := by
      by_cases hs : Spliced extracted l
      · rw [if_pos hs, keyChain_appends (List.cons_ne_nil _ _) (unset_rebase hunset.above),
          keyChain_root he, appends_rebase] at hres
        rw [appending, if_pos hs]
        exact hres
      · rw [if_neg hs, keyChain_unset hunset hl.ne_nil] at hres
        rw [appending, if_neg hs]
        exact hres
    rw [(@mergeOnto_none _ (.str []) _ _ honto).1]
    have hnot {q : String × Profile} : setsMode l ≠ some q := by
      rw [hset]
      exact nofun
    exact ⟨fun h => ⟨fun _ _ hq => absurd hq hnot, fun _ _ hq => absurd hq hnot, fun _ => h⟩,
      fun h => h.unset hset⟩
  | some q =>
    obtain ⟨post, mode, hsplit, hmode⟩ := setsMode_some hset
    have hone {q' : String × Profile} {mode' : Value} (hq : setsMode l = some q')
        (hm : q'.2.keys.get modeKey = some mode') : q' = q ∧ mode' = mode := by
      obtain rfl := Option.some.inj (hset.symm.trans hq)
      exact ⟨rfl, Option.some.inj (hm.symm.trans hmode)⟩
    rw [scan_direct hset hmode]
    by_cases hs : Spliced extracted l ∧ q ∉ above l
    · have hunset := setsMode_above_notMem hset hs.2
      rw [if_pos hs.1, keyChain_appends (List.cons_ne_nil _ _) (unset_rebase hunset),
        keyChain_root he, appends_rebase] at hres
      have honto := @mergeOnto_none _ mode _ _ hres
      by_cases hc : "" ∈ Assoc.keys (beforeMode l) ∨ q.1 = ""
      · rw [if_pos hc, eq_comm, honto.1]
        constructor
        · refine fun h => ⟨fun q' m' hq hm hnot => ?_, fun q' m' hq hm _ _ => ?_, fun hn => ?_⟩
          · obtain ⟨rfl, -⟩ := hone hq hm
            exact absurd hs hnot
          · obtain ⟨rfl, -⟩ := hone hq hm
            rw [if_pos hc]
            exact h
          · rw [hset] at hn
            cases hn
        · intro h
          have hshadow := h.shadowed q mode hset hmode hs.1 hs.2
          rwa [if_pos hc] at hshadow
      · rw [if_neg hc, eq_comm, honto.2]
        constructor
        · refine fun h => ⟨fun q' m' hq hm hnot => ?_, fun q' m' hq hm _ _ => ?_, fun hn => ?_⟩
          · obtain ⟨rfl, -⟩ := hone hq hm
            exact absurd hs hnot
          · obtain ⟨rfl, rfl⟩ := hone hq hm
            rw [if_neg hc]
            exact h
          · rw [hset] at hn
            cases hn
        · intro h
          have hshadow := h.shadowed q mode hset hmode hs.1 hs.2
          rwa [if_neg hc] at hshadow
    · have hmap : (mergeAppends groups mode (appends modeKey (beforeMode l))).map some =
          .ok (r.get modeKey) := by
        by_cases hsp : Spliced extracted l
        · have hq : q ∈ above l := by
            by_contra hq
            exact hs ⟨hsp, hq⟩
          obtain ⟨habove, hbefore⟩ := setsMode_above_mem hset hq
          obtain ⟨post', mode', hsplit', -⟩ := setsMode_some habove
          rw [if_pos hsp, congrArg (List.map rebase) hsplit', List.map_append, List.map_cons,
            List.append_assoc, List.cons_append] at hres
          have hdirect := keyChain_direct (unset_rebase unset_beforeMode)
            (by rw [rebase_keys]; exact hmode) hres
          rwa [appends_rebase, hbefore] at hdirect
        · rw [if_neg hsp, congrArg (keyChain groups modeKey) hsplit] at hres
          exact keyChain_direct unset_beforeMode hmode hres
      rw [direct_iff hmap, not_or, and_assoc]
      constructor
      · refine fun h => ⟨fun q' m' hq hm _ => ?_, fun q' m' hq hm hsp hnot => ?_, fun hn => ?_⟩
        · obtain ⟨rfl, rfl⟩ := hone hq hm
          exact h
        · obtain ⟨rfl, -⟩ := hone hq hm
          exact absurd ⟨hsp, hnot⟩ hs
        · rw [hset] at hn
          cases hn
      · exact fun h => h.direct q mode hset hmode hs

end Mode

/-- A kernel profile, and one that extends it. -/
def kernelChain : List (String × Profile) :=
  [("zen", { parent := some "kernel" }),
    ("kernel", { keys := .ofItems [(modeKey, .str "kernel".toList)] })]

/-- The configuration of a chain. -/
def kernelConfig : Config := { profiles := .ofItems kernelChain }

theorem isChain_kernelChain : IsChain kernelConfig.profiles "zen" kernelChain :=
  .step rfl rfl (.root rfl rfl)

theorem buildMode_iff_kernel :
    getBuildMode kernelConfig [⟨some "zen", 0⟩] = normalizeBuildMode (some (.str "kernel".toList)) ↔
      ModeAgrees .empty .empty kernelChain :=
  buildMode_iff (r := .ofItems [(modeKey, .str "kernel".toList)]) isChain_kernelChain
    rfl rfl

/-- A profile that appends to the build mode it extends. -/
def appendingChain : List (String × Profile) :=
  [("zen", { parent := some "kernel", append := .ofItems [(modeKey, .str "autofdo".toList)] }),
    ("kernel", { keys := .ofItems [(modeKey, .str "kernel".toList)] })]

/-- The build runs in one mode, and its profile has another. -/
theorem not_buildMode_appending : ¬ ∀ config rules r,
    resolveProfile .empty config rules .empty = .ok r →
      getBuildMode config rules = normalizeBuildMode (r.get modeKey) := by
  intro h
  have hget := h { profiles := .ofItems appendingChain } [⟨some "zen", 0⟩]
    (.ofItems [(modeKey, .str "kernel autofdo".toList)]) rfl
  have hmode : some (Value.str "kernel".toList) = some (Value.str "kernel autofdo".toList) :=
    Except.ok.inj hget
  exact absurd hmode (by decide)

end Sysforge.Profile
