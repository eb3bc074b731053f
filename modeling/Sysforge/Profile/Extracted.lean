import Mathlib.Data.Fintype.EquivFin
import Sysforge.Profile.Resolve

/-!
# Extracted flags in the resolved profile

The flags taken out of a PKGBUILD come back as a profile below everything else, so that a key no
profile sets directly keeps its extracted value, with the appends of the chain merged on. The code
splices that profile in below `bare` alone: `extractedReaches_iff` says on which chains that is
enough.
-/

namespace Sysforge.Profile

/-! ## The law -/

/-- The configured profiles; `bare` and the reserved name are there, empty, even when they are not
configured. -/
def base (profiles : Profiles) : Profiles :=
  let profiles := profiles.set "bare" ((profiles.get "bare").getD {})
  profiles.set sentinel ((profiles.get sentinel).getD {})

/-- No profile of the chain sets the key directly. -/
def Unset (key : String) (l : List (String × Profile)) : Prop :=
  ∀ q ∈ l, q.2.keys.get key = none

/-- What the chain appends to a key, from root to leaf. -/
def appends (key : String) (l : List (String × Profile)) : List Value :=
  (l.filterMap fun q => q.2.append.get key).reverse

/-- Every extracted flag that the chain of the winning profile does not set reaches the resolved
profile, with the appends of the chain merged on. -/
def ExtractedReaches (groups : ConflictGroups) (config : Config) (rules : List Rule) : Prop :=
  ∀ l extracted r, IsChain (base config.profiles) (profileName config rules) l →
    resolveProfile groups config rules extracted = .ok r →
    ∀ key v, extracted.get key = some v → IsFlag key → Unset key l →
      (mergeAppends groups (.str v) (appends key l)).map some = .ok (r.get key)

/-- The chain above the reserved name. -/
def above (l : List (String × Profile)) : List (String × Profile) :=
  l.takeWhile fun q => q.1 ≠ sentinel

/-- The chain comes down to the extracted profile, and the profile configured under the reserved
name, with all it extends, appends nothing that the appends above it do not undo. -/
structure ReachesRoot (groups : ConflictGroups) (l : List (String × Profile)) : Prop where
  root : sentinel ∈ Assoc.keys l ∨ (Assoc.keys l).getLast? = some "bare"
  shadowed : ∀ key v w, IsFlag key → Unset key l →
    mergeAppends groups (.str v) (appends key (above l)) = .ok w →
    mergeAppends groups (.str v) (appends key l) = .ok w

variable {groups : ConflictGroups} {profiles : Profiles} {name key : String} {p : Profile}
  {l l' : List (String × Profile)} {r : Dict String Value} {extracted : Dict String Text}

/-! ## The spliced chain -/

/-- What the splice does to a profile. -/
def rebase (q : String × Profile) : String × Profile :=
  if q.1 = "bare" ∧ q.2.parent = none then (q.1, { q.2 with parent := some sentinel }) else q

theorem get_inject_sentinel : (inject profiles extracted).get sentinel = some (root extracted) := by
  rw [inject]
  split
  · rw [Dict.get_set, if_neg (by decide), Dict.get_set, if_pos rfl]
  · rw [Dict.get_set, if_pos rfl]

theorem bare_ne_sentinel : "bare" ≠ sentinel := by decide

theorem get_inject (hn : name ≠ sentinel) (h : (base profiles).get name = some p) :
    (inject profiles extracted).get name = some (rebase (name, p)).2 := by
  rw [base, Dict.get_set, if_neg hn, Dict.get_set] at h
  simp only [inject, Dict.get_set, if_neg bare_ne_sentinel, rebase]
  by_cases hb : name = "bare"
  · subst hb
    rw [if_pos rfl] at h
    cases h
    cases hbare : profiles.get "bare" with
    | none => simp [Dict.get_set]
    | some bare =>
      by_cases hp : bare.parent = none
      · simp [Dict.get_set, hp]
      · simp [Dict.get_set, hp, hbare, bare_ne_sentinel]
  · rw [if_neg hb] at h
    have hre : ¬(name = "bare" ∧ p.parent = none) := fun h => hb h.1
    rw [if_neg hre]
    split
    · rw [Dict.get_set, if_neg hb, Dict.get_set, if_neg hn, h]
    · rw [Dict.get_set, if_neg hn, h]

/-- A chain that comes down to the extracted profile does so with everything above. -/
theorem isChain_inject (h : IsChain (base profiles) name l)
    (hroot : sentinel ∈ Assoc.keys l ∨ (Assoc.keys l).getLast? = some "bare") :
    IsChain (inject profiles extracted) name
      ((above l).map rebase ++ [(sentinel, root extracted)]) := by
  induction h with
  | @root name p hp h =>
    by_cases hn : name = sentinel
    · subst hn
      exact .root get_inject_sentinel rfl
    · have hb : name = "bare" := by simpa [Ne.symm hn] using hroot
      have hab : above [(name, p)] = [(name, p)] := by simp [above, hn]
      have hre : rebase (name, p) = (name, { p with parent := some sentinel }) :=
        if_pos ⟨hb, h⟩
      have hget := @get_inject _ _ _ extracted hn hp
      rw [hre] at hget
      rw [hab, List.map_singleton, hre]
      exact .step hget rfl (.root get_inject_sentinel rfl)
  | @step name parent p l hp h hl ih =>
    by_cases hn : name = sentinel
    · subst hn
      have hab : above ((sentinel, p) :: l) = [] := by simp [above]
      rw [hab]
      exact .root get_inject_sentinel rfl
    · have hab : above ((name, p) :: l) = (name, p) :: above l := by simp [above, hn]
      have hre : rebase (name, p) = (name, p) := if_neg fun hb => by simp [h] at hb
      have hget := @get_inject _ _ _ extracted hn hp
      rw [hre] at hget
      rw [hab, List.map_cons, hre]
      refine .step hget h (ih ?_)
      rcases hroot with hroot | hroot
      · exact .inl ((List.mem_cons.mp hroot).resolve_left (Ne.symm hn))
      · obtain ⟨q, l, rfl⟩ := List.exists_cons_of_ne_nil hl.ne_nil
        exact .inr (by simpa using hroot)

/-- A chain with another root stays as it is. -/
theorem isChain_inject_of_not (h : IsChain (base profiles) name l)
    (hs : sentinel ∉ Assoc.keys l) (hb : (Assoc.keys l).getLast? ≠ some "bare") :
    IsChain (inject profiles extracted) name l := by
  induction h with
  | @root name p hp h =>
    have hget := @get_inject _ _ _ extracted (by simpa [eq_comm] using hs) hp
    have hname : name ≠ "bare" := fun e => hb (by rw [e]; rfl)
    rw [rebase, if_neg fun h => hname h.1] at hget
    exact .root hget h
  | @step name parent p l hp h hl ih =>
    rw [Assoc.keys_cons, List.mem_cons, not_or] at hs
    have hget := @get_inject _ _ _ extracted (Ne.symm hs.1) hp
    rw [rebase, if_neg fun hb => by simp [h] at hb] at hget
    obtain ⟨q, l, rfl⟩ := List.exists_cons_of_ne_nil hl.ne_nil
    exact .step hget h (ih hs.2 (by simpa using hb))

/-! ## Values along the spliced chain -/

theorem appends_cons (q : String × Profile) :
    appends key (q :: l) = appends key l ++ (q.2.append.get key).toList := by
  rw [appends, appends]
  cases h : q.2.append.get key with
  | none => simp [h]
  | some a => simp [h]

theorem rebase_keys (q : String × Profile) : (rebase q).2.keys = q.2.keys := by
  rw [rebase]
  split <;> rfl

theorem rebase_append (q : String × Profile) : (rebase q).2.append = q.2.append := by
  rw [rebase]
  split <;> rfl

theorem Unset.above (h : Unset key l) : Unset key (above l) :=
  fun q hq => h q (List.takeWhile_subset _ hq)

/-- Over a root that sets a key, a chain that leaves it alone appends to it. -/
theorem keyChain_spliced {q : String × Profile} {v : Value} (hv : q.2.keys.get key = some v)
    (h : Unset key l) : keyChain groups key (l.map rebase ++ [q]) =
      (mergeAppends groups v (appends key l)).map some := by
  induction l with
  | nil => rw [List.map_nil, List.nil_append, keyChain, hv]; rfl
  | cons q' l ih =>
    have hset : (rebase q').2.keys.get key = none := by
      rw [rebase_keys]
      exact h q' List.mem_cons_self
    rw [List.map_cons, List.cons_append, keyChain_cons _ (by simp),
      ih fun q hq => h q (List.mem_cons_of_mem _ hq), appends_cons, mergeAppends, mergeAppends,
      List.foldlM_append]
    cases hm : (appends key l).foldlM (mergeAppendValue groups) v with
    | error e => rfl
    | ok w =>
      change keyOver groups key (rebase q').2 (some w) = _
      rw [keyOver, hset, rebase_append]
      cases ha : q'.2.append.get key with
      | none => rfl
      | some a =>
        change (mergeAppendValue groups w a).map some = _
        rw [Option.toList_some]
        change _ = (List.foldlM (mergeAppendValue groups) w [a]).map some
        rw [List.foldlM_cons]
        cases mergeAppendValue groups w a <;> rfl

/-- Only the key itself counts at the root. -/
theorem keyChain_congr_root {q q' : String × Profile}
    (h : q.2.keys.get key = q'.2.keys.get key) :
    keyChain groups key (l ++ [q]) = keyChain groups key (l ++ [q']) := by
  induction l with
  | nil => simp only [List.nil_append, keyChain, h]
  | cons q₀ l ih =>
    rw [List.cons_append, List.cons_append, keyChain_cons _ (by simp), keyChain_cons _ (by simp), ih]

/-- A key no profile names has no value. -/
theorem keyChain_none (h : ∀ q ∈ l, q.2.keys.get key = none ∧ q.2.append.get key = none) :
    keyChain groups key l = .ok none := by
  induction l with
  | nil => rfl
  | cons q l ih =>
    obtain ⟨hk, ha⟩ := h q List.mem_cons_self
    by_cases hl : l = []
    · subst hl
      rw [keyChain, hk]
    · rw [keyChain_cons _ hl, ih fun q hq => h q (List.mem_cons_of_mem _ hq)]
      change keyOver groups key q.2 none = _
      rw [keyOver, hk, ha]

/-- There is always a flag that no profile of a chain names. -/
theorem exists_fresh (l : List (String × Profile)) :
    ∃ key, IsFlag key ∧ ∀ q ∈ l, q.2.keys.get key = none ∧ q.2.append.get key = none := by
  obtain ⟨n, hn⟩ := Infinite.exists_notMem_finset
    ((l.flatMap fun q => (q.2.keys.keys ++ q.2.append.keys).map String.length).toFinset)
  simp only [List.mem_toFinset, List.mem_flatMap, List.mem_map, List.mem_append, not_exists,
    not_and] at hn
  refine ⟨String.ofList (List.replicate n 'A'), fun hp => ?_, fun q hq => ⟨?_, ?_⟩⟩
  · have hunder : '_' ∈ "__".toList := by decide
    have hmem := hp.subset hunder
    rw [String.toList_ofList] at hmem
    exact absurd (List.eq_of_mem_replicate hmem) (by decide)
  · exact Dict.get_eq_none.2 fun h => hn q hq _ (.inl h) (by simp)
  · exact Dict.get_eq_none.2 fun h => hn q hq _ (.inr h) (by simp)

theorem get_root (h : IsFlag key) :
    (root extracted).keys.get key = (extracted.get key).map .str := by
  rw [root, Dict.get_map, Dict.get_filter]
  cases extracted.get key with
  | none => rfl
  | some v => rw [Option.filter_some, if_pos (by simpa using h)]

/-! ## When the law holds -/

section Reaches

variable {config : Config} {rules : List Rule} {e₀ : Dict String Text} {r₀ : Dict String Value}

theorem resolveProfile_ok_iff (he : extracted.items ≠ [])
    (hl : IsChain (inject config.profiles extracted) (profileName config rules) l) :
    resolveProfile groups config rules extracted = .ok r ↔ mergeChain groups l = .ok r := by
  simp only [resolveProfile, if_neg he, mergeExtends_ok_iff]
  constructor
  · rintro ⟨l', hl', h⟩
    rwa [hl.det hl']
  · exact fun h => ⟨l, hl, h⟩

theorem items_ne_nil {v : Text} (h : extracted.get key = some v) : extracted.items ≠ [] :=
  List.ne_nil_of_mem (Dict.mem_items.2 h)

/-- A chain with another root resolves the same for every extracted profile. -/
theorem ExtractedReaches.root (h : ExtractedReaches groups config rules)
    (hl : IsChain (base config.profiles) (profileName config rules) l) (he : e₀.items ≠ [])
    (hok : resolveProfile groups config rules e₀ = .ok r₀) :
    sentinel ∈ Assoc.keys l ∨ (Assoc.keys l).getLast? = some "bare" := by
  by_contra hroot
  obtain ⟨hs, hb⟩ := not_or.mp hroot
  obtain ⟨key, hflag, hfresh⟩ := exists_fresh l
  rw [resolveProfile_ok_iff he (isChain_inject_of_not hl hs hb)] at hok
  -- The law would put the fresh flag into a dictionary that does not depend on it.
  have hget : (Dict.empty.set key ([] : Text)).get key = some [] := by
    rw [Dict.get_set, if_pos rfl]
  have hr : resolveProfile groups config rules (Dict.empty.set key []) = .ok r₀ :=
    (resolveProfile_ok_iff (items_ne_nil hget) (isChain_inject_of_not hl hs hb)).2 hok
  have hval := h l _ _ hl hr key [] hget hflag fun q hq => (hfresh q hq).1
  have hnone := mergeChain_get hok key
  rw [keyChain_none hfresh] at hnone
  rw [← hnone] at hval
  cases hm : mergeAppends groups (.str []) (appends key l) with
  | error e =>
    rw [hm] at hval
    cases hval
  | ok w =>
    rw [hm] at hval
    cases hval

/-- Setting a flag of the extracted profile changes the resolution at that flag alone. -/
theorem exists_resolveProfile_set {v : Text} {w : Value}
    (hl : IsChain (base config.profiles) (profileName config rules) l)
    (hroot : sentinel ∈ Assoc.keys l ∨ (Assoc.keys l).getLast? = some "bare")
    (he : e₀.items ≠ []) (hok : resolveProfile groups config rules e₀ = .ok r₀)
    (hflag : IsFlag key) (hun : Unset key l)
    (hw : mergeAppends groups (.str v) (appends key (above l)) = .ok w) :
    ∃ r, resolveProfile groups config rules (e₀.set key v) = .ok r ∧ r.get key = some w := by
  have hget : (e₀.set key v).get key = some v := by rw [Dict.get_set, if_pos rfl]
  have hkey : keyChain groups key ((above l).map rebase ++ [(sentinel, Profile.root (e₀.set key v))])
      = .ok (some w) := by
    rw [@keyChain_spliced _ _ _ _ (.str v) (by rw [get_root hflag, hget]; rfl) hun.above, hw]
    rfl
  rw [resolveProfile_ok_iff he (isChain_inject hl hroot)] at hok
  obtain ⟨r, hr⟩ := @exists_mergeChain groups
    ((above l).map rebase ++ [(sentinel, Profile.root (e₀.set key v))]) fun k => by
      by_cases hk : k = key
      · rw [hk]
        exact ⟨_, hkey⟩
      · refine ⟨_, (keyChain_congr_root ?_).trans (mergeChain_get hok k)⟩
        rw [Profile.root, Profile.root, Dict.get_map, Dict.get_filter, Dict.get_map,
          Dict.get_filter, Dict.get_set, if_neg hk]
  refine ⟨r, (resolveProfile_ok_iff (items_ne_nil hget) (isChain_inject hl hroot)).2 hr, ?_⟩
  have := mergeChain_get hr key
  rw [hkey] at this
  exact (Except.ok.inj this).symm

/-- **The extracted flags reach the resolved profile exactly on the chains that come down to
them**, for every configuration and rules with which a resolution succeeds. -/
theorem extractedReaches_iff
    (hl : IsChain (base config.profiles) (profileName config rules) l) (he : e₀.items ≠ [])
    (hok : resolveProfile groups config rules e₀ = .ok r₀) :
    ExtractedReaches groups config rules ↔ ReachesRoot groups l := by
  constructor
  · intro h
    have hroot := h.root hl he hok
    refine ⟨hroot, fun key v w hflag hun hw => ?_⟩
    obtain ⟨r, hr, hkey⟩ := exists_resolveProfile_set hl hroot he hok hflag hun hw
    have hval := h l _ _ hl hr key v (by rw [Dict.get_set, if_pos rfl]) hflag hun
    rw [hkey] at hval
    cases hm : mergeAppends groups (.str v) (appends key l) with
    | error e =>
      rw [hm] at hval
      cases hval
    | ok u =>
      rw [hm] at hval
      cases hval
      rfl
  · intro h l' extracted r hl' hr key v hv hflag hun
    obtain rfl := hl.det hl'
    rw [resolveProfile_ok_iff (items_ne_nil hv) (isChain_inject hl h.root)] at hr
    have hkey := mergeChain_get hr key
    rw [@keyChain_spliced _ _ _ _ (.str v) (by rw [get_root hflag, hv]; rfl) hun.above] at hkey
    cases hm : mergeAppends groups (.str v) (appends key (above l)) with
    | error e =>
      rw [hm] at hkey
      cases hkey
    | ok w =>
      rw [hm] at hkey
      rw [h.shadowed key v w hflag hun hm]
      exact hkey

/-- A chain of `optimized` over `bare`. -/
def optimizedChain : List (String × Profile) :=
  [("optimized", { parent := some "bare", append := Dict.empty.set "CFLAGS" (.str "-O3".toList) }),
    ("bare", { keys := Dict.empty.set "MAKEFLAGS" (.str "-j8".toList) })]

/-- A profile that extends nothing. -/
def nativeChain : List (String × Profile) :=
  [("native", { keys := Dict.empty.set "CXXFLAGS" (.str "-O3".toList) })]

theorem extractedReaches_optimized :
    ExtractedReaches .empty { profiles := Dict.ofItems optimizedChain, defaultProfile := "optimized" }
      [] :=
  (@extractedReaches_iff _ optimizedChain
    { profiles := Dict.ofItems optimizedChain, defaultProfile := "optimized" } []
    (Dict.empty.set "CFLAGS" "-O2 -m32".toList)
    ((Dict.empty.set "CFLAGS" (.str "-O3 -m32".toList)).set "MAKEFLAGS" (.str "-j8".toList))
    (.step rfl rfl (.root rfl rfl)) (by decide) (by rfl)).2
    ⟨.inr rfl, fun _ _ _ _ _ h => h⟩

theorem not_extractedReaches_native : ¬ ∀ groups config rules,
    ExtractedReaches groups config rules := by
  intro h
  have hval := h .empty { profiles := Dict.ofItems nativeChain } [⟨some "native", 10⟩] nativeChain
    (Dict.empty.set "CFLAGS" "-fno-stack-protector".toList)
    (Dict.empty.set "CXXFLAGS" (.str "-O3".toList)) (.root rfl rfl) (by rfl)
    "CFLAGS" "-fno-stack-protector".toList (by rfl) (by decide) (by
      intro q hq
      rw [nativeChain, List.mem_singleton] at hq
      subst hq
      rfl)
  cases hval

end Reaches

end Sysforge.Profile
