import Sysforge.Profile.Append

/-!
# Profile resolution

`mergeExtends` flattens a profile with everything it extends, `resolveProfile` picks the winning
profile of the matched rules and flattens it, after an extracted profile was spliced in below
`bare`. The expansion of the toolchain and of the compiler overrides, which comes after, is left
out.

`IsChain` is the `extends` chain of a profile. `mergeExtends_ok_iff` reads `mergeExtends` off the
chain, and `mergeChain_get` and `exists_mergeChain` read the chain off key by key.
-/

namespace Sysforge

open Profile in
/-- A profile of the configuration: what it extends, what it appends, and the keys it sets. -/
structure Profile where
  parent : Option String := none
  append : Dict String Value := .empty
  keys : Dict String Value := .empty

namespace Profile

instance : Inhabited Profile := ⟨{}⟩

/-! ## The code -/

/-- The profiles of a configuration. -/
abbrev Profiles := Dict String Profile

/-- An item of the `append` table. -/
def appendItem (groups : ConflictGroups) (parent direct merged : Dict String Value)
    (item : String × Value) : Except Failure (Dict String Value) :=
  if item.1 ∈ direct.keys then .ok merged
  else do
    let v ← mergeAppendValue groups ((parent.get item.1).getD (.str [])) item.2
    .ok (merged.set item.1 v)

/-- A profile over the flat dictionary of what it extends. -/
def mergeOver (groups : ConflictGroups) (profile : Profile) (parent : Dict String Value) :
    Except Failure (Dict String Value) :=
  profile.append.items.foldlM (appendItem groups parent profile.keys)
    (parent.update profile.keys)

/-- The exception for an inheritance cycle. -/
def cycleDetected (visited : List String) (name : String) : Failure :=
  .valueError ("[PROFILE] Inheritance cycle detected: " ++
    " -> ".intercalate (visited ++ [name]))

/-- The exception for a profile that does not exist. -/
def notFound (name : String) : Failure :=
  .valueError ("[PROFILE] Profile not found: '" ++ name ++ "'")

/-- `merge_extends`, with fuel for the profiles there are: it stops no later than at a cycle. -/
def mergeExtends (groups : ConflictGroups) (profiles : Profiles) :
    ℕ → List String → String → Except Failure (Dict String Value)
  | 0, visited, name => .error (cycleDetected visited name)
  | fuel + 1, visited, name =>
    if name ∈ visited then .error (cycleDetected visited name)
    else
      match profiles.get name with
      | none => .error (notFound name)
      | some profile =>
        match profile.parent with
        | none => .ok profile.keys
        | some parent =>
          mergeExtends groups profiles fuel (visited ++ [name]) parent >>= mergeOver groups profile

/-- A rule that matched: the profile it names, if any, and its priority. -/
structure Rule where
  profile : Option String
  priority : ℤ := 0

/-- The sections of the configuration that `resolve_profile` reads. -/
structure Config where
  profiles : Profiles
  defaultProfile : String := "bare"

/-- The rule that wins, with the profile it names: the first of the highest priority. -/
def winner (rules : List Rule) : Option (String × ℤ) :=
  rules.foldl (fun w rule =>
    match rule.profile, w with
    | none, w => w
    | some name, none => some (name, rule.priority)
    | some name, some w => if w.2 < rule.priority then some (name, rule.priority) else some w) none

/-- The profile to resolve. -/
def profileName (config : Config) (rules : List Rule) : String :=
  ((winner rules).map Prod.fst).getD config.defaultProfile

/-- The name under which the extracted profile is spliced in. -/
def sentinel : String := "pkgbuild_extracted"

/-- Flags are the keys without a leading `__`. -/
def IsFlag (key : String) : Prop := ¬ "__".toList.IsPrefix key.toList

instance (key : String) : Decidable (IsFlag key) := instDecidableNot

/-- The extracted profile as a root. -/
def root (extracted : Dict String Text) : Profile :=
  { keys := (extracted.filter fun k _ => IsFlag k).map fun _ v => .str v }

/-- The extracted profile spliced in below `bare`, unless `bare` extends something. -/
def inject (profiles : Profiles) (extracted : Dict String Text) : Profiles :=
  let profiles := profiles.set sentinel (root extracted)
  let bare := (profiles.get "bare").getD {}
  if bare.parent = none then profiles.set "bare" { bare with parent := some sentinel } else profiles

/-- `resolve_profile`, up to the expansions. -/
def resolveProfile (groups : ConflictGroups) (config : Config) (rules : List Rule)
    (extracted : Dict String Text) : Except Failure (Dict String Value) :=
  let profiles :=
    if extracted.items = [] then config.profiles else inject config.profiles extracted
  mergeExtends groups profiles (profiles.items.length + 1) [] (profileName config rules)

/-! ## The chain of a profile -/

/-- The profiles from `name` up to one that extends nothing, each with its name. -/
inductive IsChain (profiles : Profiles) : String → List (String × Profile) → Prop
  | root {name : String} {p : Profile} (hp : profiles.get name = some p) (h : p.parent = none) :
      IsChain profiles name [(name, p)]
  | step {name parent : String} {p : Profile} {l : List (String × Profile)}
      (hp : profiles.get name = some p) (h : p.parent = some parent)
      (hl : IsChain profiles parent l) : IsChain profiles name ((name, p) :: l)

/-- What a chain merges to. -/
def mergeChain (groups : ConflictGroups) : List (String × Profile) →
    Except Failure (Dict String Value)
  | [] => .ok .empty
  | [q] => .ok q.2.keys
  | q :: l => mergeChain groups l >>= mergeOver groups q.2

/-- What a profile does to one key. -/
def keyOver (groups : ConflictGroups) (key : String) (p : Profile) (v : Option Value) :
    Except Failure (Option Value) :=
  match p.keys.get key, p.append.get key with
  | some w, _ => .ok (some w)
  | none, some a => (mergeAppendValue groups (v.getD (.str [])) a).map some
  | none, none => .ok v

/-- What a chain merges to at one key. -/
def keyChain (groups : ConflictGroups) (key : String) : List (String × Profile) →
    Except Failure (Option Value)
  | [] => .ok none
  | [q] => .ok (q.2.keys.get key)
  | q :: l => keyChain groups key l >>= keyOver groups key q.2

variable {groups : ConflictGroups} {profiles : Profiles} {name key : String} {p : Profile}
  {l l' : List (String × Profile)} {parent merged r : Dict String Value}

theorem IsChain.det (h : IsChain profiles name l) (h' : IsChain profiles name l') : l = l' := by
  induction h generalizing l' with
  | root hp h =>
    cases h' with
    | root hp' h' =>
      rw [hp] at hp'
      cases hp'
      rfl
    | step hp' h' _ =>
      rw [hp] at hp'
      cases hp'
      rw [h] at h'
      cases h'
  | step hp h _ ih =>
    cases h' with
    | root hp' h' =>
      rw [hp] at hp'
      cases hp'
      rw [h] at h'
      cases h'
    | step hp' h' hl' =>
      rw [hp] at hp'
      cases hp'
      rw [h] at h'
      cases h'
      rw [ih hl']

/-- A chain meets a name at most once: from there on it is the chain of that name. -/
theorem IsChain.suffix (h : IsChain profiles name l) {q : String × Profile} (hq : q ∈ l) :
    ∃ l₁ l₂, l = l₁ ++ q :: l₂ ∧ IsChain profiles q.1 (q :: l₂) := by
  induction h with
  | root hp h =>
    rw [List.mem_singleton] at hq
    subst hq
    exact ⟨[], [], rfl, .root hp h⟩
  | @step name parent p l hp h hl ih =>
    obtain rfl | hq := List.mem_cons.mp hq
    · exact ⟨[], l, rfl, .step hp h hl⟩
    · obtain ⟨l₁, l₂, rfl, hc⟩ := ih hq
      exact ⟨(name, p) :: l₁, l₂, rfl, hc⟩

theorem IsChain.nodup (h : IsChain profiles name l) : (Assoc.keys l).Nodup := by
  induction h with
  | root _ _ => exact List.nodup_singleton _
  | @step name parent p l hp h hl ih =>
    refine List.nodup_cons.mpr ⟨fun hmem => ?_, ih⟩
    obtain ⟨q, hq, hname⟩ := List.mem_map.mp hmem
    obtain ⟨l₁, l₂, rfl, hc⟩ := hl.suffix hq
    rw [hname] at hc
    have hlen := congrArg List.length (hc.det (.step hp h hl))
    simp only [List.length_cons, List.length_append] at hlen
    omega

theorem IsChain.get (h : IsChain profiles name l) {q : String × Profile} (hq : q ∈ l) :
    profiles.get q.1 = some q.2 := by
  obtain ⟨l₁, l₂, rfl, hc⟩ := h.suffix hq
  obtain ⟨n, p⟩ := q
  cases hc with
  | root hp _ => exact hp
  | step hp _ _ => exact hp

theorem IsChain.length_le (h : IsChain profiles name l) : l.length ≤ profiles.items.length := by
  have hsub : ∀ n ∈ Assoc.keys l, n ∈ profiles.keys := by
    intro n hn
    obtain ⟨q, hq, rfl⟩ := List.mem_map.mp hn
    by_contra hmem
    rw [← Dict.get_eq_none, h.get hq] at hmem
    cases hmem
  have hlen := (List.subperm_of_subset h.nodup hsub).length_le
  simpa [Assoc.keys, Dict.keys] using hlen

theorem mergeChain_cons (q : String × Profile) (h : l ≠ []) :
    mergeChain groups (q :: l) = mergeChain groups l >>= mergeOver groups q.2 := by
  cases l with
  | nil => exact absurd rfl h
  | cons _ _ => rfl

theorem keyChain_cons (q : String × Profile) (h : l ≠ []) :
    keyChain groups key (q :: l) = keyChain groups key l >>= keyOver groups key q.2 := by
  cases l with
  | nil => exact absurd rfl h
  | cons _ _ => rfl

theorem IsChain.ne_nil (h : IsChain profiles name l) : l ≠ [] := by
  cases h with
  | root _ _ => simp
  | step _ _ _ => simp

/-- On a chain, `mergeExtends` merges it. -/
theorem IsChain.mergeExtends_eq (h : IsChain profiles name l) {fuel : ℕ} {visited : List String}
    (hf : l.length ≤ fuel) (hv : (visited ++ Assoc.keys l).Nodup) :
    mergeExtends groups profiles fuel visited name = mergeChain groups l := by
  induction h generalizing fuel visited with
  | @root name p hp h =>
    obtain ⟨fuel, rfl⟩ : ∃ n, fuel = n + 1 := ⟨fuel - 1, by simp at hf; omega⟩
    have hname : name ∉ visited := by
      rw [List.nodup_append] at hv
      exact fun hmem => hv.2.2 _ hmem _ (by simp) rfl
    simp only [mergeExtends, if_neg hname, hp, h, mergeChain]
  | @step name parent p l hp h hl ih =>
    obtain ⟨fuel, rfl⟩ : ∃ n, fuel = n + 1 := ⟨fuel - 1, by simp at hf; omega⟩
    have hname : name ∉ visited := by
      rw [List.nodup_append] at hv
      exact fun hmem => hv.2.2 _ hmem _ (by simp) rfl
    have hrec := @ih fuel (visited ++ [name]) (by simpa using hf) (by simpa using hv)
    simp only [mergeExtends, if_neg hname, hp, h]
    rw [hrec, mergeChain_cons _ hl.ne_nil]

theorem exists_isChain {fuel : ℕ} {visited : List String}
    (h : mergeExtends groups profiles fuel visited name = .ok r) :
    ∃ l, IsChain profiles name l := by
  induction fuel generalizing visited name r with
  | zero => cases h
  | succ fuel ih =>
    rw [mergeExtends] at h
    split_ifs at h with hv
    cases hp : profiles.get name with
    | none =>
      rw [hp] at h
      cases h
    | some p =>
      rw [hp] at h
      cases hpar : p.parent with
      | none => exact ⟨_, .root hp hpar⟩
      | some parent =>
        simp only [hpar] at h
        cases hrec : mergeExtends groups profiles fuel (visited ++ [name]) parent with
        | error e =>
          rw [hrec] at h
          cases h
        | ok d =>
          obtain ⟨l, hl⟩ := ih hrec
          exact ⟨_, .step hp hpar hl⟩

/-- **`merge_extends` succeeds on the chains that merge**, and nowhere else. -/
theorem mergeExtends_ok_iff : mergeExtends groups profiles (profiles.items.length + 1) [] name =
    .ok r ↔ ∃ l, IsChain profiles name l ∧ mergeChain groups l = .ok r := by
  constructor
  · intro h
    obtain ⟨l, hl⟩ := exists_isChain h
    rw [hl.mergeExtends_eq (Nat.le_succ_of_le hl.length_le) (by simpa using hl.nodup)] at h
    exact ⟨l, hl, h⟩
  · rintro ⟨l, hl, h⟩
    rw [hl.mergeExtends_eq (Nat.le_succ_of_le hl.length_le) (by simpa using hl.nodup), h]

/-! ## Key by key -/

theorem bind_ok {α β : Type} {x : Except Failure α} {f : α → Except Failure β} {b : β} :
    x >>= f = .ok b ↔ ∃ a, x = .ok a ∧ f a = .ok b := by
  cases x with
  | error e => exact ⟨nofun, by rintro ⟨a, h, -⟩; cases h⟩
  | ok a => exact ⟨fun h => ⟨a, rfl, h⟩, by rintro ⟨a', h, h'⟩; cases h; exact h'⟩

/-- An item of the `append` table changes at most its own key. -/
theorem appendItem_ok_iff {direct : Dict String Value} {item : String × Value} :
    appendItem groups parent direct merged item = .ok r ↔
      if item.1 ∈ direct.keys then merged = r
      else ∃ v, mergeAppendValue groups ((parent.get item.1).getD (.str [])) item.2 = .ok v ∧
        merged.set item.1 v = r := by
  rw [appendItem]
  split
  · exact ⟨fun h => by cases h; rfl, fun h => by rw [h]⟩
  · rw [bind_ok]
    refine exists_congr fun v => and_congr_right fun _ => ?_
    exact ⟨fun h => by cases h; rfl, fun h => by rw [h]⟩

theorem foldlM_appendItem_get {direct : Dict String Value} {items : List (String × Value)}
    (hn : (Assoc.keys items).Nodup)
    (h : items.foldlM (appendItem groups parent direct) merged = .ok r) :
    (key ∈ direct.keys ∨ items.lookup key = none → r.get key = merged.get key) ∧
      ∀ a, key ∉ direct.keys → items.lookup key = some a →
        ∃ v, mergeAppendValue groups ((parent.get key).getD (.str [])) a = .ok v ∧
          r.get key = some v := by
  induction items generalizing merged with
  | nil =>
    cases h
    exact ⟨fun _ => rfl, nofun⟩
  | cons item items ih =>
    rw [Assoc.keys_cons, List.nodup_cons] at hn
    rw [List.foldlM_cons, bind_ok] at h
    obtain ⟨merged', h₁, h⟩ := h
    obtain ⟨hskip, hitem⟩ := ih hn.2 h
    rw [appendItem_ok_iff] at h₁
    rw [Assoc.lookup_cons_eq]
    have hget : key ≠ item.1 → merged'.get key = merged.get key := by
      intro hk
      split at h₁
      · rw [h₁]
      · obtain ⟨v, -, rfl⟩ := h₁
        rw [Dict.get_set, if_neg hk]
    by_cases hk : key = item.1
    · subst hk
      have hnone := Assoc.lookup_eq_none.2 hn.1
      rw [if_pos rfl]
      refine ⟨fun hd => ?_, fun a hd ha => ?_⟩
      · have hd := hd.resolve_right (Option.some_ne_none _)
        rw [if_pos hd] at h₁
        rw [hskip (.inr hnone), h₁]
      · cases ha
        rw [if_neg hd] at h₁
        obtain ⟨v, hv, rfl⟩ := h₁
        refine ⟨v, hv, ?_⟩
        rw [hskip (.inr hnone), Dict.get_set, if_pos rfl]
    · rw [if_neg hk]
      exact ⟨fun hd => (hskip hd).trans (hget hk), hitem⟩

theorem exists_foldlM_appendItem {direct : Dict String Value} {items : List (String × Value)}
    (h : ∀ item ∈ items, item.1 ∉ direct.keys →
      ∃ v, mergeAppendValue groups ((parent.get item.1).getD (.str [])) item.2 = .ok v) :
    ∃ r, items.foldlM (appendItem groups parent direct) merged = .ok r := by
  induction items generalizing merged with
  | nil => exact ⟨merged, rfl⟩
  | cons item items ih =>
    obtain ⟨merged', h₁⟩ : ∃ m, appendItem groups parent direct merged item = .ok m := by
      simp only [appendItem_ok_iff]
      split
      · exact ⟨merged, rfl⟩
      next hd =>
        obtain ⟨v, hv⟩ := h item List.mem_cons_self hd
        exact ⟨_, v, hv, rfl⟩
    obtain ⟨r, hr⟩ := @ih merged' fun i hi => h i (List.mem_cons_of_mem _ hi)
    refine ⟨r, ?_⟩
    rw [List.foldlM_cons, h₁]
    exact hr

/-- What a profile does to the dictionary it extends, key by key. -/
theorem mergeOver_get (h : mergeOver groups p parent = .ok r) (key : String) :
    keyOver groups key p (parent.get key) = .ok (r.get key) := by
  obtain ⟨hskip, hitem⟩ := @foldlM_appendItem_get _ key _ _ _ _ _ p.append.nodup h
  rw [Dict.get_update] at hskip
  rw [keyOver]
  cases hk : p.keys.get key with
  | some w =>
    have hmem : key ∈ p.keys.keys := by
      by_contra hmem
      rw [Dict.get_eq_none.2 hmem] at hk
      cases hk
    rw [hskip (.inl hmem), hk, Option.some_or]
  | none =>
    have hmem := Dict.get_eq_none.1 hk
    cases ha : p.append.get key with
    | none =>
      rw [hskip (.inr ha), hk, Option.none_or]
    | some a =>
      obtain ⟨v, hv, hr⟩ := hitem a hmem ha
      simp only [hv, hr]
      rfl

theorem exists_mergeOver
    (h : ∀ key, ∃ v, keyOver groups key p (parent.get key) = .ok v) :
    ∃ r, mergeOver groups p parent = .ok r := by
  refine exists_foldlM_appendItem fun item hitem hd => ?_
  obtain ⟨v, hv⟩ := h item.1
  rw [keyOver, Dict.get_eq_none.2 hd, Dict.mem_items.1 hitem] at hv
  cases hm : mergeAppendValue groups ((parent.get item.1).getD (.str [])) item.2 with
  | ok w => exact ⟨w, rfl⟩
  | error e =>
    simp only [hm] at hv
    cases hv

/-- **A chain merges key by key.** -/
theorem mergeChain_get (h : mergeChain groups l = .ok r) (key : String) :
    keyChain groups key l = .ok (r.get key) := by
  induction l generalizing r with
  | nil =>
    cases h
    rfl
  | cons q l ih =>
    cases l with
    | nil =>
      cases h
      rfl
    | cons q' l =>
      obtain ⟨parent, hparent, h⟩ := bind_ok.1 h
      exact bind_ok.2 ⟨_, ih hparent, mergeOver_get h key⟩

/-- A chain that merges at every key merges. -/
theorem exists_mergeChain (h : ∀ key, ∃ v, keyChain groups key l = .ok v) :
    ∃ r, mergeChain groups l = .ok r := by
  induction l with
  | nil => exact ⟨_, rfl⟩
  | cons q l ih =>
    cases l with
    | nil => exact ⟨_, rfl⟩
    | cons q' l =>
      have hsplit : ∀ key, ∃ v w, keyChain groups key (q' :: l) = .ok v ∧
          keyOver groups key q.2 v = .ok w := by
        intro key
        obtain ⟨w, hw⟩ := h key
        obtain ⟨v, hv, hw⟩ := bind_ok.1 hw
        exact ⟨v, w, hv, hw⟩
      obtain ⟨parent, hparent⟩ := ih fun key => by
        obtain ⟨v, w, hv, -⟩ := hsplit key
        exact ⟨v, hv⟩
      obtain ⟨r, hr⟩ := @exists_mergeOver groups q.2 parent fun key => by
        obtain ⟨v, w, hv, hw⟩ := hsplit key
        rw [mergeChain_get hparent key] at hv
        cases hv
        exact ⟨w, hw⟩
      exact ⟨r, bind_ok.2 ⟨parent, hparent, hr⟩⟩

end Profile

end Sysforge
