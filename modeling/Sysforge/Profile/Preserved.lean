import Sysforge.Profile.Append

/-!
# Preserved system tokens

A profile that sets a key in full drops the hardening flags of the system conf.
`apply_preserved_system_tokens` puts the declared ones back, unless the profile opted out of them:
`mergePreservedTokens` does so for one value, and the pass goes over the keys, plain values before
references, so that a reference is measured against what it expands to.
-/

namespace Sysforge.Profile

open Text

/-! ## The code -/

/-- `_qualifies` of `merge_preserved_tokens`. -/
def qualifies (groups : ConflictGroups) (preserve : List Text) (token : Text) : Bool :=
  token ∈ preserve ||
    preserve.any (fun t => ((flagToGroup groups).get t).any fun members => token ∈ members) ||
    (extractPrefix token).any fun p => preserve.any fun t => extractPrefix t = some p

/-- The result tokens and the restored ones, after one more token of the system value. -/
def restoreToken (groups : ConflictGroups) (preserve : List Text) (acc : List Text × List Text)
    (token : Text) : List Text × List Text :=
  if token ∈ acc.1 || !qualifies groups preserve token then acc
  else if ((flagToGroup groups).get token).any fun group => acc.1.any fun t => t ∈ group then acc
  else if (extractPrefix token).any fun p => acc.1.any fun t => extractPrefix t = some p then acc
  else (acc.1 ++ [token], acc.2 ++ [token])

/-- `merge_preserved_tokens`. -/
def mergePreservedTokens (groups : ConflictGroups) (profileVal systemVal : Text)
    (preserve : List Text) : Text × List Text :=
  if preserve = [] ∨ profileVal = [] ∨ systemVal = [] then (profileVal, [])
  else if (words profileVal).length = 1 ∧ ['$'].isPrefixOf ((words profileVal).headD []) then
    (profileVal, [])
  else
    let r := (words systemVal).foldl (restoreToken groups preserve) (words profileVal, [])
    (unwords r.1, r.2)

/-- `unquote_conf_value`. -/
def unquoteConfValue (raw : Text) : Text :=
  let raw := strip raw
  if 2 ≤ raw.length ∧ raw.head? = some '"' ∧ raw.getLast? = some '"' then raw.tail.dropLast
  else raw

/-- `[A-Za-z0-9_]`. -/
def isIdent (c : Char) : Bool := c.isAlphanum || c = '_'

/-- `_pure_shell_ref`: the key a value that is only `$KEY` or a braced one names. -/
def pureShellRef (value : Text) : Option String :=
  match strip value with
  | '$' :: rest =>
    let body := if rest.head? = some '\x7b' then rest.tail else rest
    let name := body.takeWhile isIdent
    let rest := body.dropWhile isIdent
    if name = [] ∨ (name.headD ' ').isDigit ∨ (rest ≠ [] ∧ rest ≠ ['\x7d']) then none
    else some (String.ofList name)
  | _ => none

/-- The key that a value of the map is a reference to. -/
def refOf (values : Dict String Value) (key : String) : Option String :=
  match values.get key with
  | some (.str v) => pureShellRef v
  | _ => none

/-- What a reference is measured against: the value of the map, else that of the system. -/
def baseOf (merged : Dict String Value) (system : Dict String Text) (ref : String) : Text :=
  match merged.get ref with
  | some (.str v) => v
  | _ => unquoteConfValue ((system.get ref).getD [])

/-- The value of a key after the pass, and the tokens restored to it. -/
def restoreValue (groups : ConflictGroups) (merged : Dict String Value)
    (system : Dict String Text) (ref : Option String) (v raw : Text) (tokens : List Text) :
    Text × List Text :=
  match ref with
  | some ref =>
    let restored := (mergePreservedTokens groups (baseOf merged system ref)
      (unquoteConfValue raw) tokens).2
    (if restored = [] then v else v ++ ' ' :: unwords restored, restored)
  | none => mergePreservedTokens groups v (unquoteConfValue raw) tokens

/-- One key of the pass. -/
def preserveKey (groups : ConflictGroups) (values : Dict String Value)
    (system : Dict String Text) (preserved : Dict String (List Text))
    (acc : Dict String Value × Dict String (List Text)) (key : String) :
    Dict String Value × Dict String (List Text) :=
  match acc.1.get key, system.get key, preserved.get key with
  | some (.str v), some raw, some tokens =>
    let r := restoreValue groups acc.1 system (refOf values key) v raw tokens
    if r.2 = [] then acc else (acc.1.set key (.str r.1), acc.2.set key r.2)
  | _, _, _ => acc

/-- The keys in the order of the pass: plain values first, references after. -/
def preserveOrder (values : Dict String Value) (preserved : Dict String (List Text)) :
    List String :=
  preserved.keys.filter (fun k => (refOf values k).isNone) ++
    preserved.keys.filter fun k => (refOf values k).isSome

/-- `apply_preserved_system_tokens`: the merged values and the restored tokens by key. -/
def applyPreservedSystemTokens (groups : ConflictGroups) (values : Dict String Value)
    (system : Dict String Text) (preserved : Dict String (List Text)) (enabled : Bool) :
    Dict String Value × Dict String (List Text) :=
  if !enabled ∨ preserved.items = [] ∨ system.items = [] then (values, .empty)
  else
    (preserveOrder values preserved).foldl (preserveKey groups values system preserved)
      (values, .empty)

/-! ## What restoring one value gives -/

/-- Two flags of one conflict group. -/
def SharesGroup (groups : ConflictGroups) (t u : Text) : Prop :=
  ∃ g ∈ groups.items, t ∈ g.2 ∧ u ∈ g.2

/-- Two flags of one prefix family. -/
def SharesPrefix (t u : Text) : Prop := ∃ p, extractPrefix t = some p ∧ extractPrefix u = some p

/-- One flag stands against the other. -/
def Conflicts (groups : ConflictGroups) (t u : Text) : Prop :=
  SharesGroup groups t u ∨ SharesPrefix t u

/-- The preserve list covers a flag: listed, or in the group or the family of a listed one. -/
def Qualifies (groups : ConflictGroups) (preserve : List Text) (t : Text) : Prop :=
  ∃ u ∈ preserve, t = u ∨ Conflicts groups t u

/-- No flag is in two conflict groups. -/
def DisjointGroups (groups : ConflictGroups) : Prop :=
  ∀ g ∈ groups.items, ∀ g' ∈ groups.items, ∀ t, t ∈ g.2 → t ∈ g'.2 → g = g'

/-- `rs` is what `sys` restores onto `own`. -/
structure Restores (groups : ConflictGroups) (preserve own sys rs : List Text) : Prop where
  sublist : rs.Sublist sys
  qualifies : ∀ t ∈ rs, Qualifies groups preserve t
  clear : ∀ t ∈ rs, ∀ u ∈ own, ¬ Conflicts groups t u
  complete : ∀ t ∈ sys, Qualifies groups preserve t →
    t ∈ own ++ rs ∨ ∃ u ∈ own ++ rs, Conflicts groups t u

variable {groups : ConflictGroups} {preserve own sys rs : List Text} {t u v s : Text}
  {key : String} {values merged : Dict String Value} {system : Dict String Text}
  {preserved : Dict String (List Text)}

theorem flagToGroup_eq_some (hg : DisjointGroups groups) {members : List Text} :
    (flagToGroup groups).get t = some members ↔
      ∃ g ∈ groups.items, g.2 = members ∧ t ∈ members := by
  have hmem : ∀ q, q ∈ groups.items.flatMap (fun g => g.2.map fun m => (m, g.2)) ↔
      ∃ g ∈ groups.items, g.2 = q.2 ∧ q.1 ∈ g.2 := by
    intro q
    simp only [List.mem_flatMap, List.mem_map]
    constructor
    · rintro ⟨g, hgm, m, hm, rfl⟩
      exact ⟨g, hgm, rfl, hm⟩
    · rintro ⟨g, hgm, hq, hm⟩
      exact ⟨g, hgm, q.1, hm, Prod.ext rfl hq⟩
  have hf : ∀ q ∈ groups.items.flatMap (fun g => g.2.map fun m => (m, g.2)),
      (groups.items.find? fun g => q.1 ∈ g.2).map Prod.snd = some q.2 := by
    intro q hq
    obtain ⟨g, hgm, hq, hm⟩ := (hmem q).1 hq
    obtain ⟨g', hfind⟩ : ∃ g', groups.items.find? (fun g => decide (q.1 ∈ g.2)) = some g' := by
      rw [← Option.isSome_iff_exists, List.find?_isSome]
      exact ⟨g, hgm, by simpa using hm⟩
    have hm' : q.1 ∈ g'.2 := by simpa using List.find?_some hfind
    rw [hfind, hg _ (List.mem_of_find?_eq_some hfind) _ hgm q.1 hm' hm, Option.map_some, hq]
  constructor
  · intro h
    obtain ⟨g, hgm, hq, hm⟩ := (hmem _).1 (Dict.mem_of_get_ofItems h)
    rw [hq] at hm
    exact ⟨g, hgm, hq, hm⟩
  · rintro ⟨g, hgm, hq, hm⟩
    have hin := (hmem (t, members)).2 ⟨g, hgm, hq, hq ▸ hm⟩
    rw [flagToGroup, Dict.get_ofItems (f := fun t =>
      (groups.items.find? fun g => t ∈ g.2).map Prod.snd) hf, if_pos]
    · exact hf _ hin
    · exact List.mem_map_of_mem (f := Prod.fst) hin

theorem sharesGroup_iff (hg : DisjointGroups groups) : SharesGroup groups t u ↔
    ∃ members, (flagToGroup groups).get t = some members ∧ u ∈ members := by
  constructor
  · rintro ⟨g, hgm, ht, hu⟩
    exact ⟨g.2, (flagToGroup_eq_some hg).2 ⟨g, hgm, rfl, ht⟩, hu⟩
  · rintro ⟨members, h, hu⟩
    obtain ⟨g, hgm, rfl, ht⟩ := (flagToGroup_eq_some hg).1 h
    exact ⟨g, hgm, ht, hu⟩

theorem SharesGroup.symm (h : SharesGroup groups t u) : SharesGroup groups u t := by
  obtain ⟨g, hg, ht, hu⟩ := h
  exact ⟨g, hg, hu, ht⟩

theorem qualifies_iff (hg : DisjointGroups groups) :
    qualifies groups preserve t = true ↔ Qualifies groups preserve t := by
  simp only [qualifies, Bool.or_eq_true, List.any_eq_true, Option.any_eq_true, decide_eq_true_eq]
  constructor
  · rintro ((h | ⟨u, hu, members, hm, ht⟩) | ⟨p, hp, u, hu, hpu⟩)
    · exact ⟨t, h, .inl rfl⟩
    · exact ⟨u, hu, .inr (.inl ((sharesGroup_iff hg).2 ⟨members, hm, ht⟩).symm)⟩
    · exact ⟨u, hu, .inr (.inr ⟨p, hp, hpu⟩)⟩
  · rintro ⟨u, hu, rfl | h | ⟨p, hp, hpu⟩⟩
    · exact .inl (.inl hu)
    · obtain ⟨members, hm, ht⟩ := (sharesGroup_iff hg).1 h.symm
      exact .inl (.inr ⟨u, hu, members, hm, ht⟩)
    · exact .inr ⟨p, hp, u, hu, hpu⟩

/-- A token of the system value is restored, or there is a reason why not. -/
theorem restoreToken_cases (hg : DisjointGroups groups) (acc : List Text × List Text) (t : Text) :
    restoreToken groups preserve acc t = acc ∧
        (t ∈ acc.1 ∨ ¬ Qualifies groups preserve t ∨ ∃ u ∈ acc.1, Conflicts groups t u) ∨
      restoreToken groups preserve acc t = (acc.1 ++ [t], acc.2 ++ [t]) ∧
        Qualifies groups preserve t ∧ ∀ u ∈ acc.1, ¬ Conflicts groups t u := by
  rw [restoreToken]
  split
  next h =>
    refine .inl ⟨rfl, ?_⟩
    rw [Bool.or_eq_true, decide_eq_true_eq, Bool.not_eq_true', ← Bool.not_eq_true,
      qualifies_iff hg] at h
    exact h.imp_right .inl
  next h =>
    rw [Bool.or_eq_true, not_or, Bool.not_eq_true', Bool.not_eq_false, qualifies_iff hg] at h
    split
    next hgroup =>
      refine .inl ⟨rfl, .inr (.inr ?_)⟩
      simp only [Option.any_eq_true, List.any_eq_true, decide_eq_true_eq] at hgroup
      obtain ⟨members, hm, u, hu, hin⟩ := hgroup
      exact ⟨u, hu, .inl ((sharesGroup_iff hg).2 ⟨members, hm, hin⟩)⟩
    next hgroup =>
      split
      next hp =>
        refine .inl ⟨rfl, .inr (.inr ?_)⟩
        simp only [Option.any_eq_true, List.any_eq_true, decide_eq_true_eq] at hp
        obtain ⟨p, hp, u, hu, hpu⟩ := hp
        exact ⟨u, hu, .inr ⟨p, hp, hpu⟩⟩
      next hp =>
        refine .inr ⟨rfl, h.2, fun u hu hc => ?_⟩
        rcases hc with hc | ⟨p, hpt, hpu⟩
        · obtain ⟨members, hm, hin⟩ := (sharesGroup_iff hg).1 hc
          exact hgroup (by simp [hm]; exact ⟨u, hu, hin⟩)
        · exact hp (by simp [hpt]; exact ⟨u, hu, hpu⟩)

/-- The loop over the tokens of the system value. -/
theorem foldl_restoreToken (hg : DisjointGroups groups) (sys own rs₀ : List Text) :
    ∃ rs, sys.foldl (restoreToken groups preserve) (own, rs₀) = (own ++ rs, rs₀ ++ rs) ∧
      Restores groups preserve own sys rs := by
  induction sys generalizing own rs₀ with
  | nil => exact ⟨[], by simp, .slnil, nofun, nofun, nofun⟩
  | cons t sys ih =>
    rw [List.foldl_cons]
    rcases @restoreToken_cases groups preserve hg (own, rs₀) t with
      ⟨he, hwhy⟩ | ⟨he, hq, hclear⟩
    · obtain ⟨rs, hf, hr⟩ := ih own rs₀
      refine ⟨rs, by rw [he, hf], hr.sublist.cons _, hr.qualifies, hr.clear, fun t' ht' hq => ?_⟩
      obtain rfl | ht' := List.mem_cons.mp ht'
      · rcases hwhy with hin | hnq | ⟨u, hu, hc⟩
        · exact .inl (List.mem_append_left _ hin)
        · exact absurd hq hnq
        · exact .inr ⟨u, List.mem_append_left _ hu, hc⟩
      · exact hr.complete t' ht' hq
    · obtain ⟨rs, hf, hr⟩ := ih (own ++ [t]) (rs₀ ++ [t])
      refine ⟨t :: rs, by rw [he, hf]; simp, hr.sublist.cons_cons _, fun t' ht' => ?_,
        fun t' ht' u hu => ?_, fun t' ht' hq' => ?_⟩
      · obtain rfl | ht' := List.mem_cons.mp ht'
        · exact hq
        · exact hr.qualifies t' ht'
      · obtain rfl | ht' := List.mem_cons.mp ht'
        · exact hclear u hu
        · exact hr.clear t' ht' u (List.mem_append_left _ hu)
      · obtain rfl | ht' := List.mem_cons.mp ht'
        · exact .inl (List.mem_append_right _ List.mem_cons_self)
        · have := hr.complete t' ht' hq'
          rwa [List.append_assoc, List.singleton_append] at this

/-- **Restoring onto one value**: its tokens stay, and what is restored follows them. -/
theorem mergePreservedTokens_spec (hg : DisjointGroups groups) (hne : words v ≠ [])
    (hsingle : ¬((words v).length = 1 ∧ ['$'].isPrefixOf ((words v).headD []))) :
    words (mergePreservedTokens groups v s preserve).1 =
        words v ++ (mergePreservedTokens groups v s preserve).2 ∧
      Restores groups preserve (words v) (words s)
        (mergePreservedTokens groups v s preserve).2 := by
  have hv : v ≠ [] := fun h => hne (by rw [h]; rfl)
  rw [mergePreservedTokens]
  split
  next h =>
    refine ⟨by simp, List.nil_sublist _, nofun, nofun, fun t ht hq => ?_⟩
    rcases h with h | h | h
    · subst h
      obtain ⟨u, hu, -⟩ := hq
      cases hu
    · exact absurd h hv
    · subst h
      cases ht
  · obtain ⟨rs, hf, hr⟩ := @foldl_restoreToken groups preserve hg (words s) (words v) []
    rw [hf, List.nil_append]
    refine ⟨words_unwords fun w hw => ?_, hr⟩
    have hw : w ∈ words v ∨ w ∈ words s := by
      rcases List.mem_append.mp hw with hw | hw
      · exact .inl hw
      · exact .inr (hr.sublist.subset hw)
    rcases hw with hw | hw
    · exact ⟨(mem_words hw).1, fun c hc => ((mem_words hw).2 c hc).1⟩
    · exact ⟨(mem_words hw).1, fun c hc => ((mem_words hw).2 c hc).1⟩

/-! ## The pass -/

theorem preserveKey_frame {acc : Dict String Value × Dict String (List Text)} {k : String}
    (hk : key ≠ k) : (preserveKey groups values system preserved acc k).1.get key =
      acc.1.get key := by
  rw [preserveKey]
  split
  · dsimp only
    split
    · rfl
    · rw [Dict.get_set, if_neg hk]
  · rfl

theorem foldl_preserveKey_frame {acc : Dict String Value × Dict String (List Text)}
    {l : List String} (hk : key ∉ l) :
    (l.foldl (preserveKey groups values system preserved) acc).1.get key = acc.1.get key := by
  induction l generalizing acc with
  | nil => rfl
  | cons k l ih =>
    rw [List.mem_cons, not_or] at hk
    rw [List.foldl_cons, ih hk.2, preserveKey_frame hk.1]

/-- A key outside the tables, or without a text, is left alone when its turn comes. -/
theorem preserveKey_skip {acc : Dict String Value × Dict String (List Text)}
    (h : preserved.get key = none ∨ system.get key = none ∨ ∀ v, acc.1.get key ≠ some (.str v)) :
    preserveKey groups values system preserved acc key = acc := by
  rw [preserveKey]
  split
  next v raw tokens hv hraw htok =>
    rw [hv, hraw, htok] at h
    rcases h with h | h | h
    · cases h
    · cases h
    · exact absurd rfl (h v)
  · rfl

theorem mem_preserveOrder : key ∈ preserveOrder values preserved ↔ key ∈ preserved.keys := by
  simp only [preserveOrder, List.mem_append, List.mem_filter]
  cases refOf values key <;> simp

theorem nodup_preserveOrder : (preserveOrder values preserved).Nodup := by
  refine List.nodup_append.mpr ⟨preserved.nodup.filter _, preserved.nodup.filter _, ?_⟩
  rintro a ha b hb rfl
  have ha := (List.mem_filter.mp ha).2
  have hb := (List.mem_filter.mp hb).2
  cases h : refOf values a <;> simp [h] at ha hb

/-- When a key has its turn it still has its own value; its value is final after it, and, when it
is a reference, so are all values that are no reference. -/
theorem exists_turn (hk : key ∈ preserved.keys) : ∃ acc : Dict String Value × _,
    acc.1.get key = values.get key ∧
    ((preserveOrder values preserved).foldl (preserveKey groups values system preserved)
        (values, .empty)).1.get key =
      (preserveKey groups values system preserved acc key).1.get key ∧
    (refOf values key ≠ none → ∀ k, refOf values k = none → acc.1.get k =
      ((preserveOrder values preserved).foldl (preserveKey groups values system preserved)
        (values, .empty)).1.get k) := by
  have hn := @nodup_preserveOrder values preserved
  have hmem := (@mem_preserveOrder key values preserved).2 hk
  by_cases hr : refOf values key = none
  · obtain ⟨l₁, l₂, hl⟩ := List.append_of_mem hmem
    rw [hl] at hn ⊢
    have hn' := List.nodup_middle.mp hn
    rw [List.nodup_cons, List.mem_append, not_or] at hn'
    refine ⟨l₁.foldl (preserveKey groups values system preserved) (values, .empty),
      foldl_preserveKey_frame hn'.1.1, ?_, fun h => absurd hr h⟩
    rw [List.foldl_append, List.foldl_cons, foldl_preserveKey_frame hn'.1.2]
  · have hmem : key ∈ preserved.keys.filter fun k => (refOf values k).isSome := by
      rw [List.mem_filter]
      exact ⟨hk, Option.isSome_iff_ne_none.2 hr⟩
    obtain ⟨l₁, l₂, hl⟩ := List.append_of_mem hmem
    have hrefs : ∀ k ∈ key :: l₂, refOf values k ≠ none := by
      intro k hk
      have : k ∈ preserved.keys.filter fun k => (refOf values k).isSome :=
        hl ▸ List.mem_append_right _ hk
      exact Option.isSome_iff_ne_none.1 (List.mem_filter.mp this).2
    rw [preserveOrder, hl, ← List.append_assoc] at hn ⊢
    have hn' := List.nodup_middle.mp hn
    rw [List.nodup_cons, List.mem_append, not_or] at hn'
    refine ⟨(preserved.keys.filter (fun k => (refOf values k).isNone) ++ l₁).foldl
      (preserveKey groups values system preserved) (values, .empty),
      foldl_preserveKey_frame hn'.1.1, ?_, fun _ k hkr => ?_⟩
    · rw [List.foldl_append, List.foldl_cons, foldl_preserveKey_frame hn'.1.2]
    · refine Eq.symm ?_
      rw [List.foldl_append, foldl_preserveKey_frame fun h => hrefs k h hkr]

/-- The pass, also where it has nothing to do. -/
theorem applyPreservedSystemTokens_eq :
    (applyPreservedSystemTokens groups values system preserved true).1 =
      ((preserveOrder values preserved).foldl (preserveKey groups values system preserved)
        (values, .empty)).1 := by
  rw [applyPreservedSystemTokens]
  simp only [Bool.not_true, Bool.false_eq_true, false_or]
  split
  next h =>
    have hskip : ∀ l : List String, l.foldl (preserveKey groups values system preserved)
        (values, .empty) = (values, .empty) := by
      intro l
      induction l with
      | nil => rfl
      | cons k l ih =>
        rw [List.foldl_cons, preserveKey_skip, ih]
        rcases h with h | h
        · exact .inl (by rw [Dict.get, h]; rfl)
        · exact .inr (.inl (by rw [Dict.get, h]; rfl))
    rw [hskip]
  · rfl

/-! ## What the pass promises -/

/-- The value a key is measured against: its own, or the one it refers to. -/
def measured (values : Dict String Value) (system : Dict String Text) (v : Text) : Text :=
  match pureShellRef v with
  | some ref => baseOf values system ref
  | none => v

/-- The value refers to the key, as `$KEY` or in braces. -/
def Refers (key : String) (v : Text) : Prop :=
  ∃ pre post, (v = pre ++ '$' :: (key.toList ++ post) ∧ ¬ post.head?.any isIdent) ∨
    v = pre ++ '$' :: '\x7b' :: (key.toList ++ '\x7d' :: post)

/-- A value that spells its tokens out: it has one, is no reference, and refers to no key of the
map. -/
structure IsLiteral (values : Dict String Value) (v : Text) : Prop where
  token : words v ≠ []
  noRef : pureShellRef v = none
  single : ¬((words v).length = 1 ∧ ['$'].isPrefixOf ((words v).headD []))
  noKey : ∀ key ∈ values.keys, ¬ Refers key v

/-- The key has its tokens, and its expansion is its own tokens, then those the referenced key was
given, then those it was given itself. -/
structure KeyPreserved (groups : ConflictGroups) (values : Dict String Value)
    (system : Dict String Text) (preserved : Dict String (List Text)) (merged : Dict String Value)
    (key : String) (v raw : Text) (tokens : List Text) (v' : Text)
    (inherited restored : List Text) : Prop where
  value : merged.get key = some (.str v')
  words_eq : words v' = words v ++ restored
  expanded : words (measured merged system v) = words (measured values system v) ++ inherited
  of_inherited : ∀ t ∈ inherited, ∃ ref raw' tokens', pureShellRef v = some ref ∧
    system.get ref = some raw' ∧ preserved.get ref = some tokens' ∧
    t ∈ words (unquoteConfValue raw') ∧ Qualifies groups tokens' t
  of_restored : ∀ t ∈ restored, t ∈ words (unquoteConfValue raw) ∧ Qualifies groups tokens t
  clear : ∀ t ∈ inherited ++ restored, ∀ u ∈ words (measured values system v),
    ¬ Conflicts groups t u
  complete : ∀ t ∈ words (unquoteConfValue raw), Qualifies groups tokens t →
    ∃ u ∈ words (measured values system v) ++ inherited ++ restored, t = u ∨ Conflicts groups t u

/-- What the pass leaves of a map: keys it has nothing to say about are as they were, and a key
whose value is literal, or is a reference to a literal value, is preserved. -/
structure Preserves (groups : ConflictGroups) (values : Dict String Value)
    (system : Dict String Text) (preserved : Dict String (List Text))
    (merged : Dict String Value) : Prop where
  frame : ∀ key, preserved.get key = none ∨ system.get key = none ∨
    (∀ v, values.get key ≠ some (.str v)) → merged.get key = values.get key
  preserved : ∀ key v raw tokens, values.get key = some (.str v) → system.get key = some raw →
    preserved.get key = some tokens → IsLiteral values (measured values system v) →
    ∃ v' inherited restored,
      KeyPreserved groups values system preserved merged key v raw tokens v' inherited restored

section Pass

variable {raw : Text} {tokens : List Text}

/-- The map after the loop of the pass. -/
abbrev passed (groups : ConflictGroups) (values : Dict String Value) (system : Dict String Text)
    (preserved : Dict String (List Text)) : Dict String Value :=
  ((preserveOrder values preserved).foldl (preserveKey groups values system preserved)
    (values, .empty)).1

theorem passed_frame (h : preserved.get key = none ∨ system.get key = none ∨
    ∀ v, values.get key ≠ some (.str v)) :
    (passed groups values system preserved).get key = values.get key := by
  by_cases hk : key ∈ preserved.keys
  · obtain ⟨acc, hacc, hfinal, -⟩ := @exists_turn groups key values system preserved hk
    rw [hfinal, preserveKey_skip (by rwa [hacc]), hacc]
  · exact foldl_preserveKey_frame fun h => hk (mem_preserveOrder.1 h)

/-- The turn of a key that has something to preserve. -/
theorem passed_get (hv : values.get key = some (.str v)) (hraw : system.get key = some raw)
    (ht : preserved.get key = some tokens) : ∃ merged : Dict String Value,
    (passed groups values system preserved).get key =
      (if (restoreValue groups merged system (pureShellRef v) v raw tokens).2 = [] then
        some (.str v)
      else
        some (.str (restoreValue groups merged system (pureShellRef v) v raw tokens).1)) ∧
    (pureShellRef v ≠ none → ∀ k, refOf values k = none → merged.get k =
      (passed groups values system preserved).get k) := by
  have hk : key ∈ preserved.keys := by
    by_contra hk
    rw [Dict.get_eq_none.2 hk] at ht
    cases ht
  have href : refOf values key = pureShellRef v := by rw [refOf, hv]
  obtain ⟨acc, hacc, hfinal, hother⟩ := @exists_turn groups key values system preserved hk
  rw [href] at hother
  refine ⟨acc.1, ?_, hother⟩
  rw [hfinal, preserveKey, hacc, hv, hraw, ht]
  dsimp only
  rw [href]
  split
  · rw [hacc, hv]
  · rw [Dict.get_set, if_pos rfl]

/-- A literal value. -/
theorem passed_literal (hg : DisjointGroups groups) (hv : values.get key = some (.str v))
    (hraw : system.get key = some raw) (ht : preserved.get key = some tokens)
    (hl : IsLiteral values v) :
    ∃ v' rs, (passed groups values system preserved).get key = some (.str v') ∧
      words v' = words v ++ rs ∧
      Restores groups tokens (words v) (words (unquoteConfValue raw)) rs := by
  obtain ⟨merged, hget, -⟩ := @passed_get groups v key values system preserved raw tokens hv hraw ht
  rw [hl.noRef, restoreValue] at hget
  obtain ⟨hw, hres⟩ := @mergePreservedTokens_spec groups tokens v (unquoteConfValue raw) hg hl.token
    hl.single
  by_cases hrs : (mergePreservedTokens groups v (unquoteConfValue raw) tokens).2 = []
  · rw [if_pos hrs] at hget
    rw [hrs] at hres
    exact ⟨v, [], hget, (List.append_nil _).symm, hres⟩
  · rw [if_neg hrs] at hget
    exact ⟨_, _, hget, hw, hres⟩

theorem baseOf_congr {m m' : Dict String Value} {ref : String} (h : m.get ref = m'.get ref) :
    baseOf m system ref = baseOf m' system ref := by
  rw [baseOf, baseOf, h]

/-- What a reference is measured against gains what its key was given. -/
theorem passed_base (hg : DisjointGroups groups) {ref : String}
    (hl : IsLiteral values (baseOf values system ref)) :
    refOf values ref = none ∧ ∃ inherited,
      words (baseOf (passed groups values system preserved) system ref) =
        words (baseOf values system ref) ++ inherited ∧
      ∀ t ∈ inherited, (∃ raw' tokens', system.get ref = some raw' ∧
        preserved.get ref = some tokens' ∧ t ∈ words (unquoteConfValue raw') ∧
        Qualifies groups tokens' t) ∧
        ∀ u ∈ words (baseOf values system ref), ¬ Conflicts groups t u := by
  have hskip : (preserved.get ref = none ∨ system.get ref = none ∨
      ∀ v, values.get ref ≠ some (.str v)) → ∃ inherited,
      words (baseOf (passed groups values system preserved) system ref) =
        words (baseOf values system ref) ++ inherited ∧
      ∀ t ∈ inherited, (∃ raw' tokens', system.get ref = some raw' ∧
        preserved.get ref = some tokens' ∧ t ∈ words (unquoteConfValue raw') ∧
        Qualifies groups tokens' t) ∧
        ∀ u ∈ words (baseOf values system ref), ¬ Conflicts groups t u :=
    fun h => ⟨[], by rw [baseOf_congr (passed_frame h), List.append_nil], nofun⟩
  by_cases htext : ∃ b, values.get ref = some (.str b)
  · obtain ⟨b, hb⟩ := htext
    have hbase : baseOf values system ref = b := by rw [baseOf, hb]
    rw [hbase] at hl
    have href : refOf values ref = none := by
      rw [refOf, hb]
      exact hl.noRef
    refine ⟨href, ?_⟩
    cases hraw : system.get ref with
    | none => exact hraw ▸ hskip (.inr (.inl hraw))
    | some raw' =>
      cases ht : preserved.get ref with
      | none => exact ht ▸ hraw ▸ hskip (.inl ht)
      | some tokens' =>
        obtain ⟨v', rs, hget, hw, hres⟩ := passed_literal hg hb hraw ht hl
        rw [hbase, baseOf, hget]
        exact ⟨rs, hw, fun t ht => ⟨⟨raw', tokens', rfl, rfl, hres.sublist.subset ht,
          hres.qualifies t ht⟩, hres.clear t ht⟩⟩
  · have hnt : ∀ v, values.get ref ≠ some (.str v) := fun v hv => htext ⟨v, hv⟩
    refine ⟨?_, hskip (.inr (.inr hnt))⟩
    rw [refOf]
    split
    next v hv => exact absurd hv (hnt v)
    · rfl

end Pass

/-- A token with its references to keys of the map expanded, to a depth. -/
def expandToken (values : Dict String Value) : ℕ → Text → List Text
  | 0, t => [t]
  | depth + 1, t =>
    match pureShellRef t with
    | none => [t]
    | some ref =>
      match values.get ref with
      | some (.str b) => (words b).flatMap (expandToken values depth)
      | _ => [t]

/-- The tokens of a value, expanded as deep as the map has keys. -/
def expand (values : Dict String Value) (v : Text) : List Text :=
  (words v).flatMap (expandToken values values.items.length)

/-- Every value gains, after its own tokens, just the qualifying tokens of its own system value
that its own tokens do not stand against. -/
def GainsOwnTokens (groups : ConflictGroups) (values : Dict String Value)
    (system : Dict String Text) (preserved : Dict String (List Text)) (merged : Dict String Value) :
    Prop :=
  ∀ key v v', values.get key = some (.str v) → merged.get key = some (.str v') →
    ∃ restored, expand merged v' = expand values v ++ restored ∧
      (∀ t ∈ restored, t ∈ words (unquoteConfValue ((system.get key).getD [])) ∧
        Qualifies groups ((preserved.get key).getD []) t ∧
        ∀ u ∈ expand values v, ¬ Conflicts groups t u) ∧
      ∀ t ∈ words (unquoteConfValue ((system.get key).getD [])),
        Qualifies groups ((preserved.get key).getD []) t →
        (∀ u ∈ expand values v, ¬ Conflicts groups t u) → t ∈ expand merged v'

section Examples

/-- A flag to preserve. -/
def stackProtector : Text := "-fstack-protector-strong".toList

/-- One value for `CFLAGS` and one for `CXXFLAGS`. -/
def flagsOf {α : Type} (c cxx : α) : Dict String α :=
  (Dict.empty.set "CFLAGS" c).set "CXXFLAGS" cxx

instance (t u : Text) : Decidable (SharesPrefix t u) :=
  decidable_of_iff ((extractPrefix t).any fun p => extractPrefix u = some p) (by
    simp only [Option.any_eq_true, decide_eq_true_eq]
    rfl)

instance (groups : ConflictGroups) (t u : Text) : Decidable (Conflicts groups t u) :=
  haveI : Decidable (SharesGroup groups t u) := List.decidableBEx _ _
  instDecidableOr

end Examples

end Sysforge.Profile
