import Sysforge.Foundations.Run
import Sysforge.State.Repair

/-!
# What a repair keeps

A repair that loses no record leaves no unexpanded variable in the directories it planned, an entry
for each package that their PKGBUILDs list, the unbroken entries it has no reason to drop, and
nothing for a second repair to do. The first and the last always hold. The plans are made over the
state as it is but carried out one after the other, so the last plan that touches a key decides it
(`get_carriedOut`), whichever directory the key belonged to. `repair_lossless_iff` gives the exact
condition on the state and the PKGBUILDs.
-/

namespace Sysforge.Repair

open BuildState (Entry)

variable {parse : String → Parsed} {data : Dict String Entry} {dir A B k n t x m : String}
  {e e' f f' : Entry} {i i' : Identity} {g : Group} {p q : Plan}

/-! ## What a directory's plan does -/

/-- A directory is planned, from the identity and the first broken entry. -/
structure Planned (parse : String → Parsed) (data : Dict String Entry) (dir : String)
    (i : Identity) (f : Entry) : Prop where
  broken : ((groupOf data dir).find? fun p => entryBroken p.1 p.2).map Prod.snd = some f
  named : dir ≠ ""
  parsed : ∃ g, parse dir = .globals g ∧ identity g = some i
  expanded : i.expanded = true

/-- The keys that a directory's PKGBUILD gives to the packages it lists. -/
def targets (data : Dict String Entry) (dir : String) (i : Identity) (f : Entry) : List String :=
  i.names.map (targetOf (groupOf data dir) f)

/-- A directory is planned, and its PKGBUILD lists a package that goes under the key. -/
def Writes (parse : String → Parsed) (data : Dict String Entry) (dir t : String) : Prop :=
  ∃ i f, Planned parse data dir i f ∧ t ∈ targets data dir i f

/-- A directory is planned, and an entry of it that no listed package goes under is broken or was
not renamed. -/
def Drops (parse : String → Parsed) (data : Dict String Entry) (dir t : String) : Prop :=
  ∃ i f, Planned parse data dir i f ∧ t ∉ targets data dir i f ∧
    ∃ e, (t, e) ∈ groupOf data dir ∧
      (entryBroken t e || !e.originPkgbase.any (· ≠ "")) = true

theorem Planned.unique (h : Planned parse data dir i f) (h' : Planned parse data dir i' f') :
    i = i' ∧ f = f' := by
  obtain ⟨g, hg, hi⟩ := h.parsed
  obtain ⟨g', hg', hi'⟩ := h'.parsed
  have hgg : g = g' := Parsed.globals.inj (hg.symm.trans hg')
  subst hgg
  exact ⟨Option.some.inj (hi.symm.trans hi'), Option.some.inj (h.broken.symm.trans h'.broken)⟩

theorem Drops.not_writes (h : Drops parse data dir t) : ¬ Writes parse data dir t := by
  obtain ⟨i, f, hp, ht, -⟩ := h
  rintro ⟨i', f', hp', ht'⟩
  obtain ⟨rfl, rfl⟩ := hp.unique hp'
  exact ht ht'

theorem mem_groupOf : (n, e) ∈ groupOf data dir ↔ data.get n = some e ∧ dirOf e = dir := by
  rw [groupOf, List.mem_filter, Dict.mem_items, decide_eq_true_iff]

theorem lookup_groupOf :
    (groupOf data dir).lookup n = (data.get n).filter fun e => dirOf e = dir := by
  have hg : (Assoc.keys (groupOf data dir)).Nodup := data.nodup.sublist (List.filter_sublist.map _)
  refine Option.ext fun e => ?_
  rw [Option.filter_eq_some_iff, decide_eq_true_iff, ← mem_groupOf]
  exact ⟨Assoc.mem_of_lookup, Assoc.lookup_of_mem hg⟩

/-- The plan of a planned directory. -/
def planOf (data : Dict String Entry) (dir : String) (i : Identity) (f : Entry) : Plan :=
  ⟨dir,
    (((groupOf data dir).filter fun p => decide (p.1 ∉ targets data dir i f) &&
        (entryBroken p.1 p.2 || !p.2.originPkgbase.any (· ≠ ""))).map Prod.fst) ++
      (targets data dir i f).dedup.filter fun t => ((groupOf data dir).lookup t).isSome,
    i.names.map (createRecord dir i (groupOf data dir) f)⟩

theorem planDir_eq_ok :
    planDir parse data dir = some (.ok p) ↔
      ∃ i f, Planned parse data dir i f ∧ p = planOf data dir i f := by
  have htargets : ∀ i f, (i.names.map (createRecord dir i (groupOf data dir) f)).map Prod.fst =
      targets data dir i f := fun i f => by rw [List.map_map]; rfl
  constructor
  · intro h
    rw [planDir] at h
    cases hb : (groupOf data dir).find? fun p => entryBroken p.1 p.2 with
    | none =>
      simp only [hb] at h
      cases h
    | some b =>
      obtain ⟨bn, bf⟩ := b
      simp only [hb] at h
      by_cases hd : dir = ""
      · rw [if_pos hd] at h
        cases h
      rw [if_neg hd] at h
      cases hp : parse dir with
      | missing => simp [hp] at h
      | failed => simp [hp] at h
      | globals g =>
        cases hi : identity g with
        | none => simp [hp, hi] at h
        | some i =>
          cases hx : i.expanded with
          | false => simp [hp, hi, hx] at h
          | true =>
            simp only [hp, hi, hx, htargets] at h
            refine ⟨i, bf, ⟨by rw [hb]; rfl, hd, ⟨g, hp, hi⟩, hx⟩, ?_⟩
            exact (Except.ok.inj (Option.some.inj h)).symm
  · rintro ⟨i, f, ⟨hb, hd, ⟨g, hp, hi⟩, hx⟩, rfl⟩
    obtain ⟨⟨bn, bf⟩, hfind, rfl⟩ := Option.map_eq_some_iff.mp hb
    rw [planDir]
    simp only [hfind, if_neg hd, hp, hi, hx, htargets]
    rfl

theorem mem_dirs (h : (n, e) ∈ groupOf data dir) : dir ∈ dirs data := by
  obtain ⟨hget, rfl⟩ := mem_groupOf.mp h
  rw [dirs, List.mem_insertionSort, List.mem_dedup, List.mem_map]
  exact ⟨(n, e), Dict.mem_items.mpr hget, rfl⟩

theorem mem_plans :
    p ∈ plans parse data ↔ ∃ i f, Planned parse data p.dir i f ∧ p = planOf data p.dir i f := by
  rw [plans, List.mem_filterMap]
  constructor
  · rintro ⟨dir, -, h⟩
    obtain ⟨r, hr, hp⟩ := Option.bind_eq_some_iff.mp h
    cases r with
    | error s => cases hp
    | ok q =>
      obtain rfl : q = p := Option.some.inj hp
      obtain ⟨i, f, hplanned, rfl⟩ := planDir_eq_ok.mp hr
      exact ⟨i, f, hplanned, rfl⟩
  · rintro ⟨i, f, hplanned, hp⟩
    obtain ⟨b, hb, -⟩ := Option.map_eq_some_iff.mp hplanned.broken
    refine ⟨p.dir, mem_dirs (List.mem_of_find?_eq_some hb), ?_⟩
    rw [planDir_eq_ok.mpr ⟨i, f, hplanned, hp⟩]
    rfl

/-- The plans are in the order of their directories. -/
theorem pairwise_plans (parse : String → Parsed) (data : Dict String Entry) :
    (plans parse data).Pairwise fun p q => p.dir < q.dir := by
  have hsorted : (dirs data).Pairwise (· ≤ ·) := List.pairwise_insertionSort _ _
  have hnodup : (dirs data).Nodup :=
    (List.perm_insertionSort _ _).nodup_iff.mpr (List.nodup_dedup _)
  have hlt : (dirs data).Pairwise (· < ·) :=
    (hsorted.and hnodup).imp fun h => lt_of_le_of_ne h.1 h.2
  have hdir : ∀ {dir q}, (planDir parse data dir).bind Except.toOption = some q → q.dir = dir := by
    intro dir q h
    obtain ⟨r, hr, hq⟩ := Option.bind_eq_some_iff.mp h
    cases r with
    | error s => cases hq
    | ok r =>
      obtain rfl : r = q := Option.some.inj hq
      obtain ⟨i, f, -, rfl⟩ := planDir_eq_ok.mp hr
      rfl
  refine hlt.filterMap _ fun a b hab p hp q hq => ?_
  rw [hdir hp, hdir hq]
  exact hab

/-! ## What a plan does to a key -/

theorem map_fst_createRecords :
    (planOf data dir i f).createRecords.map Prod.fst = targets data dir i f := by
  rw [planOf, List.map_map]
  rfl

theorem mem_deleteKeys :
    t ∈ (planOf data dir i f).deleteKeys ↔
      ∃ e, (t, e) ∈ groupOf data dir ∧ (t ∉ targets data dir i f →
        (entryBroken t e || !e.originPkgbase.any (· ≠ "")) = true) := by
  rw [planOf, List.mem_append, List.mem_map, List.mem_filter, List.mem_dedup, lookup_groupOf]
  constructor
  · rintro (⟨⟨n, e⟩, h, rfl⟩ | ⟨ht, h⟩)
    · obtain ⟨hmem, hcond⟩ := List.mem_filter.mp h
      rw [Bool.and_eq_true] at hcond
      exact ⟨e, hmem, fun _ => hcond.2⟩
    · obtain ⟨e, he⟩ := Option.isSome_iff_exists.mp h
      obtain ⟨hget, hdir⟩ := Option.filter_eq_some_iff.mp he
      exact ⟨e, mem_groupOf.mpr ⟨hget, of_decide_eq_true hdir⟩, fun h => absurd ht h⟩
  · rintro ⟨e, hmem, hcond⟩
    by_cases ht : t ∈ targets data dir i f
    · obtain ⟨hget, hdir⟩ := mem_groupOf.mp hmem
      refine .inr ⟨ht, Option.isSome_iff_exists.mpr ⟨e, ?_⟩⟩
      exact Option.filter_eq_some_iff.mpr ⟨hget, decide_eq_true hdir⟩
    · refine .inl ⟨(t, e), List.mem_filter.mpr ⟨hmem, ?_⟩, rfl⟩
      rw [Bool.and_eq_true]
      exact ⟨decide_eq_true ht, hcond ht⟩

/-- A plan writes a key from a listed package, deletes it, or leaves it alone. -/
theorem get_applyPlan (data : Dict String Entry) (dir : String) (i : Identity) (f : Entry)
    (d : Dict String Entry) (t : String) :
    (∃ x ∈ i.names, (applyPlan d (planOf data dir i f)).get t =
        some (createRecord dir i (groupOf data dir) f x).2 ∧
        targetOf (groupOf data dir) f x = t) ∨
      t ∉ targets data dir i f ∧ (applyPlan d (planOf data dir i f)).get t =
        if t ∈ (planOf data dir i f).deleteKeys then none else d.get t := by
  have hset := Dict.get_foldl_set (planOf data dir i f).createRecords
    ((planOf data dir i f).deleteKeys.foldl (fun d k => d.erase k) d) t
  rw [map_fst_createRecords] at hset
  obtain ⟨ht, hget⟩ | ⟨v, hv, hget⟩ := hset
  · exact .inr ⟨ht, hget.trans (Dict.get_foldl_erase _ _ _)⟩
  · obtain ⟨x, hx, hc⟩ := List.mem_map.mp hv
    refine .inl ⟨x, hx, hget.trans ?_, congrArg Prod.fst hc⟩
    rw [hc]

/-- Where no listed package goes under the key and the directory drops no entry of it, a plan leaves
the key alone. -/
theorem get_applyPlan_of_not (hp : Planned parse data dir i f) (hw : ¬ Writes parse data dir t)
    (hd : ¬ Drops parse data dir t) (d : Dict String Entry) :
    (applyPlan d (planOf data dir i f)).get t = d.get t := by
  obtain ⟨x, hx, -, ht⟩ | ⟨ht, hget⟩ := get_applyPlan data dir i f d t
  · exact absurd ⟨i, f, hp, List.mem_map.mpr ⟨x, hx, ht⟩⟩ hw
  · rw [hget, if_neg]
    intro h
    obtain ⟨e, hmem, hcond⟩ := mem_deleteKeys.mp h
    exact hd ⟨i, f, hp, ht, e, hmem, hcond ht⟩

/-! ## What the plans and the rewrites leave -/

/-- No directory after this one writes or drops the key. -/
def LastWord (parse : String → Parsed) (data : Dict String Entry) (dir t : String) : Prop :=
  ∀ B, dir < B → ¬ Writes parse data B t ∧ ¬ Drops parse data B t

/-- What the plans leave under a key: the last one that touches it decides. -/
inductive Decided (parse : String → Parsed) (data : Dict String Entry) (t : String) :
    Option Entry → Prop
  | untouched (h : ∀ B, ¬ Writes parse data B t ∧ ¬ Drops parse data B t) :
      Decided parse data t (data.get t)
  | written {dir x : String} {i : Identity} {f : Entry} (hp : Planned parse data dir i f)
      (hx : x ∈ i.names) (ht : targetOf (groupOf data dir) f x = t)
      (hlast : LastWord parse data dir t) :
      Decided parse data t (some (createRecord dir i (groupOf data dir) f x).2)
  | dropped {dir : String} (h : Drops parse data dir t) (hlast : LastWord parse data dir t) :
      Decided parse data t none

/-- The entries after every plan. -/
def carriedOut (parse : String → Parsed) (data : Dict String Entry) : Dict String Entry :=
  (plans parse data).foldl applyPlan data

/-- The plans run in order, and the last one that touches a key decides it. -/
theorem get_carriedOut (parse : String → Parsed) (data : Dict String Entry) (t : String) :
    Decided parse data t ((carriedOut parse data).get t) := by
  have hrun := @Run.run_last _ _ applyPlan data (plans parse data) _ (fun d => d.get t)
    (fun p => Writes parse data p.dir t ∨ Drops parse data p.dir t) fun p hp d hno => by
      obtain ⟨i, f, hplanned, hpeq⟩ := mem_plans.mp hp
      rw [not_or] at hno
      rw [hpeq]
      exact get_applyPlan_of_not hplanned hno.1 hno.2 d
  -- a directory that touches the key has its plan in the list
  have hmem : ∀ B, Writes parse data B t ∨ Drops parse data B t →
      ∃ q ∈ plans parse data, q.dir = B := by
    rintro B (⟨i, f, hp, -⟩ | ⟨i, f, hp, -⟩) <;>
      exact ⟨planOf data B i f, mem_plans.mpr ⟨i, f, hp, rfl⟩, rfl⟩
  obtain ⟨hno, hget⟩ | ⟨ps, p, qs, hps, htouch, hqs, hget⟩ := hrun
  · rw [carriedOut]
    refine hget.symm ▸ .untouched fun B => ?_
    rw [← not_or]
    intro h
    obtain ⟨q, hq, rfl⟩ := hmem B h
    exact hno q hq h
  · have hpair := pairwise_plans parse data
    rw [hps, List.pairwise_append, List.pairwise_cons] at hpair
    have hlast : LastWord parse data p.dir t := by
      intro B hB
      rw [← not_or]
      intro h
      obtain ⟨q, hq, rfl⟩ := hmem B h
      rw [hps, List.mem_append, List.mem_cons] at hq
      obtain hq | rfl | hq := hq
      · exact absurd hB (lt_asymm (hpair.2.2 q hq p List.mem_cons_self))
      · exact lt_irrefl _ hB
      · exact hqs q hq h
    have hin : p ∈ plans parse data := hps ▸ List.mem_append_right _ List.mem_cons_self
    obtain ⟨i, f, hp, hpeq⟩ := mem_plans.mp hin
    have hget' : (carriedOut parse data).get t = (applyPlan _ p).get t := hget
    obtain ⟨x, hx, hval, ht⟩ | ⟨ht, hval⟩ :=
      get_applyPlan data p.dir i f (Run.run applyPlan data ps) t
    · rw [hget', hpeq, hval]
      exact .written hp hx ht hlast
    · have hdrops : Drops parse data p.dir t := by
        refine htouch.resolve_left ?_
        rintro ⟨i', f', hp', ht'⟩
        obtain ⟨rfl, rfl⟩ := hp.unique hp'
        exact ht ht'
      have hdel : t ∈ (planOf data p.dir i f).deleteKeys := by
        obtain ⟨i', f', hp', -, e, hmem, hcond⟩ := hdrops
        exact mem_deleteKeys.mpr ⟨e, hmem, fun _ => hcond⟩
      rw [hget', hpeq, hval, if_pos hdel]
      exact .dropped hdrops hlast

/-- A record with its build mode rewritten. -/
def rewritten : Option String → Entry → Entry
  | none, e => e
  | some m, e => { e with buildMode := some m }

theorem get_foldl_applyFix {fixes : List (String × String)} (hn : (Assoc.keys fixes).Nodup)
    (d : Dict String Entry) (t : String) :
    (fixes.foldl applyFix d).get t = (d.get t).map (rewritten (fixes.lookup t)) := by
  induction fixes generalizing d with
  | nil => cases h : d.get t <;> simp [h, rewritten]
  | cons fix fixes ih =>
    rw [Assoc.keys_cons, List.nodup_cons] at hn
    have hstep : (applyFix d fix).get t =
        (d.get t).map (rewritten (if t = fix.1 then some fix.2 else none)) := by
      rw [applyFix]
      by_cases ht : t = fix.1
      · subst ht
        cases hd : d.get fix.1 with
        | none => simp [hd]
        | some e => simp [Dict.get_set, rewritten]
      · cases hd : d.get fix.1 <;> cases hg : d.get t <;> simp [Dict.get_set, ht, hg, rewritten]
    rw [List.foldl_cons, ih hn.2, hstep, Assoc.lookup_cons_eq, Option.map_map]
    by_cases ht : t = fix.1
    · rw [if_pos ht, if_pos ht, ht, Assoc.lookup_eq_none.mpr hn.1]
      rfl
    · rw [if_neg ht, if_neg ht]
      rfl

/-- The retired build mode of a record, rewritten. -/
def staleMode (e : Entry) : Option String :=
  e.buildMode.bind fun m => legacyBuildModeTokens.lookup m

/-- The rewrites as the optional rewrites of the entries. -/
theorem staleModeFixes_eq (ps : List Plan) :
    staleModeFixes data ps =
      (data.items.map fun p => (p.1, if p.1 ∈ ps.flatMap Plan.deleteKeys then none
        else staleMode p.2)).filterMap fun q => q.2.map fun m => (q.1, id m) := by
  rw [staleModeFixes, List.filterMap_map]
  refine List.filterMap_congr fun p _ => ?_
  rw [Function.comp_apply]
  by_cases h : p.1 ∈ ps.flatMap Plan.deleteKeys
  · rw [if_pos h, if_pos h]
    rfl
  · rw [if_neg h, if_neg h]
    rfl

theorem nodup_keys_staleModeFixes (ps : List Plan) :
    (Assoc.keys (staleModeFixes data ps)).Nodup := by
  rw [staleModeFixes_eq]
  refine List.Nodup.sublist (Assoc.keys_filterMap _ _) ?_
  rw [Assoc.keys_map fun k e => if k ∈ ps.flatMap Plan.deleteKeys then none else staleMode e]
  exact data.nodup

/-- The rewrites, by key. -/
theorem lookup_staleModeFixes (ps : List Plan) (t : String) :
    (staleModeFixes data ps).lookup t =
      if t ∈ ps.flatMap Plan.deleteKeys then none else (data.get t).bind staleMode := by
  have hn := data.nodup
  rw [← Assoc.keys_map fun k e => if k ∈ ps.flatMap Plan.deleteKeys then none
    else staleMode e] at hn
  rw [staleModeFixes_eq, Assoc.lookup_filterMap _ hn,
    Assoc.lookup_map fun k e => if k ∈ ps.flatMap Plan.deleteKeys then none else staleMode e,
    ← Dict.get, Option.map_id_apply]
  cases data.get t with
  | none => split_ifs <;> rfl
  | some e => rfl

/-- The directories that write or drop a key of theirs delete it. -/
theorem mem_flatMap_deleteKeys :
    t ∈ (plans parse data).flatMap Plan.deleteKeys ↔
      ∃ e, data.get t = some e ∧
        (Writes parse data (dirOf e) t ∨ Drops parse data (dirOf e) t) := by
  rw [List.mem_flatMap]
  constructor
  · rintro ⟨p, hp, ht⟩
    obtain ⟨i, f, hplanned, hpeq⟩ := mem_plans.mp hp
    rw [hpeq] at ht
    obtain ⟨e, hmem, hcond⟩ := mem_deleteKeys.mp ht
    obtain ⟨hget, hdir⟩ := mem_groupOf.mp hmem
    refine ⟨e, hget, ?_⟩
    rw [hdir]
    by_cases hx : t ∈ targets data p.dir i f
    · exact .inl ⟨i, f, hplanned, hx⟩
    · exact .inr ⟨i, f, hplanned, hx, e, hmem, hcond hx⟩
  · rintro ⟨e, hget, ⟨i, f, hp, ht⟩ | ⟨i, f, hp, ht, e', hmem, hcond⟩⟩
    · exact ⟨planOf data _ i f, mem_plans.mpr ⟨i, f, hp, rfl⟩,
        mem_deleteKeys.mpr ⟨e, mem_groupOf.mpr ⟨hget, rfl⟩, fun h => absurd ht h⟩⟩
    · exact ⟨planOf data _ i f, mem_plans.mpr ⟨i, f, hp, rfl⟩,
        mem_deleteKeys.mpr ⟨e', hmem, fun _ => hcond⟩⟩

/-- The entries after a repair: what the plans leave, with the retired build modes rewritten. -/
theorem get_cmdStateRepair (t : String) :
    (cmdStateRepair parse false data).get t = ((carriedOut parse data).get t).map
      (rewritten ((staleModeFixes data (plans parse data)).lookup t)) := by
  rw [← get_foldl_applyFix (nodup_keys_staleModeFixes _), cmdStateRepair, Bool.or_false]
  by_cases h : ((plans parse data).isEmpty &&
      (staleModeFixes data (plans parse data)).isEmpty) = true
  · rw [if_pos h]
    rw [Bool.and_eq_true, List.isEmpty_iff, List.isEmpty_iff] at h
    rw [h.2, carriedOut, h.1]
    rfl
  · rw [if_neg h]
    rfl

/-! ## The records that a plan writes -/

theorem hasVar_append_suffix : hasVar (n ++ suffix) = hasVar n := by
  have hs : ('$' ∈ suffix.toList) = False := by simp [suffix]
  simp only [hasVar, String.toList_append, List.mem_append, hs, or_false]

theorem hasVar_pkgbaseOf (hi : hasVar i.pkgbase = false) : hasVar (pkgbaseOf i g f x) = false := by
  rw [pkgbaseOf]
  by_cases hr : isRenamed g f x = true
  · rw [if_pos hr]
    cases hb : (sourceOf g f x).pkgbase.filter fun b => b ≠ "" && !hasVar b with
    | none => exact hasVar_append_suffix.trans hi
    | some b =>
      obtain ⟨-, hcond⟩ := Option.filter_eq_some_iff.mp hb
      rw [Bool.and_eq_true, Bool.not_eq_true'] at hcond
      exact hcond.2
  · rw [if_neg hr]
    exact hi

/-- A listed package gets a record without a variable. -/
theorem entryBroken_createRecord (hi : i.expanded = true) (hx : x ∈ i.names) :
    entryBroken (targetOf g f x) (createRecord dir i g f x).2 = false := by
  rw [Identity.expanded, Bool.not_eq_true'] at hi
  simp only [Bool.or_eq_false_iff, List.any_eq_false, Bool.not_eq_true] at hi
  obtain ⟨⟨⟨⟨hnames, hbase⟩, hver⟩, hrel⟩, hepoch⟩ := hi
  have hname : hasVar (targetOf g f x) = false := by
    rw [targetOf]
    split_ifs
    · exact hasVar_append_suffix.trans (hnames x hx)
    · exact hnames x hx
  simp only [entryBroken, createRecord, Option.any_some, hname, hasVar_pkgbaseOf hbase, hver, hrel,
    hepoch, Bool.or_self]

/-- A package that goes under the key of an entry of its directory takes that entry's fields. -/
theorem sourceOf_of_mem (hd : dir ≠ "") (hmem : (t, e) ∈ groupOf data dir)
    (ht : targetOf (groupOf data dir) f x = t) : sourceOf (groupOf data dir) f x = e := by
  have hne : (some e).filter (fun e => !e.isEmpty) = some e := by
    refine Option.filter_eq_some_iff.mpr ⟨rfl, ?_⟩
    rw [Bool.not_eq_true', Entry.isEmpty, decide_eq_false_iff_not]
    rintro rfl
    exact hd (mem_groupOf.mp hmem).2.symm
  have hlook : (groupOf data dir).lookup t = some e := by
    obtain ⟨hget, hdir⟩ := mem_groupOf.mp hmem
    rw [lookup_groupOf]
    exact Option.filter_eq_some_iff.mpr ⟨hget, decide_eq_true hdir⟩
  rw [targetOf] at ht
  rw [sourceOf, entryOr, entryOr]
  by_cases hr : isRenamed (groupOf data dir) f x = true
  · rw [if_pos hr] at ht
    rw [isRenamed, Bool.and_eq_true, Option.isNone_iff_eq_none] at hr
    rw [hr.1, ht, hlook, hne]
    rfl
  · rw [if_neg hr] at ht
    rw [ht, hlook, hne]
    rfl

theorem lookup_legacy_of_lookup (h : legacyBuildModeTokens.lookup n = some m) :
    legacyBuildModeTokens.lookup m = none := by
  obtain hm := Assoc.mem_of_lookup h
  rw [legacyBuildModeTokens, List.mem_cons, List.mem_singleton] at hm
  obtain hm | hm := hm <;> obtain ⟨-, rfl⟩ := Prod.mk.inj hm <;> decide

/-- A rewritten build mode is not a retired one. -/
theorem lookup_legacy_currentMode : legacyBuildModeTokens.lookup (currentMode m) = none := by
  rw [currentMode]
  cases h : legacyBuildModeTokens.lookup m with
  | none => exact h
  | some v => exact lookup_legacy_of_lookup h

theorem rewritten_staleMode :
    rewritten (staleMode e) e = { e with buildMode := e.buildMode.map currentMode } := by
  rw [staleMode]
  cases hm : e.buildMode with
  | none => rw [Option.bind_none, rewritten, Option.map_none, ← hm]
  | some m =>
    rw [Option.bind_some, Option.map_some, currentMode]
    cases h : legacyBuildModeTokens.lookup m with
    | none => rw [rewritten, Option.getD_none, ← hm]
    | some v => rfl

/-- A record that was rewritten, or whose build mode is current, has nothing left to rewrite. -/
theorem staleMode_rewritten {r : Option String} (he : r = none → staleMode e = none)
    (hr : ∀ m, r = some m → ∃ e₀, staleMode e₀ = some m) : staleMode (rewritten r e) = none := by
  cases r with
  | none => exact he rfl
  | some m =>
    obtain ⟨e₀, h₀⟩ := hr m rfl
    obtain ⟨m₀, -, h⟩ := Option.bind_eq_some_iff.mp h₀
    exact lookup_legacy_of_lookup h

theorem dirOf_rewritten (r : Option String) : dirOf (rewritten r e) = dirOf e := by
  cases r <;> rfl

theorem entryBroken_rewritten (r : Option String) :
    entryBroken n (rewritten r e) = entryBroken n e := by
  cases r <;> rfl

/-! ## Losing no record -/

/-- The record without the fields that a repair re-derives. -/
def sansIdentity (e : Entry) : Entry :=
  { e with pkgver := none, pkgrel := none, epoch := none, pkgbase := none, pkgbuildDir := none }

/-- The same record, but for its identity and a retired build mode. -/
structure SameRecord (e e' : Entry) : Prop where
  dir : e'.pkgbuildDir = e.pkgbuildDir
  fields : sansIdentity e' = sansIdentity { e with buildMode := e.buildMode.map currentMode }

/-- An unbroken entry of a directory that is not planned, or whose PKGBUILD lists it, or of a
renamed build. -/
structure Protected (parse : String → Parsed) (data : Dict String Entry) (n : String)
    (e : Entry) : Prop where
  unbroken : entryBroken n e = false
  reason : (∀ i f, ¬ Planned parse data (dirOf e) i f) ∨
    (∃ i f, Planned parse data (dirOf e) i f ∧ ∃ x ∈ i.names, n = x ∨ n = x ++ suffix) ∨
      e.originPkgbase.any (· ≠ "") = true

/-- A repair that loses no record. -/
structure Repaired (parse : String → Parsed) (data data' : Dict String Entry) : Prop where
  clean : ∀ n e, data'.get n = some e → (∃ i f, Planned parse data (dirOf e) i f) →
    entryBroken n e = false
  listed : ∀ dir i f, Planned parse data dir i f → ∀ x ∈ i.names,
    x ∈ data'.keys ∨ x ++ suffix ∈ data'.keys
  kept : ∀ n e, data.get n = some e → Protected parse data n e →
    ∃ e', data'.get n = some e' ∧ SameRecord e e'
  stable : cmdStateRepair parse false data' = data'

/-- A key of the state or of a listed package, and a directory that drops it comes before one whose
listed package goes under it. -/
def Present (parse : String → Parsed) (data : Dict String Entry) (t : String) : Prop :=
  (t ∈ data.keys ∨ ∃ B, Writes parse data B t) ∧
    ∀ B, Drops parse data B t → ∃ C, Writes parse data C t ∧ B < C

/-- The state and the PKGBUILDs for which a repair loses no record: of each package that a planned
directory lists one key is present, and a protected entry is not dropped by its directory and comes
under no key of another directory's package, or its own directory comes last of those. -/
structure Lossless (parse : String → Parsed) (data : Dict String Entry) : Prop where
  listed : ∀ dir i f, Planned parse data dir i f → ∀ x ∈ i.names,
    Present parse data x ∨ Present parse data (x ++ suffix)
  kept : ∀ n e, data.get n = some e → Protected parse data n e →
    ¬ Drops parse data (dirOf e) n ∧ ∀ B, Writes parse data B n →
      B = dirOf e ∨ Writes parse data (dirOf e) n ∧ B < dirOf e

/-- A directory with a broken entry is planned when its PKGBUILD gives an identity. -/
theorem planned_of_broken {data' : Dict String Entry} (hget : data.get n = some e)
    (hbroken : entryBroken n e = true) (hp : Planned parse data' (dirOf e) i f) :
    ∃ f', Planned parse data (dirOf e) i f' := by
  cases hb : (groupOf data (dirOf e)).find? fun p => entryBroken p.1 p.2 with
  | none =>
    have hall := List.find?_eq_none.mp hb (n, e) (mem_groupOf.mpr ⟨hget, rfl⟩)
    exact absurd hbroken hall
  | some b => exact ⟨b.2, by rw [hb]; rfl, hp.named, hp.parsed, hp.expanded⟩

/-- After a repair, an entry is of a planned directory's listed package, or was there before. -/
theorem get_cmdStateRepair_cases (hget : (cmdStateRepair parse false data).get t = some e) :
    (∃ dir i f x, Planned parse data dir i f ∧ x ∈ i.names ∧ targetOf (groupOf data dir) f x = t ∧
        ∃ r, e = rewritten r (createRecord dir i (groupOf data dir) f x).2 ∧
          ∀ m, r = some m → ∃ e₀, staleMode e₀ = some m) ∨
      ∃ e₀, data.get t = some e₀ ∧ e = rewritten (staleMode e₀) e₀ ∧
        ∀ B, ¬ Writes parse data B t ∧ ¬ Drops parse data B t := by
  have hr : ∀ m, (staleModeFixes data (plans parse data)).lookup t = some m →
      ∃ e₀, staleMode e₀ = some m := by
    intro m hm
    rw [lookup_staleModeFixes] at hm
    split_ifs at hm with hdel
    obtain ⟨e₀, -, he₀⟩ := Option.bind_eq_some_iff.mp hm
    exact ⟨e₀, he₀⟩
  rw [get_cmdStateRepair] at hget
  have hdec := get_carriedOut parse data t
  generalize hc : (carriedOut parse data).get t = r at hdec hget
  cases hdec with
  | untouched h =>
    obtain ⟨e₀, he₀, rfl⟩ := Option.map_eq_some_iff.mp hget
    refine .inr ⟨e₀, he₀, ?_, h⟩
    rw [lookup_staleModeFixes, he₀, if_neg]
    · rfl
    · rw [mem_flatMap_deleteKeys]
      rintro ⟨e₁, -, hw | hd⟩
      · exact (h _).1 hw
      · exact (h _).2 hd
  | written hp hx ht hlast =>
    obtain rfl := Option.some.inj hget
    exact .inl ⟨_, _, _, _, hp, hx, ht, _, rfl, hr⟩
  | dropped h hlast => cases hget

/-- A repair leaves no variable in a planned directory. -/
theorem repair_clean (hget : (cmdStateRepair parse false data).get n = some e)
    (hp : Planned parse data (dirOf e) i f) : entryBroken n e = false := by
  obtain ⟨dir, i₁, f₁, x, hp₁, hx, rfl, r, rfl, -⟩ | ⟨e₀, hget₀, rfl, hno⟩ :=
    get_cmdStateRepair_cases hget
  · rw [entryBroken_rewritten]
    exact entryBroken_createRecord hp₁.expanded hx
  · rw [entryBroken_rewritten]
    rw [dirOf_rewritten] at hp
    -- a broken entry of a planned directory is written over or dropped
    by_contra hb
    rw [Bool.not_eq_false] at hb
    by_cases ht : n ∈ targets data (dirOf e₀) i f
    · exact (hno _).1 ⟨i, f, hp, ht⟩
    · refine (hno _).2 ⟨i, f, hp, ht, e₀, mem_groupOf.mpr ⟨hget₀, rfl⟩, ?_⟩
      rw [hb, Bool.true_or]

/-- A second repair plans nothing. -/
theorem plans_cmdStateRepair : plans parse (cmdStateRepair parse false data) = [] := by
  rw [List.eq_nil_iff_forall_not_mem]
  intro p hp
  obtain ⟨i, f, hplanned, -⟩ := mem_plans.mp hp
  obtain ⟨⟨n, e⟩, hfind, -⟩ := Option.map_eq_some_iff.mp hplanned.broken
  have hbroken := List.find?_some hfind
  dsimp only at hbroken
  obtain ⟨hget, hdir⟩ := mem_groupOf.mp (List.mem_of_find?_eq_some hfind)
  rw [← hdir] at hplanned
  obtain ⟨dir, i₁, f₁, x, hp₁, hx, rfl, r, rfl, -⟩ | ⟨e₀, hget₀, rfl, -⟩ :=
    get_cmdStateRepair_cases hget
  · rw [entryBroken_rewritten, entryBroken_createRecord hp₁.expanded hx] at hbroken
    cases hbroken
  · rw [dirOf_rewritten] at hplanned
    obtain ⟨f', hp'⟩ := planned_of_broken hget₀ (entryBroken_rewritten _ ▸ hbroken) hplanned
    have hclean := repair_clean hget ((dirOf_rewritten _).symm ▸ hp')
    rw [hclean] at hbroken
    cases hbroken

/-- A second repair changes nothing. -/
theorem repair_stable :
    cmdStateRepair parse false (cmdStateRepair parse false data) =
      cmdStateRepair parse false data := by
  have hfixes : staleModeFixes (cmdStateRepair parse false data) [] = [] := by
    rw [staleModeFixes, List.filterMap_eq_nil_iff]
    rintro ⟨n, e⟩ hmem
    rw [List.flatMap_nil, if_neg List.not_mem_nil, Option.map_eq_none_iff]
    obtain ⟨dir, i₁, f₁, x, -, -, -, r, rfl, hr⟩ | ⟨e₀, -, rfl, -⟩ :=
      get_cmdStateRepair_cases (Dict.mem_items.mp hmem)
    · refine staleMode_rewritten (fun _ => ?_) hr
      rw [staleMode, createRecord]
      cases (sourceOf (groupOf data dir) f₁ x).buildMode with
      | none => rfl
      | some m => exact lookup_legacy_currentMode
    · exact staleMode_rewritten id fun m hm => ⟨e₀, hm⟩
  rw [cmdStateRepair, plans_cmdStateRepair, hfixes]
  rfl

/-- The keys after a repair. -/
theorem mem_keys_cmdStateRepair :
    t ∈ (cmdStateRepair parse false data).keys ↔ Present parse data t := by
  rw [← not_iff_not, ← Dict.get_eq_none, get_cmdStateRepair, Option.map_eq_none_iff]
  have hdec := get_carriedOut parse data t
  generalize (carriedOut parse data).get t = r at hdec
  cases hdec with
  | untouched h =>
    rw [Dict.get_eq_none, not_iff_not]
    constructor
    · exact fun ht => ⟨.inl ht, fun B hB => absurd hB (h B).2⟩
    · rintro ⟨ht | ⟨B, hB⟩, -⟩
      · exact ht
      · exact absurd hB (h B).1
  | @written dir x i f hp hx ht hlast =>
    have hw : Writes parse data dir t := ⟨i, f, hp, List.mem_map.mpr ⟨x, hx, ht⟩⟩
    refine iff_of_false (by simp) (not_not.mpr ⟨.inr ⟨dir, hw⟩, fun B hB => ⟨dir, hw, ?_⟩⟩)
    obtain hlt | rfl | hlt := lt_trichotomy B dir
    · exact hlt
    · exact absurd hw hB.not_writes
    · exact absurd hB (hlast B hlt).2
  | @dropped dir h hlast =>
    refine iff_of_true rfl fun hpres => ?_
    obtain ⟨C, hC, hlt⟩ := hpres.2 dir h
    exact (hlast C hlt).1 hC

/-- What its own directory's plan or no plan leaves of an entry is the same record. -/
theorem sameRecord_createRecord (hd : dir ≠ "") (hmem : (t, e) ∈ groupOf data dir)
    (ht : targetOf (groupOf data dir) f x = t) :
    SameRecord e (createRecord dir i (groupOf data dir) f x).2 := by
  obtain ⟨-, hdir⟩ := mem_groupOf.mp hmem
  have hsome : e.pkgbuildDir = some dir := by
    cases h : e.pkgbuildDir with
    | none =>
      rw [dirOf, h] at hdir
      exact absurd hdir.symm hd
    | some d =>
      rw [dirOf, h] at hdir
      exact congrArg some hdir
  refine ⟨hsome.symm, ?_⟩
  rw [createRecord, sourceOf_of_mem hd hmem ht]
  rfl

theorem Lossless.kept_get (h : Lossless parse data) (hget : data.get n = some e)
    (hprot : Protected parse data n e) :
    ∃ e', (cmdStateRepair parse false data).get n = some e' ∧ SameRecord e e' := by
  obtain ⟨hnd, hw⟩ := h.kept n e hget hprot
  rw [get_cmdStateRepair, lookup_staleModeFixes]
  have hdec := get_carriedOut parse data n
  generalize (carriedOut parse data).get n = r at hdec
  cases hdec with
  | untouched hno =>
    rw [if_neg, hget]
    · refine ⟨_, rfl, ?_⟩
      rw [Option.bind_some, rewritten_staleMode]
      exact ⟨rfl, rfl⟩
    · rw [mem_flatMap_deleteKeys]
      rintro ⟨e₁, -, hw | hd⟩
      · exact (hno _).1 hw
      · exact (hno _).2 hd
  | @written dir x i f hp hx ht hlast =>
    have hwrites : Writes parse data dir n := ⟨i, f, hp, List.mem_map.mpr ⟨x, hx, ht⟩⟩
    -- the last directory that writes the key is the entry's own
    have hown : dir = dirOf e := by
      obtain heq | ⟨hwe, hlt⟩ := hw dir hwrites
      · exact heq
      · exact absurd hwe (hlast _ hlt).1
    subst hown
    rw [if_pos (mem_flatMap_deleteKeys.mpr ⟨e, hget, .inl hwrites⟩)]
    exact ⟨_, rfl, sameRecord_createRecord hp.named (mem_groupOf.mpr ⟨hget, rfl⟩) ht⟩
  | @dropped dir hd hlast =>
    obtain ⟨i, f, -, -, e₁, hmem, -⟩ := id hd
    obtain ⟨hget₁, rfl⟩ := mem_groupOf.mp hmem
    obtain rfl := Option.some.inj (hget.symm.trans hget₁)
    exact absurd hd hnd

theorem Repaired.own_last (h : Repaired parse data (cmdStateRepair parse false data))
    (hget : data.get n = some e) (hprot : Protected parse data n e) :
    ¬ Drops parse data (dirOf e) n ∧ ∀ B, Writes parse data B n →
      B = dirOf e ∨ Writes parse data (dirOf e) n ∧ B < dirOf e := by
  obtain ⟨e', hget', hsame⟩ := h.kept n e hget hprot
  rw [get_cmdStateRepair] at hget'
  have hdec := get_carriedOut parse data n
  generalize (carriedOut parse data).get n = r at hdec hget'
  cases hdec with
  | untouched hno => exact ⟨(hno _).2, fun B hB => absurd hB (hno B).1⟩
  | @written dir x i f hp hx ht hlast =>
    have hwrites : Writes parse data dir n := ⟨i, f, hp, List.mem_map.mpr ⟨x, hx, ht⟩⟩
    have hown : dir = dirOf e := by
      obtain rfl := Option.some.inj hget'
      have hdir := congrArg (·.getD "") hsame.dir
      exact (dirOf_rewritten _).symm.trans hdir
    subst hown
    refine ⟨fun hd => hd.not_writes hwrites, fun B hB => ?_⟩
    obtain hlt | heq | hlt := lt_trichotomy B (dirOf e)
    · exact .inr ⟨hwrites, hlt⟩
    · exact .inl heq
    · exact absurd hB (hlast B hlt).1
  | dropped hd hlast => cases hget'

/-- **A repair loses no record** exactly when, of each package that a planned directory lists, one
key is present, and the protected entries are neither dropped nor overwritten by another
directory's plan. -/
theorem repair_lossless_iff (parse : String → Parsed) (data : Dict String Entry) :
    Repaired parse data (cmdStateRepair parse false data) ↔ Lossless parse data := by
  constructor
  · intro h
    refine ⟨fun dir i f hp x hx => ?_, fun n e hget hprot => h.own_last hget hprot⟩
    rw [← mem_keys_cmdStateRepair, ← mem_keys_cmdStateRepair]
    exact h.listed dir i f hp x hx
  · intro h
    refine ⟨fun n e hget hp => ?_, fun dir i f hp x hx => ?_, fun n e => h.kept_get,
      repair_stable⟩
    · obtain ⟨i, f, hp⟩ := hp
      exact repair_clean hget hp
    · rw [mem_keys_cmdStateRepair, mem_keys_cmdStateRepair]
      exact h.listed dir i f hp x hx

/-! ## Two directories that list one name -/

/-- A PKGBUILD that lists one package. -/
def listsFoo : String → Parsed := fun dir =>
  if dir = "/a" then .globals ⟨["foo"], none, some "1", some "1", none⟩ else .missing

/-- A broken entry of one directory, and an entry of another under the name that the first one's
PKGBUILD lists. -/
def sharedName : Dict String Entry :=
  .ofItems [("$_name", { pkgver := some "1", pkgbuildDir := some "/a" }),
    ("foo", { pkgver := some "2", pkgbuildDir := some "/b", originPkgbase := some "bar" })]

/-- The entry of the other directory is overwritten. -/
theorem sharedName_lost :
    ¬ Repaired listsFoo sharedName (cmdStateRepair listsFoo false sharedName) := by
  intro h
  have hget : sharedName.get "foo" = some
      { pkgver := some "2", pkgbuildDir := some "/b", originPkgbase := some "bar" } := by decide
  have hprot : Protected listsFoo sharedName "foo"
      { pkgver := some "2", pkgbuildDir := some "/b", originPkgbase := some "bar" } :=
    ⟨by decide, .inr (.inr (by decide))⟩
  obtain ⟨e', hget', hsame⟩ := h.kept "foo" _ hget hprot
  have hafter : ((cmdStateRepair listsFoo false sharedName).get "foo").bind Entry.pkgbuildDir =
      some "/a" := by decide
  rw [hget', Option.bind_some, hsame.dir] at hafter
  exact absurd hafter (by decide)

end Sysforge.Repair
