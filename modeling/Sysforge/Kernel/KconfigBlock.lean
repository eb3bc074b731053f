import Sysforge.Kernel.KconfigInstall

/-!
# The block a kconfig plan writes

The drop rules treat every step by itself, so that the order of the contributions does not matter,
and an owner always survives. `installs_iff` is the law of `install`.
-/

namespace Sysforge.Kconfig

open Re Text

variable {alnum : Char → Bool} {text : Text} {noninteractive : Bool} {cs : List Step}
  {i j k a b c : ℕ} {m : Match} {ms : List Match}

/-! ## Contributing -/

theorem contribute_ok {plan : Plan} {s : Step} (h : plan.get s.slot = none) :
    contribute plan s = .ok (plan.set s.slot s) := by
  rw [contribute, h]
  rfl

theorem foldlM_contribute {plan : Plan} (hn : (cs.map Step.slot).Nodup)
    (h : ∀ s ∈ cs, plan.get s.slot = none) :
    ∃ plan', cs.foldlM contribute plan = .ok plan' ∧
      ∀ slot, plan'.get slot = (stepAt cs slot).or (plan.get slot) := by
  induction cs generalizing plan with
  | nil => exact ⟨plan, rfl, fun slot => rfl⟩
  | cons s cs ih =>
    rw [List.map_cons, List.nodup_cons] at hn
    obtain ⟨plan', hp, hget⟩ := @ih (plan.set s.slot s) hn.2 fun s' hs' => by
      rw [Dict.get_set, if_neg, h s' (List.mem_cons_of_mem _ hs')]
      exact fun e => hn.1 (e ▸ List.mem_map_of_mem hs')
    refine ⟨plan', ?_, fun slot => ?_⟩
    · rw [List.foldlM_cons, contribute_ok (h s List.mem_cons_self)]
      exact hp
    · rw [hget, Dict.get_set, stepAt, stepAt, List.map_cons, Assoc.lookup_cons_eq]
      split_ifs with hslot
      · have hnone : (cs.map fun s => (s.slot, s)).lookup slot = none := by
          rw [Assoc.lookup_eq_none, hslot, Assoc.keys, List.map_map]
          exact hn.1
        rw [hnone, Option.none_or, Option.some_or]
      · rfl

/-- The order in which the steps were contributed does not matter. -/
theorem stepAt_perm {cs' : List Step} (h : cs'.Perm cs) (hn : (cs.map Step.slot).Nodup)
    (slot : Slot) : stepAt cs' slot = stepAt cs slot := by
  refine (Assoc.lookup_perm (h.map _).symm ?_ slot).symm
  rw [Assoc.keys, List.map_map]
  exact hn

theorem slot_of_stepAt {slot : Slot} {s : Step} (h : stepAt cs slot = some s) :
    s ∈ cs ∧ s.slot = slot := by
  obtain ⟨s', hs', he⟩ := List.mem_map.mp (Assoc.mem_of_lookup h)
  cases he
  exact ⟨hs', rfl⟩

theorem stepAt_of_mem (hn : (cs.map Step.slot).Nodup) {s : Step} (h : s ∈ cs) :
    stepAt cs s.slot = some s := by
  refine Assoc.lookup_of_mem ?_ (List.mem_map_of_mem (f := fun s : Step => (s.slot, s)) h)
  rw [Assoc.keys, List.map_map]
  exact hn

/-! ## The drop rules -/

theorem get_dropOwnFragment (plan : Plan) (slot : Slot) : (dropOwnFragment text plan).get slot =
    if appliesOwnFragment text ∧ slot.region = .pre then none else plan.get slot := by
  rw [dropOwnFragment]
  cases appliesOwnFragment text with
  | false => rfl
  | true => cases slot <;> simp [Dict.get_erase, Slot.region]

theorem get_rewriteReview (plan : Plan) (slot : Slot) :
    (rewriteReview noninteractive plan).get slot =
      if slot = .review ∧ noninteractive then (plan.get slot).bind Step.unattended
      else plan.get slot := by
  rw [rewriteReview]
  cases noninteractive with
  | false => simp
  | true =>
    cases hr : plan.get .review with
    | none =>
      by_cases hs : slot = .review
      · simp [hs, hr]
      · simp [hs]
    | some s =>
      cases hu : s.unattended with
      | none => by_cases hs : slot = .review <;> simp [hs, hr, hu, Dict.get_erase]
      | some s' => by_cases hs : slot = .review <;> simp [hs, hr, hu, Dict.get_set]

theorem get_dropSecondReview (plan : Plan) (slot : Slot) :
    (dropSecondReview alnum text plan).get slot =
      if slot = .review then
        (plan.get slot).filter fun s => s.ownsGeneration || !(search (reviewRe alnum) text).isSome
      else plan.get slot := by
  rw [dropSecondReview]
  by_cases hs : slot = .review
  · subst hs
    rw [if_pos rfl]
    cases hr : plan.get .review with
    | none => simp [hr]
    | some s =>
      rw [Option.any_some, Option.filter_some]
      cases s.ownsGeneration <;> cases (search (reviewRe alnum) text).isSome <;>
        simp [hr, Dict.get_erase]
  · rw [if_neg hs]
    split
    · rw [Dict.get_erase, if_neg hs]
    · rfl

/-- The drop rules treat every step by itself. -/
theorem get_dropRules {plan : Plan} (hplan : ∀ slot s, plan.get slot = some s → s.slot = slot)
    (slot : Slot) : (dropRules alnum text noninteractive plan).get slot =
      (plan.get slot).bind (survivor alnum text noninteractive) := by
  rw [dropRules, get_dropSecondReview, get_rewriteReview, Dict.get_filter, get_dropOwnFragment]
  cases h : plan.get slot with
  | none => simp
  | some s =>
    have hslot := hplan slot s h
    subst hslot
    rw [Option.bind_some, survivor]
    by_cases hown : appliesOwnFragment text ∧ s.slot.region = .pre
    · simp [hown]
    · rw [if_neg hown, if_neg hown, Option.filter_some]
      by_cases hred : s.redundant text = true
      · simp [hred]
      · have hkept : (if (!s.redundant text) = true then some s else none) = some s :=
          if_pos (by simpa using hred)
        rw [if_neg hred, hkept]
        by_cases hrev : s.slot = .review
        · simp only [hrev, if_true, true_and, Option.bind_some]
        · simp only [hrev, if_false, false_and]

theorem slot_of_survivor {s s' : Step} (h : survivor alnum text noninteractive s = some s') :
    s'.slot = s.slot := by
  rw [survivor] at h
  split_ifs at h with _ _ hrev hn
  · rw [Option.filter_eq_some_iff, Step.unattended, Option.map_eq_some_iff] at h
    obtain ⟨⟨lines, -, rfl⟩, -⟩ := h
    exact hrev.symm
  · rw [Option.filter_eq_some_iff] at h
    cases h.1
    rfl
  · cases h
    rfl

/-- A sound step stays sound, if it survives. -/
theorem lines_of_survivor {s s' : Step} (hs : Sound s)
    (h : survivor alnum text noninteractive s = some s') :
    Lines s s'.lines ∧ s'.ownsGeneration = s.ownsGeneration := by
  rw [survivor] at h
  split_ifs at h with _ _ hrev hn
  · rw [Option.filter_eq_some_iff, Step.unattended, Option.map_eq_some_iff] at h
    obtain ⟨⟨lines, hlines, rfl⟩, -⟩ := h
    exact ⟨hs.rewrite lines hlines, rfl⟩
  · rw [Option.filter_eq_some_iff] at h
    cases h.1
    exact ⟨hs.lines, rfl⟩
  · cases h
    exact ⟨hs.lines, rfl⟩

/-- An owner always survives. -/
theorem survivor_of_owner {s : Step} (hs : Sound s) (ho : s.ownsGeneration = true) :
    ∃ s', survivor alnum text noninteractive s = some s' := by
  rw [survivor, if_neg, if_neg]
  · split_ifs with hrev hn
    · obtain ⟨lines, hlines⟩ := Option.ne_none_iff_exists'.mp (hs.review ho hrev)
      rw [Step.unattended, hlines, Option.map_some, Option.filter_some, ho]
      exact ⟨_, rfl⟩
    · rw [Option.filter_some, ho]
      exact ⟨_, rfl⟩
    · exact ⟨_, rfl⟩
  · rw [Step.redundant, hs.marker ho]
    nofun
  · rintro ⟨-, hpre⟩
    rw [hs.post ho] at hpre
    cases hpre

/-! ## The lines of the block -/

theorem joinLines_newline {ls : List Text} (h : ls ≠ []) :
    joinLines ls ++ ['\n'] = ls.flatMap fun l => l ++ ['\n'] := by
  induction ls with
  | nil => exact absurd rfl h
  | cons l ls ih =>
    cases ls with
    | nil => rw [List.flatMap_singleton]; rfl
    | cons l' ls =>
      rw [List.flatMap_cons, ← ih (List.cons_ne_nil _ _), joinLines, List.append_assoc,
        List.append_assoc]
      · rfl
      · exact List.cons_ne_nil _ _

/-- The rendered lines, each with its newline. -/
def rendered (indent make trailer : Text) (lines : List Text) : Text :=
  lines.flatMap fun l => replace trailerToken trailer (prepared indent make l) ++ ['\n']

theorem render_eq {lines : List Text} (h : lines ≠ []) (indent make trailer : Text) :
    render lines indent make trailer = rendered indent make trailer lines := by
  rw [render, joinLines_newline (by simpa using h), List.flatMap_map]
  rfl

theorem rendered_append (indent make trailer : Text) (l₁ l₂ : List Text) :
    rendered indent make trailer (l₁ ++ l₂) =
      rendered indent make trailer l₁ ++ rendered indent make trailer l₂ :=
  List.flatMap_append

theorem dedupeTrailer_eq_nil {ls : List Text} : dedupeTrailer ls = [] ↔ ls = [] := by
  cases ls <;> simp [dedupeTrailer]

theorem regionText_eq {steps : Plan} {r : Region} {lines : List Text}
    (h : lines ≠ [] ↔ ∃ s ∈ steps.keys, s.region = r) (indent make trailer : Text) :
    regionText steps r lines indent make trailer = rendered indent make trailer lines := by
  rw [regionText]
  by_cases hl : lines = []
  · rw [if_neg]
    · rw [hl]
      rfl
    · intro hany
      obtain ⟨s, hs, hr⟩ := List.any_eq_true.mp hany
      exact h.mpr ⟨s, hs, by simpa using hr⟩ hl
  · obtain ⟨s, hs, hr⟩ := h.mp hl
    rw [if_pos (List.any_eq_true.mpr ⟨s, hs, by simpa using hr⟩), render_eq hl]

/-- The surviving step of a slot. -/
def survivorAt (alnum : Char → Bool) (text : Text) (noninteractive : Bool) (cs : List Step)
    (slot : Slot) : Option Step :=
  (stepAt cs slot).bind (survivor alnum text noninteractive)

theorem lines_of_survivorAt (hcs : ∀ s ∈ cs, Built s) {slot : Slot} {s' : Step}
    (h : survivorAt alnum text noninteractive cs slot = some s') :
    Lines s' s'.lines ∧ s'.slot = slot ∧ (s'.ownsGeneration = true → slot.region = .post) := by
  obtain ⟨s, hs, hsurv⟩ := Option.bind_eq_some_iff.mp h
  obtain ⟨hmem, rfl⟩ := slot_of_stepAt hs
  have hsound := (hcs s hmem).sound
  obtain ⟨hlines, howner⟩ := lines_of_survivor hsound hsurv
  refine ⟨⟨hlines.ne_nil, ?_, ?_⟩, slot_of_survivor hsurv, ?_⟩
  · rw [howner]
    exact hlines.other
  · rw [howner]
    exact hlines.owner
  · rw [howner]
    exact hsound.post

/-- The templates of surviving steps: an owner among them has a make prefix and a trailer, the
others have none. -/
theorem templates_survivors (hcs : ∀ s ∈ cs, Built s) (slots : List Slot) :
    ∃ m n, Templates (slots.flatMap fun s =>
        ((survivorAt alnum text noninteractive cs s).map Step.lines).getD []) m n ∧
      ((∃ slot ∈ slots, ∃ s ∈ survivorAt alnum text noninteractive cs slot,
        s.ownsGeneration = true) → 0 < m ∧ 0 < n) ∧
      ((∀ slot ∈ slots, slot.region = .pre) → m = 0 ∧ n = 0) := by
  induction slots with
  | nil => exact ⟨0, 0, .nil, by simp, fun _ => ⟨rfl, rfl⟩⟩
  | cons slot slots ih =>
    obtain ⟨m, n, ht, hown, hpre⟩ := ih
    rw [List.flatMap_cons]
    have hrest : (∀ slot' ∈ slot :: slots, slot'.region = .pre) → m = 0 ∧ n = 0 := fun h =>
      hpre fun slot' hs' => h slot' (List.mem_cons_of_mem _ hs')
    cases hsurv : survivorAt alnum text noninteractive cs slot with
    | none =>
      refine ⟨m, n, ht, ?_, hrest⟩
      rintro ⟨slot', hs', s, hs, ho⟩
      refine hown ⟨slot', (List.mem_cons.mp hs').resolve_left ?_, s, hs, ho⟩
      rintro rfl
      rw [hsurv] at hs
      cases hs
    | some s' =>
      obtain ⟨hlines, -, hpost⟩ := lines_of_survivorAt hcs hsurv
      rw [Option.map_some, Option.getD_some]
      cases ho' : s'.ownsGeneration with
      | true =>
        obtain ⟨m', hm', ht'⟩ := hlines.owner ho'
        refine ⟨m' + m, 1 + n, ht'.append ht, fun _ => ⟨by omega, by omega⟩, fun h => ?_⟩
        have := h slot List.mem_cons_self
        rw [hpost ho'] at this
        cases this
      | false =>
        refine ⟨0 + m, 0 + n, (hlines.other ho').append ht, ?_, ?_⟩
        · rintro ⟨slot', hs', s, hs, ho⟩
          rw [Nat.zero_add, Nat.zero_add]
          refine hown ⟨slot', (List.mem_cons.mp hs').resolve_left ?_, s, hs, ho⟩
          rintro rfl
          rw [hsurv] at hs
          cases hs
          rw [ho'] at ho
          cases ho
        · rw [Nat.zero_add, Nat.zero_add]
          exact hrest

theorem survivingLines_eq (r : Region) : survivingLines alnum text noninteractive cs r =
    (slotOrder.filter fun s => s.region = r).flatMap fun s =>
      ((survivorAt alnum text noninteractive cs s).map Step.lines).getD [] := rfl

/-- A region has lines where one of its slots has a survivor. -/
theorem survivingLines_ne_nil (hcs : ∀ s ∈ cs, Built s) {r : Region} :
    survivingLines alnum text noninteractive cs r ≠ [] ↔
      ∃ slot : Slot, (∃ s, survivorAt alnum text noninteractive cs slot = some s) ∧
        slot.region = r := by
  have hslots : ∀ slot : Slot, slot ∈ slotOrder := by
    intro slot
    cases slot <;> decide
  rw [survivingLines_eq, Ne, List.flatMap_eq_nil_iff]
  push Not
  constructor
  · rintro ⟨slot, hslot, hne⟩
    refine ⟨slot, ?_, by simpa using (List.mem_filter.mp hslot).2⟩
    cases hs : survivorAt alnum text noninteractive cs slot with
    | none =>
      rw [hs] at hne
      exact absurd rfl hne
    | some s => exact ⟨s, rfl⟩
  · rintro ⟨slot, ⟨s, hs⟩, hr⟩
    refine ⟨slot, List.mem_filter.mpr ⟨hslots slot, by simpa using hr⟩, ?_⟩
    rw [hs]
    exact (lines_of_survivorAt hcs hs).1.ne_nil

section Block

variable (hcs : ∀ s ∈ cs, Built s) {slot : Slot} {s : Step}
  (howner : survivorAt alnum text noninteractive cs slot = some s) (ho : s.ownsGeneration = true)
include hcs howner ho

theorem survivingLines_post_ne_nil : survivingLines alnum text noninteractive cs .post ≠ [] :=
  (survivingLines_ne_nil hcs).mpr ⟨slot, ⟨s, howner⟩, (lines_of_survivorAt hcs howner).2.2 ho⟩

/-- The block has a make prefix, and one trailer. -/
theorem templates_blockLines :
    ∃ m, 0 < m ∧ Templates (blockLines alnum text noninteractive cs) m 1 := by
  obtain ⟨m, n, hpre, -, hzero⟩ := @templates_survivors alnum text noninteractive cs hcs
    (slotOrder.filter fun s => s.region = .pre)
  obtain ⟨m', n', hpost, hpos, -⟩ := @templates_survivors alnum text noninteractive cs hcs
    (slotOrder.filter fun s => s.region = .post)
  obtain ⟨rfl, rfl⟩ := hzero fun slot hs => by simpa using (List.mem_filter.mp hs).2
  have hslot : slot ∈ slotOrder.filter fun s => s.region = .post := by
    refine List.mem_filter.mpr ⟨?_, by simpa using (lines_of_survivorAt hcs howner).2.2 ho⟩
    cases slot <;> decide
  obtain ⟨hm', hn'⟩ := hpos ⟨slot, hslot, s, howner, ho⟩
  refine ⟨0 + m', by omega, ?_⟩
  have := hpre.append hpost.dedupe
  rwa [show 0 + min n' 1 = 1 by omega] at this

/-- The captured trailer is put in once, unless the make prefix has more of them. -/
theorem trailerCount_le_one {indent make : Text} (hc : Captured indent make) :
    trailerCount indent make (blockLines alnum text noninteractive cs) ≤ 1 ↔
      occurrences trailerToken make = 0 := by
  obtain ⟨m, hm, ht⟩ := templates_blockLines hcs howner ho
  rw [ht.trailerCount_eq hc]
  constructor
  · intro hle
    by_contra hne
    have := Nat.mul_pos hm (Nat.pos_of_ne_zero hne)
    omega
  · intro h
    rw [h, Nat.mul_zero]

end Block

/-! ## The result of `install` -/

/-- What `install` splices in has the text of the block. -/
theorem count_insertAt (t b : Text) (i : ℕ) (c : Char) :
    (insertAt t i b).count c = t.count c + b.count c := by
  have h : (t.take i).count c + (t.drop i).count c = t.count c := by
    rw [← List.count_append, List.take_append_drop]
  rw [insertAt, List.count_append, List.count_append]
  omega

theorem length_insertAt (t b : Text) (i : ℕ) :
    (insertAt t i b).length = t.length + b.length := by
  have h : (t.take i).length + (t.drop i).length = t.length := by
    rw [← List.length_append, List.take_append_drop]
  rw [insertAt, List.length_append, List.length_append]
  omega

theorem insertAt_append (x y b : Text) : insertAt (x ++ y) x.length b = x ++ b ++ y := by
  rw [insertAt, List.take_left, List.drop_left]

/-- What `install` writes where a step owns the generation. -/
theorem install_eq {cs' : List Step} (hperm : cs'.Perm cs) (hcs : ∀ s ∈ cs, Built s)
    (hslots : (cs.map Step.slot).Nodup) (howner : ∃ s ∈ cs, s.ownsGeneration = true)
    {path : String} {first : Match} {rest : List Match}
    (hms : finditer (anyRe alnum) text = first :: rest) :
    (cs'.foldlM contribute .empty >>= fun plan => install alnum path plan noninteractive text) =
      .ok (insertAt (insertAt (rewrite alnum noninteractive (removeMatches (first :: rest) text))
        first.start (rendered (first.group text 1) (first.group text 2) (first.group text 3)
          (dedupeTrailer (survivingLines alnum text noninteractive cs .post))))
        first.start (rendered (first.group text 1) (first.group text 2) (first.group text 3)
          (survivingLines alnum text noninteractive cs .pre))) := by
  have hslots' : (cs'.map Step.slot).Nodup := (hperm.map _).nodup_iff.mpr hslots
  obtain ⟨plan, hplan, hget⟩ := @foldlM_contribute cs' .empty hslots' fun _ _ => rfl
  have hat : ∀ slot, plan.get slot = stepAt cs slot := by
    intro slot
    rw [hget, stepAt_perm hperm hslots]
    exact Option.or_none
  have hsteps : ∀ slot, (dropRules alnum text noninteractive plan).get slot =
      survivorAt alnum text noninteractive cs slot := by
    intro slot
    rw [get_dropRules, hat, survivorAt]
    intro slot s hs
    rw [hat] at hs
    exact (slot_of_stepAt hs).2
  rw [hplan]
  change install alnum path plan noninteractive text = _
  rw [install]
  generalize dropRules alnum text noninteractive plan = steps at hsteps
  have hlines : ∀ r, regionLines steps r = survivingLines alnum text noninteractive cs r := by
    intro r
    simp only [regionLines, survivingLines_eq, hsteps]
  have hkeys : ∀ r : Region, survivingLines alnum text noninteractive cs r ≠ [] ↔
      ∃ s ∈ steps.keys, s.region = r := by
    intro r
    rw [survivingLines_ne_nil hcs]
    refine exists_congr fun slot => and_congr_left fun _ => ?_
    rw [← hsteps, ← Option.ne_none_iff_exists', Ne, Dict.get_eq_none, not_not]
  obtain ⟨s, hs, ho⟩ := howner
  obtain ⟨s', hs'⟩ := @survivor_of_owner alnum text noninteractive s (hcs s hs).sound ho
  have hmem : (s.slot, s') ∈ steps.items := by
    rw [Dict.mem_items, hsteps, survivorAt, stepAt_of_mem hslots hs]
    exact hs'
  have ho' : s'.ownsGeneration = true := by
    rw [(lines_of_survivor (hcs s hs).sound hs').2, ho]
  rw [if_neg (List.ne_nil_of_mem hmem), if_pos (List.any_eq_true.mpr ⟨_, hmem, ho'⟩), hms]
  change Except.ok (splice _ _ _) = _
  rw [splice, if_neg (lt_irrefl _), hlines, hlines, regionText_eq (hkeys .pre)]
  rw [regionText_eq (by rw [Ne, dedupeTrailer_eq_nil]; exact hkeys .post)]

/-- The block, in two parts. -/
theorem render_blockLines (hcs : ∀ s ∈ cs, Built s) {slot : Slot} {s : Step}
    (howner : survivorAt alnum text noninteractive cs slot = some s)
    (ho : s.ownsGeneration = true) (indent make trailer : Text) :
    render (blockLines alnum text noninteractive cs) indent make trailer =
      rendered indent make trailer (survivingLines alnum text noninteractive cs .pre) ++
        rendered indent make trailer
          (dedupeTrailer (survivingLines alnum text noninteractive cs .post)) := by
  rw [render_eq, blockLines, rendered_append]
  refine List.append_ne_nil_of_right_ne_nil _ ?_
  rw [Ne, dedupeTrailer_eq_nil]
  exact survivingLines_post_ne_nil hcs howner ho

/-- What the removal pass leaves: the text without its kconfig lines, or one newline less. -/
theorem removeMatches_withoutKconfig (text : Text) :
    (Ended text (finditer (anyRe alnum) text) ∧
      removeMatches (finditer (anyRe alnum) text) text = withoutKconfig alnum text) ∨
    (¬ Ended text (finditer (anyRe alnum) text) ∧
      removeMatches (finditer (anyRe alnum) text) text = (withoutKconfig alnum text).dropLast ∧
      (withoutKconfig alnum text = [] ∨ (withoutKconfig alnum text).getLast? = some '\n')) := by
  have hl : ∀ m ∈ finditer (anyRe alnum) text, LineMatch text m := fun m h => lineMatch_of_mem h
  have ho := finditer_ordered (anyRe alnum) text
  rw [removeMatches_eq, withoutKconfig]
  by_cases he : Ended text (finditer (anyRe alnum) text)
  · exact .inl ⟨he, foldr_cut_of_ended hl ho he⟩
  · exact .inr ⟨he, foldr_cut_of_not_ended hl ho he⟩

/-- A newline taken out too many changes no `d`. -/
theorem count_removeMatches (text : Text) :
    (removeMatches (finditer (anyRe alnum) text) text).count 'd' =
      (withoutKconfig alnum text).count 'd' := by
  obtain ⟨-, h⟩ | ⟨-, h, hnil | hlast⟩ := @removeMatches_withoutKconfig alnum text
  · rw [h]
  · rw [h, hnil]
    rfl
  · rw [h]
    conv_rhs => rw [← List.dropLast_append_getLast? _ hlast]
    rw [List.count_append]
    rfl

/-- What the removal and the rewrite leave of a clean text. -/
theorem rewrite_removeMatches
    (hquiet : noninteractive = true →
      finditer (interactiveRe alnum) (withoutKconfig alnum text) = [])
    (hended : Ended text (finditer (anyRe alnum) text) ∨ withoutKconfig alnum text = []) :
    rewrite alnum noninteractive (removeMatches (finditer (anyRe alnum) text) text) =
      withoutKconfig alnum text := by
  have hsame : removeMatches (finditer (anyRe alnum) text) text = withoutKconfig alnum text := by
    obtain ⟨-, hr⟩ | ⟨he, hr, -⟩ := @removeMatches_withoutKconfig alnum text
    · exact hr
    · rw [hr, hended.resolve_left he]
      rfl
  rw [hsame, rewrite]
  split
  next hn => exact sub_of_finditer_eq_nil (hquiet hn)
  · rfl

/-- A text that is not clean is left with another length or more `d`s. -/
theorem clean_of_rewrite_removeMatches
    (hcount : (rewrite alnum noninteractive
      (removeMatches (finditer (anyRe alnum) text) text)).count 'd' =
        (withoutKconfig alnum text).count 'd')
    (hlength : (rewrite alnum noninteractive
      (removeMatches (finditer (anyRe alnum) text) text)).length =
        (withoutKconfig alnum text).length) :
    (noninteractive = true → finditer (interactiveRe alnum) (withoutKconfig alnum text) = []) ∧
      (Ended text (finditer (anyRe alnum) text) ∨ withoutKconfig alnum text = []) := by
  -- more `d`s show a rewrite, so there was none, and the lengths are those of the removal
  have hquiet : (noninteractive = true → finditer (interactiveRe alnum)
      (removeMatches (finditer (anyRe alnum) text) text) = []) ∧
      rewrite alnum noninteractive (removeMatches (finditer (anyRe alnum) text) text) =
        removeMatches (finditer (anyRe alnum) text) text := by
    rw [rewrite] at hcount ⊢
    cases noninteractive with
    | false => exact ⟨nofun, rfl⟩
    | true =>
      rw [if_pos rfl] at hcount ⊢
      rw [← count_removeMatches] at hcount
      rcases @count_rewrite alnum (removeMatches (finditer (anyRe alnum) text) text) with h | h
      · exact ⟨fun _ => h.1, h.2⟩
      · exact absurd hcount h.ne'
  rw [hquiet.2] at hlength
  obtain ⟨he, hr⟩ | ⟨-, hr, -⟩ := @removeMatches_withoutKconfig alnum text
  · rw [hr] at hquiet
    exact ⟨hquiet.1, .inl he⟩
  · have hnil : withoutKconfig alnum text = [] := by
      rw [hr, List.length_dropLast] at hlength
      exact List.eq_nil_of_length_eq_zero (by omega)
    rw [hr, hnil] at hquiet
    rw [hnil]
    exact ⟨hquiet.1, .inr rfl⟩

section First

variable {first : Match} {rest : List Match} (h : finditer (anyRe alnum) text = first :: rest)
include h

/-- The kept lines before the first kconfig line, and those behind it. -/
theorem withoutKconfig_eq : withoutKconfig alnum text =
    text.take first.start ++ keepFrom text (afterLine text first.stop) rest := by
  rw [withoutKconfig, h, keepFrom, slice, List.drop_zero]

theorem expected_eq : expected alnum text noninteractive cs = text.take first.start ++
    render (blockLines alnum text noninteractive cs) (first.group text 1) (first.group text 2)
      (first.group text 3) ++ keepFrom text (afterLine text first.stop) rest := by
  have hempty : slice text first.start first.start = [] := by
    rw [slice, List.drop_take, Nat.sub_self, List.take_zero]
  rw [expected, h]
  change _ ++ (slice text first.start first.start ++ _) = _
  rw [hempty, List.nil_append]

end First

/-- **`install` writes the text without its kconfig lines and the block in the place of the first
if and only if the text is clean.** -/
theorem installs_iff {path : String} (hms : finditer (anyRe alnum) text ≠ [])
    (hcs : ∀ s ∈ cs, Built s) (hslots : (cs.map Step.slot).Nodup)
    (howner : ∃ s ∈ cs, s.ownsGeneration = true) :
    Installs alnum path text noninteractive cs ↔ Clean alnum text noninteractive := by
  obtain ⟨first, rest, hfirst⟩ := List.exists_cons_of_ne_nil hms
  obtain ⟨a, b, c, hline⟩ := @kconfigLine_of_mem alnum text first (hfirst ▸ List.mem_cons_self)
  obtain ⟨s, hs, ho⟩ := howner
  obtain ⟨s', hs'⟩ := @survivor_of_owner alnum text noninteractive s (hcs s hs).sound ho
  have ho' : s'.ownsGeneration = true := by
    rw [(lines_of_survivor (hcs s hs).sound hs').2, ho]
  have hat : survivorAt alnum text noninteractive cs s.slot = some s' := by
    rw [survivorAt, stepAt_of_mem hslots hs]
    exact hs'
  have htrailer := trailerCount_le_one hcs hat ho' hline.captured
  have hblock := render_blockLines hcs hat ho' (first.group text 1) (first.group text 2)
    (first.group text 3)
  have hhead : ∀ P : Match → Prop, (∀ m ∈ (finditer (anyRe alnum) text).head?, P m) ↔ P first := by
    intro P
    rw [hfirst]
    simp
  have hinstall := fun cs' (hperm : cs'.Perm cs) =>
    @install_eq alnum text noninteractive cs cs' hperm hcs hslots ⟨s, hs, ho⟩ path first rest hfirst
  rw [← hfirst] at hinstall
  constructor
  · intro h
    have hwritten := (hinstall cs (.refl _)).symm.trans (h.written cs (.refl _))
    rw [Except.ok.injEq, expected_eq hfirst, hblock] at hwritten
    have hcount := congrArg (List.count 'd') hwritten
    have hlength := congrArg List.length hwritten
    rw [count_insertAt, count_insertAt] at hcount
    rw [length_insertAt, length_insertAt] at hlength
    simp only [List.count_append, List.length_append] at hcount hlength
    obtain ⟨hquiet, hended⟩ := @clean_of_rewrite_removeMatches alnum text noninteractive
      (by rw [withoutKconfig_eq hfirst, List.count_append]; omega)
      (by rw [withoutKconfig_eq hfirst, List.length_append]; omega)
    exact ⟨hquiet, hended, (hhead _).mpr (htrailer.mp ((hhead _).mp h.trailer))⟩
  · intro h
    refine ⟨fun cs' hperm => ?_, (hhead _).mpr (htrailer.mpr ((hhead _).mp h.plain))⟩
    have hlen : (text.take first.start).length = first.start := by
      rw [List.length_take, min_eq_left (hline.start_lt.le.trans hline.stop_le)]
    rw [hinstall cs' hperm, rewrite_removeMatches h.quiet h.ended, withoutKconfig_eq hfirst,
      expected_eq hfirst, hblock]
    generalize text.take first.start = x at hlen
    rw [← hlen, insertAt_append, List.append_assoc, insertAt_append]
    simp only [List.append_assoc]

/-- A recipe whose `prepare()` runs one target. -/
def recipe : Text := "prepare() \x7b\n  make defconfig\n\x7d\n".toList

/-- The configured sequence takes the place of the packager's target. -/
theorem installs_recipe :
    Installs (fun _ => false) "PKGBUILD" recipe true [generateStep ["olddefconfig".toList]] := by
  have hbuilt : ∀ s ∈ [generateStep ["olddefconfig".toList]], Built s := by
    intro s hs
    rw [List.mem_singleton.mp hs]
    exact .generate (List.cons_ne_nil _ _) (by decide)
  refine (installs_iff (by decide) hbuilt (by decide)
    ⟨_, List.mem_singleton_self _, rfl⟩).mpr ⟨fun _ => ?_, .inl ?_, ?_⟩
  · decide
  · decide
  · decide

/-- A last kconfig line without a newline glues the block to the line before it, and an unattended
run rewrites a line that the removal made a review out of. -/
theorem not_installs :
    ¬ Installs (fun _ => false) "PKGBUILD" "a\nmake olddefconfig".toList false
        [generateStep ["olddefconfig".toList]] ∧
      ¬ Installs (fun _ => false) "PKGBUILD" "make olddefconfig\nmake\nnconfig\n".toList true
        [generateStep ["olddefconfig".toList]] := by
  refine ⟨fun h => ?_, fun h => ?_⟩
  · exact absurd (h.written _ (.refl _)) (by decide)
  · exact absurd (h.written _ (.refl _)) (by decide)

end Sysforge.Kconfig
