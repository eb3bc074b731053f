import Sysforge.Aur.BuildOrder

/-!
# Who requires a dependency

`_resolve_deps` notes in `required_by` who names a dependency. What it notes is true
(`resolveDeps_justified`). It is all there is where no package is resolved anew after it was met
(`resolveDeps_isRecorder`): the entry of a package that is resolved replaces the one before, and with
it the requirers noted so far.
-/

namespace Sysforge.Aur

/-- A dependency spec of `specs` that the resolver follows has the name `n`. -/
def Names (specs : List String) (n : String) : Prop :=
  ∃ d ∈ specs, isSoname d = false ∧ isNamed d = true ∧ stripVersion d = n

/-- The requirers noted for a name. -/
def Tables.requirers (t : Tables) (n : String) : List String :=
  ((t.visited.get n).map ResolvedDep.requiredBy).getD []

/-- No requirer of an AUR package is forgotten. -/
def Tables.Grows (env : Env) (t t' : Tables) : Prop :=
  ∀ n, isAur env n = true → ∀ r ∈ t.requirers n, r ∈ t'.requirers n

/-- `r` is noted as a requirer of the AUR packages that `specs` names. -/
def Tables.Records (env : Env) (t : Tables) (r : String) (specs : List String) : Prop :=
  ∀ n, isAur env n = true → Names specs n → r ∈ t.requirers n

section Tables

variable {env : Env} {t t' : Tables} {specs names : List String} {r n name : String} {depth : ℕ}

theorem Tables.Grows.refl : Tables.Grows env t t := fun _ _ _ h => h

theorem Tables.Grows.trans {t'' : Tables} (h : Tables.Grows env t t')
    (h' : Tables.Grows env t' t'') : Tables.Grows env t t'' := fun n hn r hr => h' n hn r (h n hn r hr)

theorem Tables.Records.mono (h : Tables.Records env t r specs) (hg : Tables.Grows env t t') :
    Tables.Records env t' r specs := fun n hn hs => hg n hn r (h n hn hs)

theorem requirers_eq_nil (h : n ∉ t.visited.keys) : t.requirers n = [] := by
  rw [Tables.requirers, Dict.get_eq_none.mpr h]
  rfl

theorem requirers_note {source : Source} : (t.note source depth r names).requirers n =
    if n ∈ names then [r] else t.requirers n := by
  have h : ∀ (names : List String) (v : Dict String ResolvedDep),
      (names.foldl (fun v n => v.set n
        { name := n, source := source, depth := depth, requiredBy := [r] }) v).get n =
        if n ∈ names then
          some { name := n, source := source, depth := depth, requiredBy := [r] } else v.get n := by
    intro names
    induction names with
    | nil => exact fun v => rfl
    | cons m names ih =>
      intro v
      rw [List.foldl_cons, ih, Dict.get_set]
      by_cases hm : n = m
      · subst hm
        simp
      · simp [hm]
  rw [Tables.requirers, Tables.note, h]
  split <;> rfl

theorem requirers_leave {path : Option String} : (t.leave name depth r path).requirers n =
    if n = name then [r] else t.requirers n := by
  simp only [Tables.requirers, Tables.leave, Dict.get_set]
  split <;> rfl

theorem mem_noteRequirer {d : ResolvedDep} {q : String} :
    q ∈ (d.noteRequirer r).requiredBy ↔ q ∈ d.requiredBy ∨ q = r := by
  rw [ResolvedDep.noteRequirer]
  split
  next h => exact ⟨.inl, fun hq => hq.elim id fun e => e ▸ h⟩
  next => simp

/-- What one spec of the loop that builds `name_map` notes. -/
theorem requirers_collectStep {acc : Tables × List (String × String)} {spec q : String} :
    q ∈ (collectStep r acc spec).1.requirers n ↔ q ∈ acc.1.requirers n ∨
      q = r ∧ isNamed spec = true ∧ stripVersion spec = n ∧ n ∈ acc.1.visited.keys := by
  rw [collectStep]
  cases h : looksUnresolved spec || stripVersion spec = "" with
  | true => simp [isNamed, h]
  | false =>
    rw [if_neg (by simp)]
    have hn : isNamed spec = true := by simp [isNamed, h]
    split
    next d hd =>
      have hk : stripVersion spec ∈ acc.1.visited.keys := by
        by_contra hk
        rw [Dict.get_eq_none.mpr hk] at hd
        cases hd
      simp only [Tables.requirers, Dict.get_set]
      by_cases he : n = stripVersion spec
      · subst he
        rw [if_pos rfl, hd]
        simp [mem_noteRequirer, hn, hk]
      · simp [he, Ne.symm he]
    next hd =>
      have hk := Dict.get_eq_none.mp hd
      have he : ¬(stripVersion spec = n ∧ n ∈ acc.1.visited.keys) := fun h => hk (h.1 ▸ h.2)
      split <;> simp [he]

/-- What the loop that builds `name_map` notes. -/
theorem requirers_collect {q : String} : q ∈ (collect t r specs).1.requirers n ↔
    q ∈ t.requirers n ∨
      q = r ∧ n ∈ t.visited.keys ∧ ∃ d ∈ specs, isNamed d = true ∧ stripVersion d = n := by
  have h : ∀ (specs : List String) (acc : Tables × List (String × String)),
      q ∈ (specs.foldl (collectStep r) acc).1.requirers n ↔ q ∈ acc.1.requirers n ∨
        q = r ∧ n ∈ acc.1.visited.keys ∧ ∃ d ∈ specs, isNamed d = true ∧ stripVersion d = n := by
    intro specs
    induction specs with
    | nil => simp
    | cons spec specs ih =>
      intro acc
      rw [List.foldl_cons, ih, requirers_collectStep, collectStep_agrees.visited]
      simp only [List.mem_cons, exists_eq_or_imp]
      tauto
  exact h specs (t, [])

theorem names_iff : Names specs n ↔ ∃ d, (n, d) ∈ firstSpecs specs := by
  have hk : Names specs n ↔ n ∈ Assoc.keys (named (specs.filter fun d => !isSoname d)) := by
    simp only [Names, named, Assoc.keys, List.map_map, List.mem_map, List.mem_filter]
    simp [and_assoc]
  have hl : (∃ d, (n, d) ∈ firstSpecs specs) ↔
      ∃ d, (named (specs.filter fun d => !isSoname d)).lookup n = some d :=
    exists_congr fun d => Walk.mem_keepFirst
  rw [hk, hl, ← Option.ne_none_iff_exists', ne_eq, Assoc.lookup_eq_none, not_not]

theorem requirers_marked (hn : isAur env n = true) : (marked env t specs depth r).requirers n =
    if n ∈ ((openSpecs t specs).filter fun p => env.satisfied p.2).map Prod.fst then [r]
    else (collect t r (specs.filter fun d => !isSoname d)).1.requirers n := by
  have hr : env.inRepo n = false := by
    simp only [isAur, Bool.and_eq_true, Bool.not_eq_true'] at hn
    exact hn.1
  rw [marked, requirers_note, requirers_note, if_neg (by simp [hr])]

/-- A call begins by noting its requirer, but for the candidates. -/
theorem mem_requirers_marked {q : String} (hn : isAur env n = true) :
    q ∈ (marked env t specs depth r).requirers n ↔
      q ∈ t.requirers n ∨ q = r ∧ Names specs n ∧ n ∉ candidates env t specs := by
  have hr : env.inRepo n = false := by
    simp only [isAur, Bool.and_eq_true, Bool.not_eq_true'] at hn
    exact hn.1
  have ho : ∀ d, (n, d) ∈ openSpecs t specs ↔ (n, d) ∈ firstSpecs specs ∧ n ∉ t.visited.keys := by
    simp [openSpecs]
  have hc : n ∈ candidates env t specs ↔ n ∉ t.visited.keys ∧
      ∃ d, (n, d) ∈ firstSpecs specs ∧ env.satisfied d = false := by
    simp only [candidates, List.mem_filter, List.mem_map, hr]
    simp only [Prod.exists, exists_and_right, exists_eq_right, ho, Bool.not_eq_true', Bool.not_false,
      and_true]
    exact ⟨fun h => by tauto, fun h => by tauto⟩
  have hi : n ∈ ((openSpecs t specs).filter fun p => env.satisfied p.2).map Prod.fst ↔
      n ∉ t.visited.keys ∧ ∃ d, (n, d) ∈ firstSpecs specs ∧ env.satisfied d = true := by
    simp only [List.mem_map, List.mem_filter, Prod.exists, exists_and_right, exists_eq_right, ho]
    exact ⟨fun h => by tauto, fun h => by tauto⟩
  have hnames : (∃ d ∈ specs.filter (fun d => !isSoname d), isNamed d = true ∧ stripVersion d = n) ↔
      Names specs n := by
    simp [Names, and_assoc]
  have hfun : ∀ d d', (n, d) ∈ firstSpecs specs → (n, d') ∈ firstSpecs specs → d = d' :=
    fun d d' h h' => Option.some.inj ((Walk.mem_keepFirst.mp h).symm.trans (Walk.mem_keepFirst.mp h'))
  rw [requirers_marked hn]
  by_cases hv : n ∈ t.visited.keys
  · rw [if_neg fun h => (hi.mp h).1 hv, requirers_collect, hnames, hc]
    simp [hv]
  · by_cases hin : n ∈ ((openSpecs t specs).filter fun p => env.satisfied p.2).map Prod.fst
    · obtain ⟨-, d, hd, hs⟩ := hi.mp hin
      have hnc : n ∉ candidates env t specs := fun h => by
        obtain ⟨-, d', hd', hs'⟩ := hc.mp h
        rw [hfun d d' hd hd', hs'] at hs
        cases hs
      rw [if_pos hin, requirers_eq_nil hv]
      simp [names_iff.mpr ⟨d, hd⟩, hnc]
    · rw [if_neg hin, requirers_collect, requirers_eq_nil hv]
      simp only [List.not_mem_nil, false_or, hv, false_and, and_false, false_iff, not_and, not_not]
      intro _ hnm
      obtain ⟨d, hd⟩ := names_iff.mp hnm
      refine hc.mpr ⟨hv, d, hd, ?_⟩
      by_contra hs
      exact hin (hi.mpr ⟨hv, d, hd, by simpa using hs⟩)

end Tables

/-! ## Nothing is forgotten -/

section Records

variable {env : Env} {fetch : Bool} {t t' : Tables} {specs names : List String} {r n name : String}
  {depth fuel : ℕ} {s' : Walk.State String}

/-- What a resolution leaves when no package is resolved anew after it was met: the requirers there
were, and those of the packages it resolved. -/
structure Recorded (env : Env) (fetch : Bool) (t t' : Tables) : Prop where
  grows : Tables.Grows env t t'
  order : ∀ m ∈ t'.order, m ∈ t.order ∨ Tables.Records env t' m (depsOf env fetch m)

/-- `resolve` records what it is called with, over any walk that closes no package twice. -/
def IsRecorder (env : Env) (fetch : Bool)
    (resolve : Tables → List String → ℕ → String → Except Failure Tables) : Prop :=
  ∀ t specs depth r t' s', resolve t specs depth r = .ok t' →
    Walk.ApartCall (graph env fetch) (t.view env) (batch env specs) s' →
    t'.view env = s' ∧ Recorded env fetch t t' ∧ Tables.Records env t' r specs

theorem Recorded.trans {t₁ : Tables} (h : Recorded env fetch t t₁)
    (h' : Recorded env fetch t₁ t') : Recorded env fetch t t' where
  grows := h.grows.trans h'.grows
  order m hm := by
    rcases h'.order m hm with hm | hm
    · exact (h.order m hm).imp id fun h => h.mono h'.grows
    · exact .inr hm

theorem foldlM_records {resolve : Tables → List String → ℕ → String → Except Failure Tables}
    (ih : IsRecorder env fetch resolve) {C : Set String}
    (hC : ∀ n ∈ names, isAur env n = true → n ∉ C) (hr : ∀ n ∈ names, env.inRepo n = false)
    (ha : Walk.ApartLoop (graph env fetch) C (t.view env) (names.filter (isAur env)) s')
    (h : names.foldlM (resolveCandidate env fetch resolve depth r) t = .ok t') :
    t'.view env = s' ∧ Recorded env fetch t t' ∧
      ∀ n ∈ names, isAur env n = true → r ∈ t'.requirers n := by
  induction names generalizing t with
  | nil =>
    cases h
    cases ha
    exact ⟨rfl, ⟨.refl, fun m hm => .inl hm⟩, nofun⟩
  | cons name names ihn =>
    rw [List.foldlM_cons] at h
    obtain ⟨t₂, hstep, h⟩ := bind_ok h
    have hC' := fun n hn => hC n (List.mem_cons_of_mem _ hn)
    have hr' := fun n hn => hr n (List.mem_cons_of_mem _ hn)
    have hrepo := hr name List.mem_cons_self
    obtain ⟨hi, rfl⟩ | ⟨info, t₁, hi, hp, hres, rfl⟩ := resolveCandidate_ok hstep
    · have hn : isAur env name = false := by simp [isAur, hi]
      rw [List.filter_cons_of_neg (by simp [hn]), ← @note_view env t r depth name .unknown hn] at ha
      obtain ⟨hview, hrec, hnames⟩ := ihn hC' hr' ha h
      have hnote : Tables.Grows env t (t.note .unknown depth r [name]) := by
        intro n hn' q hq
        rw [requirers_note, if_neg]
        · exact hq
        · intro h
          rw [List.mem_singleton.mp h, hn] at hn'
          cases hn'
      have hrec₀ : Recorded env fetch t _ := ⟨hnote, fun m hm => .inl hm⟩
      refine ⟨hview, hrec₀.trans hrec, fun n hn' hna => ?_⟩
      · obtain rfl | hn' := List.mem_cons.mp hn'
        · rw [hn] at hna
          cases hna
        · exact hnames n hn' hna
    · have hn : isAur env name = true := by simp [isAur, hi, hrepo]
      have hg : batch env (childDeps env fetch name info).2 = graph env fetch name := by
        simp only [graph, depsOf, hi]
      have hdeps : (childDeps env fetch name info).2 = depsOf env fetch name := by
        simp only [depsOf, hi]
      rw [List.filter_cons_of_pos hn] at ha
      cases ha with
      | skip hx _ => exact absurd hx (hC name List.mem_cons_self hn)
      | @visit _ _ _ _ s₁ _ hx ha₁ hf ha =>
        rw [← hg] at ha₁
        obtain ⟨rfl, hrec₁, hown⟩ := ih _ _ _ _ _ _ hres ha₁
        rw [← @leave_view env t₁ r depth name (childDeps env fetch name info).1 hn] at ha
        obtain ⟨hview, hrec, hnames⟩ := ihn hC' hr' ha h
        -- The package was not met in its own visit, so its entry takes nobody's place.
        have hleave : Tables.Grows env t₁
            (t₁.leave name depth r (childDeps env fetch name info).1) := by
          intro n hn' q hq
          rw [requirers_leave, if_neg]
          · exact hq
          · rintro rfl
            rw [requirers_eq_nil fun hk => hf ⟨hn', hk⟩] at hq
            cases hq
        have hrec₀ : Recorded env fetch t
            (t₁.leave name depth r (childDeps env fetch name info).1) := by
          refine ⟨Tables.Grows.trans hrec₁.grows hleave, fun m hm => ?_⟩
          rcases List.mem_append.mp hm with hm | hm
          · exact (hrec₁.order m hm).imp id fun h => h.mono hleave
          · rw [List.mem_singleton.mp hm, ← hdeps]
            exact .inr (hown.mono hleave)
        refine ⟨hview, hrec₀.trans hrec, fun n hn' hna => ?_⟩
        · obtain rfl | hn' := List.mem_cons.mp hn'
          · refine hrec.grows n hna r ?_
            rw [requirers_leave, if_pos rfl]
            exact List.mem_singleton_self r
          · exact hnames n hn' hna

theorem resolveDeps_isRecorder : IsRecorder env fetch (resolveDeps env fetch fuel) := by
  induction fuel with
  | zero =>
    intro t specs depth r t' s' h
    cases h
  | succ fuel ih =>
    intro t specs depth r t' s' h ha
    rw [resolveDeps_succ] at h
    have hv : ∀ n ∈ Walk.wanted (batch env specs),
        decide (n ∉ t.visited.keys) = true ↔ n ∉ (t.view env).closed := by
      intro n hn
      have hna : isAur env n = true := (needs_batch.mp (Walk.needs_of_mem_wanted hn)).1
      simp [Tables.view, hna]
    have hC : ∀ n ∈ candidates env t specs, isAur env n = true → n ∉ (t.view env).closed := by
      intro n hn hna hc
      have hmem := List.mem_filter.mpr ⟨hn, hna⟩
      rw [filter_candidates, List.mem_filter] at hmem
      exact (by simpa using hmem.2 : n ∉ t.visited.keys) hc.2
    have hr : ∀ n ∈ candidates env t specs, env.inRepo n = false := fun n hn => by
      simpa using (List.mem_filter.mp hn).2
    have ha' := Walk.ApartLoop.filter hv ha
    rw [← filter_candidates, ← @marked_view env t specs r depth] at ha'
    obtain ⟨hview, hrec, hnames⟩ := foldlM_records ih hC hr ha' h
    have hrec₀ : Recorded env fetch t (marked env t specs depth r) := by
      refine ⟨fun n hn q hq => (mem_requirers_marked hn).mpr (.inl hq), fun m hm => ?_⟩
      rw [marked_order] at hm
      exact .inl hm
    refine ⟨hview, hrec₀.trans hrec, fun n hn hs => ?_⟩
    by_cases hc : n ∈ candidates env t specs
    · exact hnames n hc hn
    · exact hrec.grows n hn r ((mem_requirers_marked hn).mpr (.inr ⟨rfl, hs, hc⟩))

end Records

/-! ## Nothing is made up -/

section Justified

variable {env : Env} {fetch : Bool} {t t' t₁ : Tables} {specs names : List String}
  {r n name : String} {depth fuel : ℕ} {root : String → String → Prop}

/-- Who is noted as a requirer names the package: a package resolved or in progress, or a root. -/
def Tables.Justified (env : Env) (fetch : Bool) (root : String → String → Prop) (t : Tables) :
    Prop :=
  ∀ n, isAur env n = true → ∀ r ∈ t.requirers n,
    (r ∈ t.order ∨ r ∈ t.inProgress) ∧ Names (depsOf env fetch r) n ∨ root r n

theorem leave_inProgress {path : Option String} (hn : name ∉ t.inProgress)
    (h : t₁.inProgress = name :: t.inProgress) :
    (t₁.leave name depth r path).inProgress = t.inProgress := by
  show t₁.inProgress.filter _ = _
  rw [h, List.filter_cons_of_neg (by simp), List.filter_eq_self]
  exact fun m hm => decide_eq_true fun e => hn (e ▸ hm)

theorem Tables.Justified.leave {path : Option String} (h : t.Justified env fetch root)
    (hr : isAur env name = true →
      (r ∈ (t.leave name depth r path).order ∨ r ∈ (t.leave name depth r path).inProgress) ∧
        Names (depsOf env fetch r) name ∨ root r name) :
    (t.leave name depth r path).Justified env fetch root := by
  intro n hn q hq
  rw [requirers_leave] at hq
  split at hq
  next e =>
    subst e
    rw [List.mem_singleton] at hq
    subst hq
    exact hr hn
  next =>
    refine (h n hn q hq).imp_left fun h => ⟨?_, h.2⟩
    by_cases hqn : q = name
    · exact .inl (List.mem_append_right _ (List.mem_singleton.mpr hqn))
    · exact h.1.imp (List.mem_append_left _)
        fun h => List.mem_filter.mpr ⟨h, decide_eq_true hqn⟩

theorem resolveDeps_justified
    (hown : ∀ n, Names specs n → r ∈ t.inProgress ∧ Names (depsOf env fetch r) n ∨ root r n)
    (ht : t.Justified env fetch root)
    (h : resolveDeps env fetch fuel t specs depth r = .ok t') :
    t'.Justified env fetch root := by
  induction fuel generalizing t specs depth r t' with
  | zero => cases h
  | succ fuel ih =>
    rw [resolveDeps_succ] at h
    have hm : (marked env t specs depth r).Justified env fetch root := by
      intro n hn q hq
      rw [marked_order, marked_inProgress]
      rcases (mem_requirers_marked hn).mp hq with hq | ⟨rfl, hs, -⟩
      · exact ht n hn q hq
      · exact (hown n hs).imp_left fun h => ⟨.inr h.1, h.2⟩
    have hnames : ∀ n ∈ candidates env t specs, Names specs n ∧ env.inRepo n = false := by
      intro n hn
      simp only [candidates, openSpecs, List.mem_filter, List.mem_map] at hn
      obtain ⟨⟨p, ⟨⟨hp, -⟩, -⟩, rfl⟩, hr⟩ := hn
      exact ⟨names_iff.mpr ⟨p.2, hp⟩, by simpa using hr⟩
    have hp : (marked env t specs depth r).inProgress = t.inProgress := marked_inProgress
    generalize marked env t specs depth r = t₀ at h hm hp
    generalize candidates env t specs = names at h hnames
    induction names generalizing t₀ with
    | nil =>
      cases h
      exact hm
    | cons name names ihn =>
      rw [List.foldlM_cons] at h
      obtain ⟨t₂, hstep, h⟩ := bind_ok h
      obtain ⟨hname, hrepo⟩ := hnames name List.mem_cons_self
      obtain ⟨hi, rfl⟩ | ⟨info, t₁, hi, hin, hres, rfl⟩ := resolveCandidate_ok hstep
      · have hna : isAur env name = false := by simp [isAur, hi]
        refine ihn (t₀.note .unknown depth r [name]) (fun n hn q hq => ?_) hp h
          fun n hn => hnames n (List.mem_cons_of_mem _ hn)
        rw [requirers_note, if_neg] at hq
        · exact hm n hn q hq
        · intro hmem
          rw [List.mem_singleton.mp hmem, hna] at hn
          cases hn
      · have hdeps : (childDeps env fetch name info).2 = depsOf env fetch name := by
          simp only [depsOf, hi]
        have he : (t₀.enter name).Justified env fetch root := fun n hn q hq =>
          (hm n hn q hq).imp_left fun h => ⟨h.1.imp_right (List.mem_cons_of_mem _), h.2⟩
        have h₁ : t₁.Justified env fetch root := by
          refine ih (fun n hn => .inl ⟨List.mem_cons_self, ?_⟩) he hres
          rwa [hdeps] at hn
        have hp₁ : (t₁.leave name depth r (childDeps env fetch name info).1).inProgress =
            t.inProgress := by
          rw [leave_inProgress hin (resolveDeps_isCall _ _ _ _ _ hres).2, hp]
        refine ihn _ (h₁.leave fun _ => (hown name hname).imp_left fun h => ⟨.inr ?_, h.2⟩) hp₁ h
          fun n hn => hnames n (List.mem_cons_of_mem _ hn)
        rw [hp₁]
        exact h.1

end Justified

end Sysforge.Aur
