import Sysforge.Aur.Resolve
import Sysforge.Foundations.Walk

/-!
# The build order of the AUR resolver

The AUR packages form a graph: the batch of a package holds the dependency specs that name AUR
packages, each needed where `pacman -T` misses it. On this graph the resolver is a depth-first
walk (`resolveDeps_isCall`), and the walk library says when its order is a build order
(`resolveAurDepsBatch_buildOrder`).
-/

namespace Sysforge.Aur

open Walk (Batch keepFirst wanted Call Loop Calls)

/-! ## The graph -/

/-- The AUR builds the package: no repo has it and the RPC knows it. -/
def isAur (env : Env) (name : String) : Bool := !env.inRepo name && (env.aurInfo name).isSome

/-- The spec has a name the resolver follows. -/
def isNamed (d : String) : Bool := !(looksUnresolved d || stripVersion d = "")

/-- The specs with a name, after their names. -/
def named (specs : List String) : List (String × String) :=
  (specs.filter isNamed).map fun d => (stripVersion d, d)

/-- What a list of specs asks of the AUR. -/
def batch (env : Env) (specs : List String) : Batch String :=
  ((named (specs.filter fun d => !isSoname d)).filter fun p => isAur env p.1).map
    fun p => (p.1, !env.satisfied p.2)

/-- The dependencies by which an AUR package is resolved. -/
def depsOf (env : Env) (fetch : Bool) (name : String) : List String :=
  match env.aurInfo name with
  | none => []
  | some info => (childDeps env fetch name info).2

/-- The batches of the AUR packages. -/
def graph (env : Env) (fetch : Bool) (name : String) : Batch String :=
  batch env (depsOf env fetch name)

/-- Some dependency spec of `specs` names the AUR package `n` and is missing on the system. Sonames
and tokens with shell syntax name no package. -/
def AsksFor (env : Env) (specs : List String) (n : String) : Prop :=
  isAur env n = true ∧ n ≠ "" ∧ ∃ d ∈ specs, isSoname d = false ∧ looksUnresolved d = false ∧
    stripVersion d = n ∧ env.satisfied d = false

theorem needs_batch {env : Env} {specs : List String} {n : String} :
    Walk.Needs (batch env specs) n ↔ AsksFor env specs n := by
  simp only [AsksFor, Walk.Needs, batch, named, List.mem_map, List.mem_filter]
  constructor
  · intro h
    obtain ⟨p, ⟨⟨d, ⟨⟨hd, hso⟩, hu⟩, rfl⟩, ha⟩, h⟩ := h
    simp only [Prod.mk.injEq] at h
    obtain ⟨rfl, hs⟩ := h
    simp only [isNamed, Bool.not_or, Bool.and_eq_true, Bool.not_eq_true',
      decide_eq_false_iff_not] at hu hso hs
    exact ⟨ha, hu.2, d, hd, hso, hu.1, rfl, hs⟩
  · intro h
    obtain ⟨ha, hn, d, hd, hso, hu, rfl, hs⟩ := h
    exact ⟨(stripVersion d, d), ⟨⟨d, ⟨⟨hd, by simp [hso]⟩, by simp [isNamed, hu, hn]⟩, rfl⟩, ha⟩,
      by simp [hs]⟩

/-! ## The tables of one call -/

section Tables

variable {env : Env} {fetch : Bool} {t t' : Tables} {specs names : List String}
  {requiredBy : String} {depth : ℕ} {n : String}

/-- The walk state of the tables: the visited AUR packages and the order. -/
def Tables.view (env : Env) (t : Tables) : Walk.State String where
  closed := {n | isAur env n = true ∧ n ∈ t.visited.keys}
  order := t.order

/-- The tables differ only in what they say about the names they have. -/
structure Tables.Agrees (t t' : Tables) : Prop where
  visited : ∀ n, n ∈ t'.visited.keys ↔ n ∈ t.visited.keys
  inProgress : t'.inProgress = t.inProgress
  order : t'.order = t.order

theorem Tables.Agrees.refl : t.Agrees t := ⟨fun _ => Iff.rfl, rfl, rfl⟩

theorem Tables.Agrees.trans {t'' : Tables} (h : t.Agrees t') (h' : t'.Agrees t'') :
    t.Agrees t'' where
  visited n := (h'.visited n).trans (h.visited n)
  inProgress := h'.inProgress.trans h.inProgress
  order := h'.order.trans h.order

theorem mem_keys_note {source : Source} :
    n ∈ (t.note source depth requiredBy names).visited.keys ↔
      n ∈ t.visited.keys ∨ n ∈ names := by
  have h : ∀ (names : List String) (v : Dict String ResolvedDep),
      n ∈ (names.foldl (fun v n => v.set n
        { name := n, source := source, depth := depth, requiredBy := [requiredBy] }) v).keys ↔
        n ∈ v.keys ∨ n ∈ names := by
    intro names
    induction names with
    | nil => simp
    | cons m names ih =>
      intro v
      rw [List.foldl_cons, ih, Dict.mem_keys_set, List.mem_cons, or_comm (a := n = m), or_assoc]
  exact h names t.visited

/-- A spec of the loop that builds `name_map`. -/
theorem collectStep_agrees {acc : Tables × List (String × String)} {spec : String} :
    acc.1.Agrees (collectStep requiredBy acc spec).1 := by
  rw [collectStep]
  split
  · exact .refl
  · split
    next d hd =>
      refine ⟨fun n => ?_, rfl, rfl⟩
      have hk : stripVersion spec ∈ acc.1.visited.keys := by
        by_contra hk
        rw [Dict.get_eq_none.mpr hk] at hd
        cases hd
      show n ∈ (acc.1.visited.set _ _).keys ↔ _
      rw [Dict.mem_keys_set]
      exact ⟨fun h => h.elim (fun h => h ▸ hk) id, .inr⟩
    next => split <;> exact .refl

theorem collect_agrees : t.Agrees (collect t requiredBy specs).1 := by
  have h : ∀ (specs : List String) (acc : Tables × List (String × String)),
      acc.1.Agrees (specs.foldl (collectStep requiredBy) acc).1 := by
    intro specs
    induction specs with
    | nil => exact fun _ => .refl
    | cons spec specs ih => exact fun acc => collectStep_agrees.trans (ih _)
  exact h specs (t, [])

/-- What a spec adds to the map. -/
theorem collectStep_names {acc : Tables × List (String × String)} {spec : String} :
    (collectStep requiredBy acc spec).2 =
      if isNamed spec = true ∧ stripVersion spec ∉ acc.1.visited.keys ∧
        stripVersion spec ∉ Assoc.keys acc.2
      then acc.2 ++ [(stripVersion spec, spec)] else acc.2 := by
  rw [collectStep]
  cases h : looksUnresolved spec || stripVersion spec = "" with
  | true => rw [if_pos rfl, if_neg (by simp [isNamed, h])]
  | false =>
    rw [if_neg (by simp)]
    split
    next d hd =>
      have hk : stripVersion spec ∈ acc.1.visited.keys := by
        by_contra hk
        rw [Dict.get_eq_none.mpr hk] at hd
        cases hd
      rw [if_neg fun hn => hn.2.1 hk]
    next hd =>
      have hk := Dict.get_eq_none.mp hd
      split
      next hm => rw [if_neg fun hn => hn.2.2 hm]
      next hm => rw [if_pos ⟨by simp [isNamed, h], hk, hm⟩]

theorem named_cons {spec : String} : named (spec :: specs) =
    if isNamed spec then (stripVersion spec, spec) :: named specs else named specs := by
  rw [named, List.filter_cons]
  split <;> rfl

/-- `name_map` holds the first spec of each name that is not visited. -/
theorem collect_names : (collect t requiredBy specs).2 =
    keepFirst ((named specs).filter fun p => p.1 ∉ t.visited.keys) := by
  have h : ∀ (specs : List String) (acc : Tables × List (String × String)),
      (∀ n, n ∈ acc.1.visited.keys ↔ n ∈ t.visited.keys) →
      (specs.foldl (collectStep requiredBy) acc).2 = acc.2 ++
        (keepFirst ((named specs).filter fun p => p.1 ∉ t.visited.keys)).filter
          fun p => p.1 ∉ Assoc.keys acc.2 := by
    intro specs
    induction specs with
    | nil => simp [named, keepFirst]
    | cons spec specs ih =>
      intro acc hacc
      rw [List.foldl_cons, ih _ fun n => (collectStep_agrees.visited n).trans (hacc n),
        collectStep_names, named_cons]
      simp only [hacc]
      by_cases hn : isNamed spec = true ∧ stripVersion spec ∉ t.visited.keys
      · rw [if_pos hn.1, List.filter_cons_of_pos (by simpa using hn.2), keepFirst]
        by_cases hm : stripVersion spec ∈ Assoc.keys acc.2
        · rw [if_neg fun h => h.2.2 hm, List.filter_cons_of_neg (by simpa using hm),
            List.filter_filter]
          congr 1
          refine List.filter_congr fun p _ => ?_
          by_cases hp : p.1 = stripVersion spec
          · simp [hp, hm]
          · simp [hp]
        · rw [if_pos ⟨hn.1, hn.2, hm⟩, List.filter_cons_of_pos (by simpa using hm),
            List.filter_filter, List.append_assoc, List.singleton_append]
          congr 2
          refine List.filter_congr fun p _ => ?_
          simp [not_or]
      · rw [if_neg fun h => hn ⟨h.1, h.2.1⟩]
        congr 2
        split
        next h => rw [List.filter_cons_of_neg (by simpa using fun hk => hn ⟨h, hk⟩)]
        next => rfl
  have h₀ := h specs (t, []) fun _ => Iff.rfl
  simpa [collect] using h₀

end Tables

/-! ## One call -/

section Call

variable {env : Env} {fetch : Bool} {t t' : Tables} {specs : List String} {requiredBy : String}
  {depth fuel : ℕ} {n : String}

/-- Of a map from names to their specs, the names `pacman -T` misses. -/
theorem filter_missing {l : List (String × String)} (hl : (Assoc.keys l).Nodup)
    (hs : ∀ p ∈ l, p.1 = stripVersion p.2) (f : Bool → Bool) :
    ((Assoc.keys l).filter fun n =>
      f (n ∈ (getMissingDeps env (l.map Prod.snd)).map stripVersion)) =
      (l.filter fun p => f !env.satisfied p.2).map Prod.fst := by
  rw [Assoc.keys, List.filter_map]
  congr 1
  refine List.filter_congr fun p hp => ?_
  have h : p.1 ∈ (getMissingDeps env (l.map Prod.snd)).map stripVersion ↔
      env.satisfied p.2 = false := by
    simp only [getMissingDeps, List.mem_map, List.mem_filter, Bool.not_eq_true']
    constructor
    · intro h
      obtain ⟨d, ⟨⟨q, hq, rfl⟩, hd⟩, he⟩ := h
      have hqp : q.1 = p.1 := (hs q hq).trans he
      have : q.2 = p.2 := Option.some.inj <|
        (Assoc.lookup_of_mem hl hq).symm.trans (hqp ▸ Assoc.lookup_of_mem hl hp)
      rwa [← this]
    · intro hd
      exact ⟨p.2, ⟨⟨p, hp, rfl⟩, hd⟩, (hs p hp).symm⟩
  simp only [Function.comp_apply]
  congr 1
  rw [Bool.eq_iff_iff, decide_eq_true_eq, h, Bool.not_eq_true']

/-- The first spec of each name. -/
def firstSpecs (specs : List String) : List (String × String) :=
  keepFirst (named (specs.filter fun d => !isSoname d))

theorem keepFirst_batch : keepFirst (batch env specs) =
    ((firstSpecs specs).filter fun p => isAur env p.1).map fun p => (p.1, !env.satisfied p.2) := by
  rw [batch, Walk.keepFirst_map fun d => !env.satisfied d, Walk.keepFirst_filter (isAur env)]
  rfl

theorem wanted_batch : wanted (batch env specs) =
    ((firstSpecs specs).filter fun p => isAur env p.1 && !env.satisfied p.2).map Prod.fst := by
  rw [wanted, keepFirst_batch, List.filter_map, List.map_map, List.filter_filter]
  congr 1
  refine List.filter_congr fun p _ => ?_
  simp [Bool.and_comm]

theorem eq_stripVersion_of_mem {p : String × String} (h : p ∈ firstSpecs specs) :
    p.1 = stripVersion p.2 := by
  obtain ⟨n, d⟩ := p
  have h := Assoc.mem_of_lookup (Walk.mem_keepFirst.mp h)
  obtain ⟨e, -, he⟩ := List.mem_map.mp h
  obtain ⟨rfl, rfl⟩ := Prod.mk.inj he
  rfl

/-- The first specs of the names not visited. -/
def openSpecs (t : Tables) (specs : List String) : List (String × String) :=
  (firstSpecs specs).filter fun p => p.1 ∉ t.visited.keys

theorem nodup_openSpecs : (Assoc.keys (openSpecs t specs)).Nodup :=
  (Walk.nodup_keepFirst _).sublist (List.filter_sublist.map _)

/-- The tables when the loop over the AUR candidates begins. -/
def marked (env : Env) (t : Tables) (specs : List String) (depth : ℕ) (requiredBy : String) :
    Tables :=
  ((collect t requiredBy (specs.filter fun d => !isSoname d)).1.note .installed depth requiredBy
    (((openSpecs t specs).filter fun p => env.satisfied p.2).map Prod.fst)).note .repo depth
      requiredBy
      ((((openSpecs t specs).filter fun p => !env.satisfied p.2).map Prod.fst).filter env.inRepo)

/-- The AUR candidates. -/
def candidates (env : Env) (t : Tables) (specs : List String) : List String :=
  (((openSpecs t specs).filter fun p => !env.satisfied p.2).map Prod.fst).filter
    fun n => !env.inRepo n

/-- A call marks what it does not build and loops over the candidates. -/
theorem resolveDeps_succ : resolveDeps env fetch (fuel + 1) t specs depth requiredBy =
    (candidates env t specs).foldlM
      (resolveCandidate env fetch (resolveDeps env fetch fuel) depth requiredBy)
      (marked env t specs depth requiredBy) := by
  have hl : (collect t requiredBy (specs.filter fun d => !isSoname d)).2 = openSpecs t specs := by
    rw [collect_names, Walk.keepFirst_filter fun n => decide (n ∉ t.visited.keys)]
    rfl
  have hs : ∀ p ∈ openSpecs t specs, p.1 = stripVersion p.2 :=
    fun p hp => eq_stripVersion_of_mem (List.mem_of_mem_filter hp)
  have hmissing := @filter_missing env _ nodup_openSpecs hs id
  have hinstalled := @filter_missing env _ nodup_openSpecs hs not
  simp only [id_eq, Bool.not_not] at hmissing hinstalled
  rw [resolveDeps]
  simp only [hl, decide_not, hmissing, hinstalled]
  rfl

theorem marked_inProgress : (marked env t specs depth requiredBy).inProgress = t.inProgress :=
  (@collect_agrees t (specs.filter fun d => !isSoname d) requiredBy).inProgress

theorem marked_order : (marked env t specs depth requiredBy).order = t.order :=
  (@collect_agrees t (specs.filter fun d => !isSoname d) requiredBy).order

/-- The marks of a call are those of the walk. -/
theorem marked_view : (marked env t specs depth requiredBy).view env =
    (t.view env).mark (batch env specs) := by
  refine Walk.State.ext (Set.ext fun n => ?_) (@marked_order env t specs requiredBy depth)
  rw [Walk.State.mem_mark]
  have hb : (batch env specs).lookup n = some false ↔
      ∃ d, (n, d) ∈ firstSpecs specs ∧ isAur env n = true ∧ env.satisfied d = true := by
    rw [← Walk.mem_keepFirst (p := (n, false)), keepFirst_batch]
    simp [and_assoc]
  have hm : n ∈ (marked env t specs depth requiredBy).visited.keys ↔
      n ∈ t.visited.keys ∨ (∃ d, (n, d) ∈ openSpecs t specs ∧ env.satisfied d = true) ∨
        (∃ d, (n, d) ∈ openSpecs t specs ∧ env.satisfied d = false) ∧ env.inRepo n = true := by
    rw [marked, mem_keys_note, mem_keys_note, collect_agrees.visited, or_assoc]
    simp [and_comm]
  have ho : ∀ d, (n, d) ∈ openSpecs t specs ↔ (n, d) ∈ firstSpecs specs ∧ n ∉ t.visited.keys := by
    simp [openSpecs]
  show isAur env n = true ∧ _ ↔ (isAur env n = true ∧ _) ∨ _
  rw [hb, hm]
  simp only [ho]
  have hr : isAur env n = true → env.inRepo n = false := fun h => by
    simp only [isAur, Bool.and_eq_true, Bool.not_eq_true'] at h
    exact h.1
  by_cases ha : isAur env n = true
  · by_cases hv : n ∈ t.visited.keys <;> simp [ha, hv, hr ha]
  · simp [ha]

/-- The AUR candidates the walk visits: what the batch wants and was not visited. -/
theorem filter_candidates : (candidates env t specs).filter (isAur env) =
    (wanted (batch env specs)).filter fun n => n ∉ t.visited.keys := by
  rw [candidates, wanted_batch, openSpecs]
  simp only [List.filter_map, List.filter_filter]
  congr 1
  refine List.filter_congr fun p _ => ?_
  simp only [Function.comp_apply, isAur]
  cases env.inRepo p.1 <;> simp [Bool.and_comm, Bool.and_assoc]

/-! ## The walk of a call -/

/-- `resolve` is a walk over the batch of its specs and leaves what is in progress. -/
def IsCall (env : Env) (fetch : Bool)
    (resolve : Tables → List String → ℕ → String → Except Failure Tables) : Prop :=
  ∀ t specs depth requiredBy t', resolve t specs depth requiredBy = .ok t' →
    Call (graph env fetch) {n | n ∈ t.inProgress} (t.view env) (batch env specs) (t'.view env) ∧
      t'.inProgress = t.inProgress

theorem note_view {source : Source} (hn : isAur env n = false) :
    (t.note source depth requiredBy [n]).view env = t.view env := by
  refine Walk.State.ext (Set.ext fun m => ?_) rfl
  show isAur env m = true ∧ _ ↔ isAur env m = true ∧ _
  rw [mem_keys_note]
  refine and_congr_right fun hm => or_iff_left fun h => ?_
  rw [List.mem_singleton] at h
  rw [h, hn] at hm
  cases hm

theorem leave_view {path : Option String} (hn : isAur env n = true) :
    (t.leave n depth requiredBy path).view env = (t.view env).finish n := by
  refine Walk.State.ext (Set.ext fun m => ?_) rfl
  rw [Walk.State.mem_finish]
  show isAur env m = true ∧ m ∈ (t.visited.set _ _).keys ↔ _
  rw [Dict.mem_keys_set, and_or_left]
  exact or_congr_left (and_iff_right_of_imp fun h => h ▸ hn)

/-- What a step of the loop over the candidates can do. -/
theorem resolveCandidate_ok
    {resolve : Tables → List String → ℕ → String → Except Failure Tables}
    (h : resolveCandidate env fetch resolve depth requiredBy t n = .ok t') :
    env.aurInfo n = none ∧ t' = t.note .unknown depth requiredBy [n] ∨
      ∃ info t₁, env.aurInfo n = some info ∧ n ∉ t.inProgress ∧
        resolve (t.enter n) (childDeps env fetch n info).2 (depth + 1) n = .ok t₁ ∧
          t' = t₁.leave n depth requiredBy (childDeps env fetch n info).1 := by
  rw [resolveCandidate] at h
  split at h
  next hi => exact .inl ⟨hi, (Except.ok.inj h).symm⟩
  next info hi =>
    split at h
    · cases h
    next hp =>
      simp only at h
      split at h
      · cases h
      next t₁ ht₁ => exact .inr ⟨info, t₁, hi, hp, ht₁, (Except.ok.inj h).symm⟩

theorem bind_ok {α β : Type} {x : Except Failure α} {f : α → Except Failure β} {b : β}
    (h : x >>= f = .ok b) : ∃ a, x = .ok a ∧ f a = .ok b := by
  cases x with
  | error e => cases h
  | ok a => exact ⟨a, rfl, h⟩

/-- The loop over the candidates is the loop of the walk. -/
theorem foldlM_loop {resolve : Tables → List String → ℕ → String → Except Failure Tables}
    (ih : IsCall env fetch resolve) {C : Set String} {names : List String}
    (hC : ∀ n ∈ names, isAur env n = true → n ∉ C) (hr : ∀ n ∈ names, env.inRepo n = false)
    (h : names.foldlM (resolveCandidate env fetch resolve depth requiredBy) t = .ok t') :
    Loop (graph env fetch) {n | n ∈ t.inProgress} C (t.view env) (names.filter (isAur env))
        (t'.view env) ∧
      t'.inProgress = t.inProgress := by
  induction names generalizing t with
  | nil =>
    cases h
    exact ⟨.nil, rfl⟩
  | cons name names ihn =>
    rw [List.foldlM_cons] at h
    obtain ⟨t₂, hstep, h⟩ := bind_ok h
    have hloop := ihn (fun n hn => hC n (List.mem_cons_of_mem _ hn))
      (fun n hn => hr n (List.mem_cons_of_mem _ hn)) h
    have hrepo := hr name List.mem_cons_self
    obtain ⟨hi, rfl⟩ | ⟨info, t₁, hi, hp, hres, rfl⟩ := resolveCandidate_ok hstep
    · have ha : isAur env name = false := by simp [isAur, hi]
      rw [List.filter_cons_of_neg (by simp [ha])]
      rwa [note_view ha] at hloop
    · have ha : isAur env name = true := by simp [isAur, hi, hrepo]
      obtain ⟨hcall, hprog⟩ := ih _ _ _ _ _ hres
      have hg : batch env (childDeps env fetch name info).2 = graph env fetch name := by
        simp only [graph, depsOf, hi]
      have hA : {n | n ∈ (t.enter name).inProgress} = insert name {n | n ∈ t.inProgress} :=
        Set.ext fun n => List.mem_cons
      have hp' : (t₁.leave name depth requiredBy (childDeps env fetch name info).1).inProgress =
          t.inProgress := by
        show t₁.inProgress.filter _ = _
        rw [hprog, Tables.enter, List.filter_cons_of_neg (by simp), List.filter_eq_self]
        exact fun n hn => decide_eq_true fun e => hp (e ▸ hn)
      rw [hg, hA] at hcall
      rw [leave_view ha, hp'] at hloop
      rw [List.filter_cons_of_pos ha]
      exact ⟨.visit (hC name List.mem_cons_self ha) hp hcall hloop.1, hloop.2⟩

/-- **The resolver is a depth-first walk.** -/
theorem resolveDeps_isCall : IsCall env fetch (resolveDeps env fetch fuel) := by
  induction fuel with
  | zero =>
    intro t specs depth requiredBy t' h
    cases h
  | succ fuel ih =>
    intro t specs depth requiredBy t' h
    rw [resolveDeps_succ] at h
    have hC : ∀ n ∈ candidates env t specs, isAur env n = true → n ∉ (t.view env).closed := by
      intro n hn ha hv
      have hmem := List.mem_filter.mpr ⟨hn, ha⟩
      rw [filter_candidates, List.mem_filter] at hmem
      exact (by simpa using hmem.2 : n ∉ t.visited.keys) hv.2
    have hr : ∀ n ∈ candidates env t specs, env.inRepo n = false := fun n hn => by
      simpa using (List.mem_filter.mp hn).2
    obtain ⟨hloop, hprog⟩ := foldlM_loop ih hC hr h
    rw [marked_view, filter_candidates] at hloop
    rw [marked_inProgress] at hloop hprog
    refine ⟨hloop.of_filter fun n hn hv => ⟨?_, by simpa using hv⟩, hprog⟩
    exact (needs_batch.mp (Walk.needs_of_mem_wanted hn)).1

end Call

/-! ## Enough fuel -/

section Fuel

variable {env : Env} {fetch : Bool} {t : Tables} {specs : List String} {requiredBy : String}
  {depth fuel : ℕ} {U : List String}

/-- A loop fails at one of its steps. -/
theorem foldlM_error {f : Tables → String → Except Failure Tables} {names : List String}
    {e : Failure} (h : names.foldlM f t = .error e) :
    ∃ pre name post t₁, names = pre ++ name :: post ∧ pre.foldlM f t = .ok t₁ ∧
      f t₁ name = .error e := by
  induction names generalizing t with
  | nil => cases h
  | cons name names ih =>
    rw [List.foldlM_cons] at h
    cases hstep : f t name with
    | error e' =>
      rw [hstep] at h
      cases h
      exact ⟨[], name, names, t, rfl, rfl, hstep⟩
    | ok t₁ =>
      rw [hstep] at h
      obtain ⟨pre, m, post, t₂, rfl, hpre, hm⟩ := ih h
      refine ⟨name :: pre, m, post, t₂, rfl, ?_, hm⟩
      rw [List.foldlM_cons, hstep]
      exact hpre

theorem resolveCandidate_outOfFuel
    {resolve : Tables → List String → ℕ → String → Except Failure Tables} {n : String}
    (h : resolveCandidate env fetch resolve depth requiredBy t n = .error .outOfFuel) :
    ∃ info, env.aurInfo n = some info ∧ n ∉ t.inProgress ∧
      resolve (t.enter n) (childDeps env fetch n info).2 (depth + 1) n = .error .outOfFuel := by
  rw [resolveCandidate] at h
  split at h
  · cases h
  next info hi =>
    split at h
    · cases h
    next hp =>
      simp only at h
      split at h
      next e he =>
        cases h
        exact ⟨info, hi, hp, he⟩
      · cases h

/-- The names in progress differ, so a finite graph bounds the depth of the recursion. -/
theorem resolveDeps_fuel (hU : ∀ m ∈ U, ∀ n, AsksFor env (depsOf env fetch m) n → n ∈ U)
    (hs : ∀ n, AsksFor env specs n → n ∈ U) (hp : t.inProgress ⊆ U) (hn : t.inProgress.Nodup)
    (hf : U.length < fuel + t.inProgress.length) :
    resolveDeps env fetch fuel t specs depth requiredBy ≠ .error .outOfFuel := by
  induction fuel generalizing t specs depth requiredBy with
  | zero =>
    have := (List.subperm_of_subset hn hp).length_le
    omega
  | succ fuel ih =>
    intro h
    rw [resolveDeps_succ] at h
    obtain ⟨pre, name, post, t₁, hnames, hpre, hname⟩ := foldlM_error h
    have hr : ∀ n ∈ candidates env t specs, env.inRepo n = false := fun n hn => by
      simpa using (List.mem_filter.mp hn).2
    have hsub : ∀ n ∈ pre, n ∈ candidates env t specs := fun n hn => by simp [hnames, hn]
    have hname_mem : name ∈ candidates env t specs := by simp [hnames]
    obtain ⟨info, hi, hnot, hres⟩ := resolveCandidate_outOfFuel hname
    -- The names in progress are those of the call, and the candidate is a new one.
    have hprog : t₁.inProgress = t.inProgress := by
      have hloop := foldlM_loop resolveDeps_isCall (C := ∅) (fun _ _ _ h => h)
        (fun n hn => hr n (hsub n hn)) hpre
      rw [hloop.2, marked_inProgress]
    have hin : name ∈ U := by
      have ha : isAur env name = true := by simp [isAur, hi, hr name hname_mem]
      have hmem := List.mem_filter.mpr ⟨hname_mem, ha⟩
      rw [filter_candidates] at hmem
      exact hs name (needs_batch.mp (Walk.needs_of_mem_wanted (List.mem_of_mem_filter hmem)))
    have hdeps : (childDeps env fetch name info).2 = depsOf env fetch name := by
      simp only [depsOf, hi]
    rw [hprog] at hnot
    refine ih ?_ ?_ ?_ ?_ hres
    · rw [hdeps]
      exact hU name hin
    · rw [Tables.enter, hprog]
      exact List.cons_subset.mpr ⟨hin, hp⟩
    · rw [Tables.enter, hprog]
      exact List.nodup_cons.mpr ⟨hnot, hn⟩
    · rw [Tables.enter, hprog, List.length_cons]
      omega

end Fuel

/-! ## The names of the result -/

section Names

variable {env : Env} {fetch : Bool} {t t' : Tables} {fuel : ℕ}

/-- Each visited entry carries its name, and what is ordered is visited. -/
structure Tables.Named (t : Tables) : Prop where
  name : ∀ n d, t.visited.get n = some d → d.name = n
  visited : ∀ n ∈ t.order, n ∈ t.visited.keys

theorem named_set {v : Dict String ResolvedDep} (h : ∀ n d, v.get n = some d → d.name = n)
    {m : String} {e : ResolvedDep} (he : e.name = m) (n : String) (d : ResolvedDep)
    (hd : (v.set m e).get n = some d) : d.name = n := by
  rw [Dict.get_set] at hd
  split_ifs at hd with hn
  · cases hd
    rw [hn, he]
  · exact h n d hd

theorem named_empty : ({} : Tables).Named :=
  ⟨fun n d hd => (by cases hd), fun n hn => (by cases hn)⟩

theorem Tables.Named.collectStep {acc : Tables × List (String × String)} (h : acc.1.Named)
    (requiredBy spec : String) : (collectStep requiredBy acc spec).1.Named := by
  refine ⟨?_, ?_⟩
  · rw [Aur.collectStep]
    split
    · exact h.name
    · split
      next d hd =>
        refine named_set h.name (Eq.trans ?_ (h.name _ d hd))
        rw [ResolvedDep.noteRequirer]
        split <;> rfl
      next => split <;> exact h.name
  · intro n hn
    rw [collectStep_agrees.visited]
    rw [collectStep_agrees.order] at hn
    exact h.visited n hn

theorem Tables.Named.note (h : t.Named) (source : Source) (depth : ℕ) (requiredBy : String)
    (names : List String) : (t.note source depth requiredBy names).Named := by
  refine ⟨?_, fun n hn => mem_keys_note.mpr (.inl (h.visited n hn))⟩
  have hv : ∀ (names : List String) (v : Dict String ResolvedDep),
      (∀ n d, v.get n = some d → d.name = n) → ∀ n d, (names.foldl (fun v n => v.set n
        { name := n, source := source, depth := depth, requiredBy := [requiredBy] }) v).get n =
          some d → d.name = n := by
    intro names
    induction names with
    | nil => exact fun _ h => h
    | cons m names ih => exact fun v h => ih _ (named_set h rfl)
  exact hv names _ h.name

theorem Tables.Named.leave (h : t.Named) (name : String) (depth : ℕ) (requiredBy : String)
    (path : Option String) : (t.leave name depth requiredBy path).Named := by
  refine ⟨named_set h.name rfl, fun n hn => ?_⟩
  show n ∈ (t.visited.set _ _).keys
  rw [Dict.mem_keys_set]
  rcases List.mem_append.mp hn with hn | hn
  · exact .inr (h.visited n hn)
  · exact .inl (List.mem_singleton.mp hn)

theorem resolveDeps_named {specs : List String} {depth : ℕ} {requiredBy : String} (ht : t.Named)
    (h : resolveDeps env fetch fuel t specs depth requiredBy = .ok t') : t'.Named := by
  induction fuel generalizing t specs depth requiredBy t' with
  | zero => cases h
  | succ fuel ih =>
    rw [resolveDeps_succ] at h
    have hm : (marked env t specs depth requiredBy).Named := by
      refine ((?_ : Tables.Named _).note ..).note ..
      have hc : ∀ (specs : List String) (acc : Tables × List (String × String)), acc.1.Named →
          (specs.foldl (collectStep requiredBy) acc).1.Named := by
        intro specs
        induction specs with
        | nil => exact fun _ h => h
        | cons spec specs ih => exact fun acc h => ih _ (h.collectStep requiredBy spec)
      exact hc _ (t, []) ht
    generalize marked env t specs depth requiredBy = t₀ at h hm
    generalize candidates env t specs = names at h
    induction names generalizing t₀ with
    | nil =>
      cases h
      exact hm
    | cons name names ihn =>
      rw [List.foldlM_cons] at h
      obtain ⟨t₂, hstep, h⟩ := bind_ok h
      refine ihn _ ?_ h
      obtain ⟨-, rfl⟩ | ⟨info, t₁, -, -, hres, rfl⟩ := resolveCandidate_ok hstep
      · exact hm.note ..
      · have he : (t₀.enter name).Named := ⟨hm.name, hm.visited⟩
        exact (ih he hres).leave ..

theorem Tables.Named.names (h : t.Named) :
    (t.order.filterMap t.visited.get).map ResolvedDep.name = t.order := by
  have hv := h.visited
  generalize t.order = order at hv
  induction order with
  | nil => rfl
  | cons n order ih =>
    obtain ⟨d, hd⟩ := Option.ne_none_iff_exists'.mp fun hn =>
      Dict.get_eq_none.mp hn (hv n List.mem_cons_self)
    rw [List.filterMap_cons_some hd, List.map_cons, h.name n d hd,
      ih fun m hm => hv m (List.mem_cons_of_mem _ hm)]

end Names

/-! ## The batch -/

section Batch

variable (env : Env) (fetch : Bool)

/-- The dependency specs of a root PKGBUILD. -/
def rootSpecs (path : String) : List String :=
  match env.parsePkgbuild path with
  | none => []
  | some m => m.depends ++ m.makedepends

/-- `n` is a missing AUR package that the roots require, directly or through AUR packages. -/
inductive Missing (roots : List String) : String → Prop
  | root {path n : String} (hp : path ∈ roots) (h : AsksFor env (rootSpecs env path) n) :
      Missing roots n
  | dep {m n : String} (hm : Missing roots m) (h : AsksFor env (depsOf env fetch m) n) :
      Missing roots n

/-- A build order of the roots: every missing AUR package once, nothing else, and each package
after the missing AUR packages it asks for. -/
structure IsBuildOrder (roots names : List String) : Prop where
  once : names.Nodup
  complete : ∀ n, n ∈ names ↔ Missing env fetch roots n
  after : ∀ pre m post, names = pre ++ m :: post →
    ∀ n, AsksFor env (depsOf env fetch m) n → n ∈ pre

variable {env fetch} {roots names : List String} {n : String}

theorem missing_iff : Missing env fetch roots n ↔
    Walk.Required (graph env fetch) (roots.map fun p => batch env (rootSpecs env p)) n := by
  constructor
  · intro h
    induction h with
    | root hp h =>
      exact ⟨_, List.mem_map_of_mem hp, _, needs_batch.mpr h, .refl⟩
    | dep _ h ih =>
      obtain ⟨b, hb, m, hm, hn⟩ := ih
      exact ⟨b, hb, m, hm, hn.tail (needs_batch.mpr h)⟩
  · intro h
    obtain ⟨b, hb, m, hm, hn⟩ := h
    obtain ⟨path, hp, rfl⟩ := List.mem_map.mp hb
    induction hn with
    | refl => exact .root hp (needs_batch.mp hm)
    | tail _ hr ih => exact .dep ih (needs_batch.mp hr)

theorem isBuildOrder_iff : IsBuildOrder env fetch roots names ↔
    Walk.Sorted (graph env fetch) names ∧ ∀ n, n ∈ names ↔
      Walk.Required (graph env fetch) (roots.map fun p => batch env (rootSpecs env p)) n := by
  simp only [← missing_iff]
  constructor
  · intro h
    exact ⟨⟨h.once, fun pre x post e n hn => h.after pre x post e n (needs_batch.mp hn)⟩,
      h.complete⟩
  · intro h
    exact ⟨h.1.nodup, h.2, fun pre x post e n hn => h.1.after pre x post e n (needs_batch.mpr hn)⟩

/-- A root is resolved from its dependency specs. -/
theorem resolveRoot_eq {fuel : ℕ} {t : Tables} {path : String} :
    resolveRoot env fetch fuel t path = .error (.unreadable path) ∨
      ∃ r, resolveRoot env fetch fuel t path =
        resolveDeps env fetch fuel t (rootSpecs env path) 0 r := by
  rw [resolveRoot, rootSpecs]
  cases env.parsePkgbuild path with
  | none => exact .inl rfl
  | some m => exact .inr ⟨_, rfl⟩

/-- The roots are walked one after the other. -/
theorem foldlM_calls {fuel : ℕ} {t t' : Tables} (hp : t.inProgress = []) (ht : t.Named)
    (h : roots.foldlM (resolveRoot env fetch fuel) t = .ok t') :
    Calls (graph env fetch) (t.view env) (roots.map fun p => batch env (rootSpecs env p))
      (t'.view env) ∧ t'.Named ∧ t'.inProgress = [] := by
  induction roots generalizing t with
  | nil =>
    cases h
    exact ⟨.nil _, ht, hp⟩
  | cons path roots ih =>
    rw [List.foldlM_cons] at h
    obtain ⟨t₁, hroot, h⟩ := bind_ok h
    obtain ⟨r, hres⟩ : ∃ r, resolveDeps env fetch fuel t (rootSpecs env path) 0 r = .ok t₁ := by
      obtain he | ⟨r, hr⟩ := @resolveRoot_eq env fetch fuel t path
      · rw [he] at hroot
        cases hroot
      · exact ⟨r, hr ▸ hroot⟩
    obtain ⟨hcall, hprog⟩ := resolveDeps_isCall _ _ _ _ _ hres
    obtain ⟨hcalls, hrest⟩ := ih (hprog.trans hp) (resolveDeps_named ht hres) h
    refine ⟨.cons ?_ hcalls, hrest⟩
    have hA : {n | n ∈ t.inProgress} = (∅ : Set String) := by
      rw [hp]
      exact Set.ext fun n => by simp
    rwa [hA] at hcall

/-- **The resolver returns**, or raises, on every finite graph: fuel beyond the number of missing
AUR packages is never used up. -/
theorem resolveAurDepsBatch_fuel {U : List String} {fuel : ℕ}
    (hU : ∀ n, Missing env fetch roots n → n ∈ U) (hf : U.length < fuel) :
    resolveAurDepsBatch env fetch fuel roots ≠ .error .outOfFuel := by
  classical
  intro h
  rw [resolveAurDepsBatch] at h
  split at h
  next e he =>
    cases h
    obtain ⟨pre, path, post, t, hroots, hpre, hpath⟩ := foldlM_error he
    obtain ⟨-, -, hprog⟩ := foldlM_calls rfl named_empty hpre
    obtain hu | ⟨r, hr⟩ := @resolveRoot_eq env fetch fuel t path
    · rw [hu] at hpath
      cases hpath
    · rw [hr] at hpath
      -- Of `U` only the missing packages count: they are closed under what they ask for.
      let V := U.filter fun n => Missing env fetch roots n
      have hV : ∀ n, n ∈ V ↔ Missing env fetch roots n := by
        simpa [V] using hU
      have hlen : V.length ≤ U.length := List.length_filter_le _ U
      have hclosed : ∀ m ∈ V, ∀ n, AsksFor env (depsOf env fetch m) n → n ∈ V :=
        fun m hm n hn => (hV n).mpr (.dep ((hV m).mp hm) hn)
      refine resolveDeps_fuel hclosed (fun n hn => ?_) ?_ ?_ ?_ hpath
      · exact (hV n).mpr (.root (by simp [hroots]) hn)
      · simp [hprog]
      · simp [hprog]
      · omega
  · cases h

/-- **When the resolver returns a build order.** Where `resolve_aur_deps_batch` returns, its list is
a build order of the roots exactly when every place of the walk over the roots is sound: read on
the dependency graph alone, what a list of dependencies needs from the AUR is not mentioned first
by a spec that is satisfied, and is reachable from no dependency before it in the list, unless it
is settled before the list begins. -/
theorem resolveAurDepsBatch_buildOrder {fuel : ℕ} {out : List ResolvedDep}
    (h : resolveAurDepsBatch env fetch fuel roots = .ok out) :
    IsBuildOrder env fetch roots (out.map ResolvedDep.name) ↔
      Walk.AllSound (graph env fetch) (roots.map fun p => batch env (rootSpecs env p)) := by
  rw [resolveAurDepsBatch] at h
  split at h
  · cases h
  next t ht =>
    cases h
    obtain ⟨hcalls, hnamed, -⟩ := foldlM_calls rfl named_empty ht
    rw [hnamed.names, isBuildOrder_iff]
    have hv : ({} : Tables).view env = ⟨∅, []⟩ := by
      refine Walk.State.ext (Set.ext fun n => ?_) rfl
      exact ⟨fun hn => (by cases hn.2), fun hn => (by cases hn)⟩
    rw [hv] at hcalls
    exact hcalls.buildOrder_iff

/-- The AUR has `a`, which needs `b`, and `b`; nothing is installed but what `satisfied` says. The
PKGBUILDs `app` and `tool` are the roots. -/
def twoPackages (app tool : List String) (satisfied : List String) : Env where
  satisfied d := d ∈ satisfied
  inRepo _ := false
  aurInfo n :=
    if n = "a" then some { depends := ["b>=1"] } else if n = "b" then some {} else none
  findPkgbuild _ := none
  parsePkgbuild p :=
    if p = "app" then some { pkgname := some (.str "app"), depends := app }
    else if p = "tool" then some { pkgname := some (.str "tool"), makedepends := tool } else none

/-- The names of a result. -/
def resultNames (r : Except Failure (List ResolvedDep)) : Option (List String) :=
  r.toOption.map fun out => out.map ResolvedDep.name

theorem exists_of_resultNames {r : Except Failure (List ResolvedDep)}
    (h : resultNames r = some names) : ∃ out, r = .ok out ∧ out.map ResolvedDep.name = names := by
  cases r with
  | error e => cases h
  | ok out => exact ⟨out, rfl, Option.some.inj h⟩

/-- A dependency shared by two roots. -/
def sharedDep : Env := twoPackages ["b", "a"] ["a"] []

theorem resolveAurDepsBatch_buildOrder_shared :
    IsBuildOrder sharedDep true ["app", "tool"] ["b", "a"] ↔ Walk.AllSound (graph sharedDep true)
      (["app", "tool"].map fun p => batch sharedDep (rootSpecs sharedDep p)) := by
  have h : resultNames (resolveAurDepsBatch sharedDep true 3 ["app", "tool"]) =
      some ["b", "a"] := by decide
  obtain ⟨out, hout, hnames⟩ := exists_of_resultNames h
  have hiff := resolveAurDepsBatch_buildOrder hout
  rwa [hnames] at hiff

/-- A root that lists `a` before the `b` that `a` needs gets `b` twice, and a root after one that
`b` satisfies does not get the newer `b` it needs. -/
theorem resolveAurDepsBatch_not_buildOrder :
    resultNames (resolveAurDepsBatch (twoPackages ["a", "b"] [] []) true 3 ["app"]) =
      some ["b", "a", "b"] ∧
    resultNames (resolveAurDepsBatch (twoPackages ["b"] ["b>=2"] ["b"]) true 3
      ["app", "tool"]) = some [] ∧
    ¬∀ (env : Env) (fetch : Bool) (fuel : ℕ) (roots : List String) (out : List ResolvedDep),
      resolveAurDepsBatch env fetch fuel roots = .ok out →
        IsBuildOrder env fetch roots (out.map ResolvedDep.name) := by
  have h₁ : resultNames (resolveAurDepsBatch (twoPackages ["a", "b"] [] []) true 3 ["app"]) =
      some ["b", "a", "b"] := by decide
  refine ⟨h₁, by decide, fun h => ?_⟩
  obtain ⟨out, hout, hnames⟩ := exists_of_resultNames h₁
  have hb := (h _ _ _ _ _ hout).once
  rw [hnames] at hb
  exact absurd hb (by decide)

end Batch

end Sysforge.Aur
