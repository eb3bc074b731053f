import Sysforge.Foundations.Run
import Sysforge.Pipeline.PackagesStage

/-!
# Runs of the packages stage

In every run that starts from a covered checkpoint, every package of the manifest is in exactly one
list of the progress, or is the package that is being built; no package is built twice, and a run
that succeeds leaves every package built or skipped.
-/

namespace Sysforge.Packages

open PipelineState

variable {r : Run} {m : Machine} {s : PipelineState} {p : Progress} {n name now error : String}
  {todo : List Entry} {e : Entry} {names : List String}

/-! ## The lists a package is in -/

/-- The number of lists that have a package. -/
def places (p : Progress) (n : String) : ℕ :=
  (if n ∈ p.remaining then 1 else 0) + (if n ∈ p.built then 1 else 0) +
    (if n ∈ p.failed then 1 else 0) + if n ∈ p.skipped then 1 else 0

/-- A package is in exactly one of pending, building, built, failed and skipped: in one list, or in
none and the one that is being built. -/
def Placed (current : Option String) (p : Progress) (n : String) : Prop :=
  places p n = 1 ∨ places p n = 0 ∧ current = some n

theorem mem_filter_ne {l : List String} : n ∈ l.filter (· ≠ name) ↔ n ∈ l ∧ n ≠ name := by
  rw [List.mem_filter, decide_eq_true_iff]

/-- A call for one package leaves the places of the others. -/
theorem places_of_ne (hn : n ≠ name) :
    places (s.markPackageBuilding name now).progress n = places s.progress n ∧
    places (s.markPackageBuilt name now).progress n = places s.progress n ∧
    places (s.markPackageFailed name error now).progress n = places s.progress n ∧
    places (s.markPackageSkipped name now).progress n = places s.progress n ∧
    places (retryPackage s name).progress n = places s.progress n := by
  rw [progress_markPackageBuilding, progress_markPackageBuilt, progress_markPackageFailed,
    progress_markPackageSkipped, progress_retryPackage]
  simp only [places, mem_filter_ne, mem_addName, hn, ne_eq, not_false_eq_true, and_true, or_false,
    and_self]

theorem places_building (h : places s.progress name ≤ 1) (hmem : name ∈ s.progress.remaining) :
    places (s.markPackageBuilding name now).progress name = 0 := by
  rw [places, if_pos hmem] at h
  rw [progress_markPackageBuilding, places, if_neg fun h => (mem_filter_ne.mp h).2 rfl]
  dsimp only
  omega

theorem places_built (h : places s.progress name = 0) :
    places (s.markPackageBuilt name now).progress name = 1 := by
  rw [places] at h
  rw [progress_markPackageBuilt, places, if_neg fun h => (mem_filter_ne.mp h).2 rfl,
    if_pos (mem_addName.mpr (.inr rfl)), if_neg fun h => (mem_filter_ne.mp h).2 rfl]
  dsimp only
  omega

theorem places_failed (h : places s.progress name = 0) :
    places (s.markPackageFailed name error now).progress name = 1 := by
  rw [places] at h
  rw [progress_markPackageFailed, places, if_neg fun h => (mem_filter_ne.mp h).2 rfl,
    if_pos (c := name ∈ addName s.progress.failed name) (mem_addName.mpr (.inr rfl))]
  dsimp only
  omega

theorem places_skipped (h : places s.progress name ≤ 1) (hmem : name ∈ s.progress.failed) :
    places (s.markPackageSkipped name now).progress name = 1 := by
  rw [places, if_pos hmem] at h
  rw [progress_markPackageSkipped, places, if_neg fun h => (mem_filter_ne.mp h).2 rfl,
    if_neg (c := name ∈ s.progress.failed.filter _) fun h => (mem_filter_ne.mp h).2 rfl,
    if_pos (c := name ∈ addName s.progress.skipped name) (mem_addName.mpr (.inr rfl))]
  dsimp only
  omega

theorem places_retry (h : places s.progress name ≤ 1) (hmem : name ∈ s.progress.failed) :
    places (retryPackage s name).progress name = 1 := by
  rw [places, if_pos hmem] at h
  rw [progress_retryPackage, places, if_pos (mem_addName.mpr (.inr rfl)),
    if_neg (c := name ∈ s.progress.failed.filter _) fun h => (mem_filter_ne.mp h).2 rfl]
  dsimp only
  omega

/-- Where the progress of a checkpoint lets `init_package_list` do its work: the list was set
before, or no listed package was failed or skipped. -/
def Seeded (p : Progress) (names : List String) : Prop :=
  p.remaining ≠ [] ∨ p.built ≠ [] ∨ ∀ n ∈ names, n ∉ p.failed ∧ n ∉ p.skipped

theorem mem_requeue (hn : n ∈ requeue p names) : n ∈ p.remaining ∨ n ∈ names ∧
    (p.remaining = [] ∧ p.built = [] ∨ n ∉ p.built ∧ n ∉ p.failed ∧ n ∉ p.skipped) := by
  rw [requeue] at hn
  split at hn
  next h => exact .inr ⟨hn, .inl h⟩
  · dsimp only at hn
    split at hn
    · exact .inl hn
    · simp only [List.mem_append, List.mem_filter, decide_eq_true_eq] at hn
      rcases hn with ⟨hmem, hrem | ⟨-, -, hbuckets⟩⟩ | ⟨hrem, -⟩
      · exact .inl hrem
      · exact .inr ⟨hmem, .inr hbuckets⟩
      · exact .inl hrem

/-- A listed package is in some list after `init_package_list`. -/
theorem requeue_listed (hn : n ∈ names) :
    n ∈ requeue p names ∨ n ∈ p.built ∨ n ∈ p.failed ∨ n ∈ p.skipped := by
  rw [requeue]
  split
  · exact .inl hn
  · dsimp only
    by_cases hlost : n ∈ names.filter fun n =>
        n ∉ p.remaining ∧ n ∉ p.built ∧ n ∉ p.failed ∧ n ∉ p.skipped
    · rw [if_neg (List.ne_nil_of_mem hlost), List.mem_append, List.mem_filter, decide_eq_true_iff]
      exact .inl (.inl ⟨hn, .inr hlost⟩)
    · rw [List.mem_filter, decide_eq_true_iff] at hlost
      by_cases hrem : n ∈ p.remaining
      · refine .inl ?_
        split
        · exact hrem
        · rw [List.mem_append, List.mem_filter, decide_eq_true_iff]
          exact .inl ⟨hn, .inl hrem⟩
      · by_contra h
        rw [not_or, not_or, not_or] at h
        exact hlost ⟨hn, hrem, h.2⟩

theorem places_init (h : ∀ n, places s.progress n ≤ 1) (hs : Seeded s.progress names) (n : String) :
    places (s.initPackageList names now).progress n ≤ 1 := by
  have hn := h n
  rw [places] at hn
  rw [progress_initPackageList, places]
  dsimp only
  by_cases hq : n ∈ requeue s.progress names
  · rcases mem_requeue hq with hrem | ⟨hmem, ⟨hrem, hbuilt⟩ | ⟨hb, hf, hk⟩⟩
    · rw [if_pos hrem] at hn
      rw [if_pos hq]
      exact hn
    · obtain ⟨hf, hk⟩ := ((hs.resolve_left fun h => h hrem).resolve_left fun h => h hbuilt) n hmem
      rw [if_pos hq, hbuilt, if_neg List.not_mem_nil, if_neg hf, if_neg hk]
    · rw [if_pos hq, if_neg hb, if_neg hf, if_neg hk]
  · rw [if_neg hq]
    omega

theorem places_pos (h : n ∈ p.remaining ∨ n ∈ p.built ∨ n ∈ p.failed ∨ n ∈ p.skipped) :
    0 < places p n := by
  rw [places]
  rcases h with h | h | h | h <;> rw [if_pos h] <;> omega

theorem places_init_listed (h : ∀ n, places s.progress n ≤ 1) (hs : Seeded s.progress names)
    (hn : n ∈ names) : places (s.initPackageList names now).progress n = 1 := by
  have hle := @places_init s now names h hs n
  have hpos : 0 < places (s.initPackageList names now).progress n := by
    rw [progress_initPackageList]
    exact places_pos (requeue_listed hn)
  omega

/-- A package in a list is in no other. -/
theorem only_remaining (h : places p n ≤ 1) (hn : n ∈ p.remaining) :
    n ∉ p.built ∧ n ∉ p.failed ∧ n ∉ p.skipped := by
  rw [places, if_pos hn] at h
  refine ⟨fun hb => ?_, fun hf => ?_, fun hk => ?_⟩
  · rw [if_pos hb] at h
    omega
  · rw [if_pos hf] at h
    omega
  · rw [if_pos hk] at h
    omega

/-! ## The law -/

/-- What a run keeps at a step. -/
structure Keeps (r : Run) (m : Machine) : Prop where
  memory : m.pc ≠ .init → ∀ n ∈ r.names, Placed m.current m.mem.progress n
  checkpoint : m.pc ≠ .init → m.pc ≠ .saveInit → ∀ n ∈ r.names, Placed m.current m.saved.progress n
  builds : ∀ n, m.current = none → (step r m).current = some n →
    (n ∈ m.mem.progress.built → n ∈ m.vars.retrySet) ∧ n ∉ m.mem.progress.skipped
  success : m.pc = .finished true →
    ∀ n ∈ r.names, n ∈ m.saved.progress.built ∨ n ∈ m.saved.progress.skipped

/-- What a run asks of the checkpoint it starts from: the list was set before or no listed package
was failed or skipped, and no package that is retried is listed twice. -/
structure Covered (s : PipelineState) (r : Run) : Prop where
  seeded : Seeded s.progress r.names
  once : ∀ a, r.answer = some a → ∀ n ∈ s.progress.failed, a.retry n → r.names.count n ≤ 1

/-! ## The invariant -/

/-- Every listed package but the one that is being built is in one list. -/
def Listed (r : Run) (current : Option String) (p : Progress) : Prop :=
  (∀ n ∈ r.names, current ≠ some n → places p n = 1) ∧ ∀ n, current = some n → places p n = 0

theorem Listed.placed {current : Option String} (h : Listed r current p) (hn : n ∈ r.names) :
    Placed current p n := by
  by_cases hc : current = some n
  · exact .inr ⟨h.2 n hc, hc⟩
  · exact .inl (h.1 n hn hc)

/-- A package that is placed stays placed for a checkpoint that is behind. -/
theorem Listed.placed_of_none {current : Option String} (h : Listed r none p) (hn : n ∈ r.names) :
    Placed current p n := .inl (h.1 n hn nofun)

/-- The variables while the answers are carried out. -/
structure Choosing (r : Run) (v : Vars) (p : Progress) : Prop where
  listed : Listed r none p
  built : v.built ⊆ p.built
  skipped : v.skipped ⊆ p.skipped
  once : ∀ n ∈ v.retrySet, r.names.count n ≤ 1

/-- The variables of the build loop, with the entries it has before it. -/
structure Ahead (r : Run) (v : Vars) (p : Progress) (todo : List Entry) : Prop where
  retry : ∀ n ∈ v.retrySet, n ∈ todo.map Entry.name → n ∈ p.remaining
  once : ∀ n ∈ v.retrySet, (todo.map Entry.name).count n ≤ 1
  rest : ∀ n ∈ r.names, n ∈ p.remaining → n ∈ todo.map Entry.name
  built : v.built ⊆ p.built
  skipped : ∀ n, n ∈ v.skipped ∨ n ∈ v.skipSet → n ∈ p.skipped

/-- No package that would be retried is listed twice. -/
def Once (r : Run) (p : Progress) : Prop :=
  ∀ a, r.answer = some a → ∀ n ∈ p.failed, a.retry n → r.names.count n ≤ 1

/-- What holds at a place of a run for the state in memory, the checkpoint and the variables. -/
def At (r : Run) (p saved : Progress) (current : Option String) (v : Vars) : Pc → Prop
  | .init => Once r p ∧ Seeded p r.names ∧ current = none ∧ v = {}
  | .saveInit => Once r p ∧ Listed r none p ∧ current = none ∧ v = {}
  | .answer => Once r p ∧ Listed r none p ∧ saved = p ∧ current = none ∧ v = {}
  | .skip todo => Choosing r v p ∧ Listed r none saved ∧ current = none ∧ todo.Nodup ∧
    todo ⊆ p.failed ∧ (∀ n ∈ v.skipSet, n ∈ todo ∨ n ∈ p.skipped) ∧ v.retrySet.Nodup ∧
    v.retrySet ⊆ p.failed ∧ ∀ n ∈ todo, n ∉ v.retrySet
  | .retry todo => Choosing r v p ∧ Listed r none saved ∧ current = none ∧ todo.Nodup ∧
    todo ⊆ p.failed ∧ v.skipSet ⊆ p.skipped ∧ ∀ n ∈ v.retrySet, n ∈ todo ∨ n ∈ p.remaining
  | .saveAnswers => Choosing r v p ∧ Listed r none saved ∧ current = none ∧
    v.skipSet ⊆ p.skipped ∧ v.retrySet ⊆ p.remaining
  | .walk todo => Listed r none p ∧ saved = p ∧ current = none ∧ Ahead r v p todo
  | .saveBuilding e todo => current = some e.name ∧ Listed r (some e.name) p ∧
    Listed r none saved ∧ Ahead r v p todo
  | .build e todo => current = some e.name ∧ Listed r (some e.name) p ∧ saved = p ∧
    Ahead r v p todo
  | .saveBuilt e todo => current = some e.name ∧ Listed r none p ∧ Listed r (some e.name) saved ∧
    Ahead r v p todo ∧ e.name ∈ p.built
  | .saveFailed e todo => current = some e.name ∧ Listed r none p ∧ Listed r (some e.name) saved ∧
    Ahead r v p todo
  | .finished ok => Listed r none p ∧ saved = p ∧ current = none ∧
    (ok = true → ∀ n ∈ r.names, n ∈ p.built ∨ n ∈ p.skipped)

/-- The invariant of a run: no package is in two lists, and the place of the run is as it should
be. -/
structure Inv (r : Run) (m : Machine) : Prop where
  memory : ∀ n, places m.mem.progress n ≤ 1
  checkpoint : ∀ n, places m.saved.progress n ≤ 1
  at_pc : At r m.mem.progress m.saved.progress m.current m.vars m.pc

theorem inv_start (h : ∀ n, places s.progress n ≤ 1) (hc : Covered s r) : Inv r (start s) :=
  ⟨h, h, hc.once, hc.seeded, rfl, rfl⟩

/-- The places after a call for one package. -/
theorem listed_of_call {s' : PipelineState} {c : Option String} (h : Listed r c s.progress)
    (hne : ∀ n, n ≠ name → places s'.progress n = places s.progress n)
    (hself : places s'.progress name = 1) (hc : c = none ∨ c = some name) :
    Listed r none s'.progress := by
  refine ⟨fun n hn _ => ?_, nofun⟩
  by_cases he : n = name
  · exact he ▸ hself
  · rw [hne n he]
    refine h.1 n hn fun hcn => ?_
    rcases hc with hc | hc
    · rw [hc] at hcn
      cases hcn
    · rw [hc, Option.some.injEq] at hcn
      exact he hcn.symm

theorem le_one_of_call {s' : PipelineState} (h : ∀ n, places s.progress n ≤ 1)
    (hne : ∀ n, n ≠ name → places s'.progress n = places s.progress n)
    (hself : places s'.progress name ≤ 1) (n : String) : places s'.progress n ≤ 1 := by
  by_cases he : n = name
  · exact he ▸ hself
  · rw [hne n he]
    exact h n

/-! ## Before the build loop -/

theorem Answer.mem_retrySet {a : Answer} {l : List String} :
    n ∈ a.retrySet l ↔ n ∈ l ∧ a.retry n = true := by
  rw [retrySet, (a.perm _).mem_iff, List.mem_dedup, List.mem_filter]

theorem Answer.mem_skipSet {a : Answer} {l : List String} :
    n ∈ a.skipSet l ↔ n ∈ l ∧ a.retry n = false := by
  rw [skipSet, (a.perm _).mem_iff, List.mem_dedup, List.mem_filter, Bool.not_eq_true']

theorem Answer.nodup_order (a : Answer) (l : List String) : (a.order l).Nodup :=
  (a.perm l).nodup_iff.mpr (List.nodup_dedup l)

theorem step_init (h : Inv r m) (hpc : m.pc = .init) : Inv r (step r m) := by
  obtain ⟨hmem, hsaved, hat⟩ := h
  rw [hpc] at hat
  obtain ⟨honce, hseed, hcur, hvars⟩ := hat
  rw [step, hpc]
  refine ⟨places_init hmem hseed, hsaved, ?_,
    ⟨fun n hn _ => places_init_listed hmem hseed hn, nofun⟩, hcur, hvars⟩
  intro a ha n hn
  rw [progress_initPackageList] at hn
  exact honce a ha n hn

theorem step_saveInit (h : Inv r m) (hpc : m.pc = .saveInit) : Inv r (step r m) := by
  obtain ⟨hmem, hsaved, hat⟩ := h
  rw [hpc] at hat
  obtain ⟨honce, hlisted, hcur, hvars⟩ := hat
  rw [step, hpc]
  exact ⟨hmem, hmem, honce, hlisted, rfl, hcur, hvars⟩

theorem step_answer (h : Inv r m) (hpc : m.pc = .answer) : Inv r (step r m) := by
  obtain ⟨hmem, hsaved, hat⟩ := h
  rw [hpc] at hat
  obtain ⟨honce, hlisted, hsync, hcur, hvars⟩ := hat
  rw [step, hpc]
  dsimp only
  split
  next hnil =>
    refine ⟨hmem, hsaved, hlisted, hsync, hcur, ?_⟩
    exact ⟨fun n hn => absurd hn List.not_mem_nil, fun n hn => absurd hn List.not_mem_nil,
      fun n hn _ => hn, List.Subset.refl _,
      fun n hn => hn.elim id fun hn => absurd hn List.not_mem_nil⟩
  next hne =>
    cases ha : r.answer with
    | none => exact ⟨hmem, hsaved, hlisted, hsync, hcur, nofun⟩
    | some a =>
      refine ⟨hmem, hsaved, ⟨hlisted, List.Subset.refl _, List.Subset.refl _, fun n hn => ?_⟩, ?_,
        hcur, a.nodup_order _, fun n hn => ?_, fun n hn => .inl hn, a.nodup_order _,
        fun n hn => ?_, fun n hn hn' => ?_⟩
      · obtain ⟨hmem, hretry⟩ := Answer.mem_retrySet.mp hn
        exact honce a ha n hmem hretry
      · dsimp only
        rw [hsync]
        exact hlisted
      · exact (Answer.mem_skipSet.mp hn).1
      · exact (Answer.mem_retrySet.mp hn).1
      · have hskip := (Answer.mem_skipSet.mp hn).2
        rw [(Answer.mem_retrySet.mp hn').2] at hskip
        cases hskip

theorem step_skip {todo : List String} (h : Inv r m) (hpc : m.pc = .skip todo) :
    Inv r (step r m) := by
  obtain ⟨hle, hsaved, hat⟩ := h
  rw [hpc] at hat
  obtain ⟨hch, hlisted, hcur, hnd, hsub, hskip, hrnd, hrsub, hdisj⟩ := hat
  rw [step, hpc]
  cases todo with
  | nil =>
    exact ⟨hle, hsaved, hch, hlisted, hcur, hrnd, hrsub,
      fun n hn => (hskip n hn).resolve_left List.not_mem_nil, fun n hn => .inl hn⟩
  | cons name todo =>
    have hself := @places_skipped m.mem name r.now (hle name) (hsub List.mem_cons_self)
    have hother : ∀ n, n ≠ name →
        places (m.mem.markPackageSkipped name r.now).progress n = places m.mem.progress n :=
      fun n hn => (@places_of_ne m.mem n name r.now "" hn).2.2.2.1
    obtain ⟨hnotin, hnd'⟩ := List.nodup_cons.mp hnd
    refine ⟨le_one_of_call hle hother hself.le, hsaved,
      ⟨listed_of_call hch.listed hother hself (.inl rfl), ?_, ?_, hch.once⟩, hlisted, hcur, hnd', ?_,
      ?_, hrnd, ?_, fun n hn => hdisj n (List.mem_cons_of_mem _ hn)⟩
    all_goals
      dsimp only
      rw [progress_markPackageSkipped]
    · exact hch.built
    · exact fun n hn => mem_addName.mpr (.inl (hch.skipped hn))
    · intro n hn
      exact mem_filter_ne.mpr ⟨hsub (List.mem_cons_of_mem _ hn), fun e => hnotin (e ▸ hn)⟩
    · intro n hn
      rcases hskip n hn with hn | hn
      · exact (List.mem_cons.mp hn).elim (fun e => .inr (mem_addName.mpr (.inr e))) .inl
      · exact .inr (mem_addName.mpr (.inl hn))
    · intro n hn
      exact mem_filter_ne.mpr ⟨hrsub hn, fun e => hdisj name List.mem_cons_self (e ▸ hn)⟩

theorem step_retry {todo : List String} (h : Inv r m) (hpc : m.pc = .retry todo) :
    Inv r (step r m) := by
  obtain ⟨hle, hsaved, hat⟩ := h
  rw [hpc] at hat
  obtain ⟨hch, hlisted, hcur, hnd, hsub, hskip, hretry⟩ := hat
  rw [step, hpc]
  cases todo with
  | nil =>
    exact ⟨hle, hsaved, hch, hlisted, hcur, hskip,
      fun n hn => (hretry n hn).resolve_left List.not_mem_nil⟩
  | cons name todo =>
    have hself := places_retry (hle name) (hsub List.mem_cons_self)
    have hother : ∀ n, n ≠ name →
        places (retryPackage m.mem name).progress n = places m.mem.progress n :=
      fun n hn => (@places_of_ne m.mem n name r.now "" hn).2.2.2.2
    obtain ⟨hnotin, hnd'⟩ := List.nodup_cons.mp hnd
    refine ⟨le_one_of_call hle hother hself.le, hsaved,
      ⟨listed_of_call hch.listed hother hself (.inl rfl), ?_, ?_, hch.once⟩, hlisted, hcur, hnd', ?_,
      ?_, ?_⟩
    all_goals
      dsimp only
      rw [progress_retryPackage]
    · exact hch.built
    · exact hch.skipped
    · intro n hn
      exact mem_filter_ne.mpr ⟨hsub (List.mem_cons_of_mem _ hn), fun e => hnotin (e ▸ hn)⟩
    · exact hskip
    · intro n hn
      rcases hretry n hn with hn | hn
      · exact (List.mem_cons.mp hn).elim (fun e => .inr (mem_addName.mpr (.inr e))) .inl
      · exact .inr (mem_addName.mpr (.inl hn))

theorem step_saveAnswers (h : Inv r m) (hpc : m.pc = .saveAnswers) : Inv r (step r m) := by
  obtain ⟨hle, -, hat⟩ := h
  rw [hpc] at hat
  obtain ⟨hch, -, hcur, hskip, hretry⟩ := hat
  rw [step, hpc]
  refine ⟨hle, hle, hch.listed, rfl, hcur, fun n hn _ => hretry hn, hch.once, fun n hn _ => hn,
    hch.built, fun n hn => ?_⟩
  exact hn.elim (fun hn => hch.skipped hn) fun hn => hskip hn

/-! ## The build loop -/

section Loop

variable {v : Vars}

/-- The loop goes past an entry. -/
theorem Ahead.tail (h : Ahead r v p (e :: todo))
    (hrest : e.name ∈ p.remaining → e.name ∈ todo.map Entry.name) : Ahead r v p todo := by
  refine ⟨fun n hn hmem => ?_, fun n hn => ?_, fun n hn hrem => ?_, h.built, h.skipped⟩
  · exact h.retry n hn (List.mem_cons_of_mem _ hmem)
  · exact List.count_le_count_cons.trans (h.once n hn)
  · rcases List.mem_cons.mp (h.rest n hn hrem) with rfl | hmem
    · exact hrest hrem
    · exact hmem

/-- A package that the loop does not go past is remaining. -/
theorem remaining_of_not_passes (h : Ahead r v p (e :: todo)) (hpass : passes v p e.name = false) :
    e.name ∈ p.remaining := by
  rw [passes, Bool.or_eq_false_iff, Bool.and_eq_false_iff, decide_eq_false_iff_not,
    decide_eq_false_iff_not, not_not, not_not] at hpass
  exact hpass.2.elim id fun hretry => h.retry _ hretry List.mem_cons_self

theorem not_remaining_of_passes (h : Ahead r v p (e :: todo)) (hle : places p e.name ≤ 1)
    (hpass : passes v p e.name = true) : e.name ∉ p.remaining := by
  intro hrem
  obtain ⟨hb, -, hk⟩ := only_remaining hle hrem
  rw [passes, Bool.or_eq_true, Bool.or_eq_true, Bool.and_eq_true, Bool.or_eq_true,
    Bool.and_eq_true] at hpass
  rcases hpass with (⟨hbuilt, -⟩ | hskip) | ⟨hnot, -⟩
  · exact hb (h.built (of_decide_eq_true hbuilt))
  · exact hk (h.skipped _ (hskip.imp of_decide_eq_true of_decide_eq_true))
  · exact of_decide_eq_true hnot hrem

/-- The loop takes an entry out of the remaining packages. -/
theorem Ahead.building (h : Ahead r v s.progress (e :: todo)) :
    Ahead r v (s.markPackageBuilding e.name now).progress todo := by
  rw [progress_markPackageBuilding]
  refine ⟨fun n hn hmem => ?_, fun n hn => ?_, fun n hn hrem => ?_, h.built, h.skipped⟩
  · refine mem_filter_ne.mpr ⟨h.retry n hn (List.mem_cons_of_mem _ hmem), ?_⟩
    rintro rfl
    have honce := h.once _ hn
    rw [List.map_cons, List.count_cons_self] at honce
    have hpos := List.count_pos_iff.mpr hmem
    omega
  · exact List.count_le_count_cons.trans (h.once n hn)
  · obtain ⟨hrem, hne⟩ := mem_filter_ne.mp hrem
    exact (List.mem_cons.mp (h.rest n hn hrem)).resolve_left hne

theorem step_walk (h : Inv r m) (hpc : m.pc = .walk todo) : Inv r (step r m) := by
  obtain ⟨hle, hsaved, hat⟩ := h
  rw [hpc] at hat
  obtain ⟨hlisted, hsync, hcur, hahead⟩ := hat
  rw [step, hpc]
  cases todo with
  | nil =>
    refine ⟨hle, hsaved, hlisted, hsync, hcur, fun hok n hn => ?_⟩
    have hone := hlisted.1 n hn nofun
    have hrem : n ∉ m.mem.progress.remaining := fun hr => List.not_mem_nil (hahead.rest n hn hr)
    rw [places, if_neg hrem, of_decide_eq_true hok, if_neg List.not_mem_nil] at hone
    by_contra hnot
    rw [not_or] at hnot
    rw [if_neg hnot.1, if_neg hnot.2] at hone
    cases hone
  | cons e todo =>
    dsimp only
    split
    next hpass =>
      refine ⟨hle, hsaved, hlisted, hsync, hcur, hahead.tail fun hrem => ?_⟩
      exact absurd hrem (not_remaining_of_passes hahead (hle e.name) hpass)
    next hpass =>
      have hrem := remaining_of_not_passes hahead (Bool.eq_false_iff.mpr hpass)
      have hself := @places_building m.mem e.name r.now (hle e.name) hrem
      have hother : ∀ n, n ≠ e.name →
          places (m.mem.markPackageBuilding e.name r.now).progress n = places m.mem.progress n :=
        fun n hn => (@places_of_ne m.mem n e.name r.now "" hn).1
      refine ⟨le_one_of_call hle hother (hself.le.trans (Nat.zero_le 1)), hsaved, rfl,
        ⟨fun n hn hne => ?_, fun n hn => ?_⟩, hsync ▸ hlisted, hahead.building⟩
      · rw [hother n fun he => hne (he ▸ rfl)]
        exact hlisted.1 n hn nofun
      · rw [← Option.some.inj hn]
        exact hself

theorem step_saveBuilding (h : Inv r m) (hpc : m.pc = .saveBuilding e todo) :
    Inv r (step r m) := by
  obtain ⟨hle, -, hat⟩ := h
  rw [hpc] at hat
  obtain ⟨hcur, hlisted, -, hahead⟩ := hat
  rw [step, hpc]
  exact ⟨hle, hle, hcur, hlisted, rfl, hahead⟩

theorem step_build (h : Inv r m) (hpc : m.pc = .build e todo) : Inv r (step r m) := by
  obtain ⟨hle, hsaved, hat⟩ := h
  rw [hpc] at hat
  obtain ⟨hcur, hlisted, hsync, hahead⟩ := hat
  have hzero := hlisted.2 e.name rfl
  have hrem : ∀ n ∈ m.mem.progress.remaining, n ≠ e.name := by
    rintro n hn rfl
    have := @places_pos m.mem.progress e.name (.inl hn)
    omega
  rw [step, hpc]
  dsimp only
  cases e.error with
  | none =>
    have hself := @places_built m.mem e.name r.now hzero
    have hother : ∀ n, n ≠ e.name →
        places (m.mem.markPackageBuilt e.name r.now).progress n = places m.mem.progress n :=
      fun n hn => (@places_of_ne m.mem n e.name r.now "" hn).2.1
    refine ⟨le_one_of_call hle hother hself.le, hsaved, hcur,
      listed_of_call hlisted hother hself (.inr rfl), hsync ▸ hlisted, ?_, ?_⟩
    all_goals
      dsimp only
      rw [progress_markPackageBuilt]
    · refine ⟨fun n hn hmem => ?_, hahead.once, fun n hn hmem => ?_, fun n hn => ?_, hahead.skipped⟩
      · have := hahead.retry n hn hmem
        exact mem_filter_ne.mpr ⟨this, hrem n this⟩
      · exact hahead.rest n hn (mem_filter_ne.mp hmem).1
      · exact mem_addName.mpr (.inl (hahead.built hn))
    · exact mem_addName.mpr (.inr rfl)
  | some error =>
    have hself := @places_failed m.mem e.name r.now error hzero
    have hother : ∀ n, n ≠ e.name → places (m.mem.markPackageFailed e.name error r.now).progress n =
        places m.mem.progress n :=
      fun n hn => (@places_of_ne m.mem n e.name r.now error hn).2.2.1
    refine ⟨le_one_of_call hle hother hself.le, hsaved, hcur,
      listed_of_call hlisted hother hself (.inr rfl), hsync ▸ hlisted, ?_⟩
    dsimp only
    rw [progress_markPackageFailed]
    refine ⟨fun n hn hmem => ?_, hahead.once, fun n hn hmem => ?_, hahead.built, hahead.skipped⟩
    · have := hahead.retry n hn hmem
      exact mem_filter_ne.mpr ⟨this, hrem n this⟩
    · exact hahead.rest n hn (mem_filter_ne.mp hmem).1

theorem step_saveBuilt (h : Inv r m) (hpc : m.pc = .saveBuilt e todo) : Inv r (step r m) := by
  obtain ⟨hle, -, hat⟩ := h
  rw [hpc] at hat
  obtain ⟨-, hlisted, -, hahead, hbuilt⟩ := hat
  rw [step, hpc]
  refine ⟨hle, hle, hlisted, rfl, rfl, hahead.retry, hahead.once, hahead.rest, fun n hn => ?_,
    hahead.skipped⟩
  rcases List.mem_append.mp hn with hn | hn
  · exact hahead.built hn
  · rw [List.mem_singleton.mp hn]
    exact hbuilt

theorem step_saveFailed (h : Inv r m) (hpc : m.pc = .saveFailed e todo) : Inv r (step r m) := by
  obtain ⟨hle, -, hat⟩ := h
  rw [hpc] at hat
  obtain ⟨-, hlisted, -, hahead⟩ := hat
  rw [step, hpc]
  exact ⟨hle, hle, hlisted, rfl, rfl, hahead⟩

end Loop

/-- **A step keeps the invariant.** -/
theorem inv_step (h : Inv r m) : Inv r (step r m) := by
  cases hpc : m.pc with
  | init => exact step_init h hpc
  | saveInit => exact step_saveInit h hpc
  | answer => exact step_answer h hpc
  | skip todo => exact step_skip h hpc
  | retry todo => exact step_retry h hpc
  | saveAnswers => exact step_saveAnswers h hpc
  | walk todo => exact step_walk h hpc
  | saveBuilding e todo => exact step_saveBuilding h hpc
  | build e todo => exact step_build h hpc
  | saveBuilt e todo => exact step_saveBuilt h hpc
  | saveFailed e todo => exact step_saveFailed h hpc
  | finished ok =>
    rw [step, hpc]
    exact h

theorem inv_after (h : ∀ n, places s.progress n ≤ 1) (hc : Covered s r) (k : ℕ) :
    Inv r (after r s k) := by
  induction k with
  | zero => exact inv_start h hc
  | succ k ih =>
    rw [after, Function.iterate_succ_apply']
    exact inv_step ih

/-! ## Runs -/

/-- A step that takes up a package takes one that remains. -/
theorem builds_of_inv (h : Inv r m) (hcur : m.current = none) (hn : (step r m).current = some n) :
    n ∈ m.mem.progress.remaining := by
  obtain ⟨-, -, hat⟩ := h
  rw [step] at hn
  cases hpc : m.pc with
  | walk todo =>
    rw [hpc] at hat hn
    cases todo with
    | nil => exact absurd (hcur.symm.trans hn) nofun
    | cons e todo =>
      dsimp only at hn
      split at hn
      · exact absurd (hcur.symm.trans hn) nofun
      next hpass =>
        rw [← Option.some.inj hn]
        exact remaining_of_not_passes hat.2.2.2 (Bool.eq_false_iff.mpr hpass)
  | answer =>
    rw [hpc] at hn
    dsimp only at hn
    split at hn
    · exact absurd (hcur.symm.trans hn) nofun
    · split at hn <;> exact absurd (hcur.symm.trans hn) nofun
  | skip todo =>
    rw [hpc] at hn
    cases todo <;> exact absurd (hcur.symm.trans hn) nofun
  | retry todo =>
    rw [hpc] at hn
    cases todo <;> exact absurd (hcur.symm.trans hn) nofun
  | build e todo =>
    rw [hpc] at hn
    dsimp only at hn
    split at hn <;> exact absurd (hcur.symm.trans hn) nofun
  | saveBuilt e todo => rw [hpc] at hn; cases hn
  | saveFailed e todo => rw [hpc] at hn; cases hn
  | init | saveInit | saveAnswers | saveBuilding e todo | finished ok =>
    rw [hpc] at hn
    exact absurd (hcur.symm.trans hn) nofun

theorem keeps_of_inv (h : Inv r m) : Keeps r m := by
  have hat := h.at_pc
  refine ⟨fun hpc n hn => ?_, fun hpc hpc' n hn => ?_, fun n hcur hn => ?_, fun hpc => ?_⟩
  · cases hm : m.pc <;> rw [hm] at hat
    case init => exact absurd hm hpc
    case saveInit => exact hat.2.1.placed_of_none hn
    case answer => exact hat.2.1.placed_of_none hn
    case skip => exact hat.1.listed.placed_of_none hn
    case retry => exact hat.1.listed.placed_of_none hn
    case saveAnswers => exact hat.1.listed.placed_of_none hn
    case walk => exact hat.1.placed_of_none hn
    case saveBuilding => exact hat.1 ▸ hat.2.1.placed hn
    case build => exact hat.1 ▸ hat.2.1.placed hn
    case saveBuilt => exact hat.2.1.placed_of_none hn
    case saveFailed => exact hat.2.1.placed_of_none hn
    case finished => exact hat.1.placed_of_none hn
  · cases hm : m.pc <;> rw [hm] at hat
    case init => exact absurd hm hpc
    case saveInit => exact absurd hm hpc'
    case answer => exact hat.2.2.1 ▸ hat.2.1.placed_of_none hn
    case skip => exact hat.2.1.placed_of_none hn
    case retry => exact hat.2.1.placed_of_none hn
    case saveAnswers => exact hat.2.1.placed_of_none hn
    case walk => exact hat.2.1 ▸ hat.1.placed_of_none hn
    case saveBuilding => exact hat.2.2.1.placed_of_none hn
    case build => exact hat.1 ▸ hat.2.2.1 ▸ hat.2.1.placed hn
    case saveBuilt => exact hat.1 ▸ hat.2.2.1.placed hn
    case saveFailed => exact hat.1 ▸ hat.2.2.1.placed hn
    case finished => exact hat.2.1 ▸ hat.1.placed_of_none hn
  · obtain ⟨hb, -, hk⟩ := only_remaining (h.memory n) (builds_of_inv h hcur hn)
    exact ⟨fun hb' => absurd hb' hb, hk⟩
  · rw [hpc] at hat
    rw [hat.2.1]
    exact hat.2.2.2 rfl

/-- **The packages stage keeps its checkpoint**: in every sequence of runs that start from covered
checkpoints and stop anywhere, at every step of every run. -/
theorem keeps_runs {is : List Stopped} {i : Stopped} (hs : s.progress = {})
    (hc : Sysforge.Run.Each checkpoint (fun s i => Covered s i.run) s (is ++ [i])) (k : ℕ) :
    Keeps i.run (after i.run (Sysforge.Run.run checkpoint s is) k) := by
  have hstart : ∀ n, places s.progress n ≤ 1 := by
    intro n
    rw [hs]
    exact Nat.zero_le 1
  obtain ⟨hruns, hlast, -⟩ := Sysforge.Run.each_append.mp hc
  have hplaces : ∀ n, places (Sysforge.Run.run checkpoint s is).progress n ≤ 1 := by
    refine hruns.invariant (I := fun s => ∀ n, places s.progress n ≤ 1) hstart
      fun s j _ hs hj n => ?_
    have hinv := inv_after hs hj j.steps
    rw [checkpoint]
    split
    · exact hinv.memory n
    · exact hinv.checkpoint n
  exact keeps_of_inv (inv_after hplaces hlast k)

/-! ## A failed package that is queued again -/

/-- A run that lists one package, which fails to build. -/
def failingRun : Run := ⟨[⟨"mesa", some "makepkg failed"⟩], none, "2026-01-02T00:00:00Z"⟩

/-- After the run, the next one has the package both failed and remaining, in memory and in the
checkpoint. -/
theorem not_keeps :
    ¬ Keeps failingRun (after failingRun (checkpoint .empty ⟨failingRun, 8, true⟩) 2) := by
  intro h
  rcases h.checkpoint (by decide) (by decide) "mesa" (by decide) with h | ⟨h, -⟩ <;>
    exact absurd h (by decide)

/-- A run that lists a second package, and has the failed one retried. -/
def retryingRun : Run :=
  ⟨[⟨"mesa", none⟩, ⟨"vim", none⟩], some ⟨fun _ => true, List.dedup, fun _ => .refl _⟩,
    "2026-01-03T00:00:00Z"⟩

/-- A run that lists a package that builds and one that fails. -/
def partialRun : Run :=
  ⟨[⟨"vim", none⟩, ⟨"mesa", some "makepkg failed"⟩], none, "2026-01-02T00:00:00Z"⟩

/-- A run after one that built something and failed something is covered. -/
theorem keeps_retryingRun :
    Keeps retryingRun (after retryingRun (checkpoint .empty ⟨partialRun, 20, false⟩) 9) := by
  refine @keeps_runs .empty [⟨partialRun, 20, false⟩] ⟨retryingRun, 0, false⟩ rfl
    ⟨⟨.inr (.inr fun n _ => ⟨List.not_mem_nil, List.not_mem_nil⟩), nofun⟩,
      ⟨.inr (.inl (by decide)), fun a _ n _ _ => ?_⟩, trivial⟩ 9
  exact List.nodup_iff_count_le_one.mp (by decide) n

end Sysforge.Packages
