import Sysforge.Foundations.Run
import Sysforge.Pipeline.Resume

/-!
# Runs of calls over one state dir

What each call of `runPipeline` promises about the statuses it finds and leaves (`CallContract`),
and that a stage is recorded as done only after its run completed, over any sequence of calls of
`runPipeline` and `runStageStandalone` and wherever their processes die (`calls_contract`).
A start by name next to `--resume` marks no earlier stage, so it promises nothing about them.
-/

namespace Sysforge.Pipeline

open PipelineState (Status Op)

/-! ## The plan of a call -/

section Plan

variable {stages : List Stage} {o : RunOptions} {env : Env} {disk : Option PipelineState}
  {s s' : PipelineState} {now n : String} {i : ℕ} {log : List Event}

theorem skipTo_status {front : List Stage} : (skipTo now front s).stageStatus n =
    if n ∈ front.map Stage.name ∧ s.stageStatus n ≠ .done then .skippedTo
    else s.stageStatus n := by
  induction front generalizing s with
  | nil => simp [skipTo]
  | cons st front ih =>
    have hstep : skipTo now (st :: front) s = skipTo now front
        (if s.stageStatus st.name = .done then s else s.markSkippedTo st.name now) := rfl
    rw [hstep, ih]
    simp only [List.map_cons, List.mem_cons]
    by_cases hd : s.stageStatus st.name = .done
    · rw [if_pos hd]
      by_cases hn : n = st.name
      · simp [hn, hd]
      · simp [hn]
    · rw [if_neg hd, stageStatus_markSkippedTo]
      by_cases hn : n = st.name
      · subst hn
        simp [hd]
      · simp [hn]

/-- A call with a start by name next to `--resume`. -/
def RunOptions.isBoth (o : RunOptions) : Bool := o.resume && o.start.isSome

/-- How a call goes on from the saved state: from which stage, and in which state. -/
inductive Plan (stages : List Stage) (o : RunOptions) (env : Env) (s : PipelineState) :
    List Event × Ending → Prop
  | refuse (h : validateStages stages = true → o.resume = true → o.start ≠ none) :
      Plan stages o env s ([], .refused)
  | nothing (hs : o.start = none) (h : ∀ st ∈ stages, isSettled (s.stageStatus st.name) = true) :
      Plan stages o env s ([], .nothingToResume)
  | go (i : ℕ) (s' : PipelineState) (marks : List Event)
      (hm : marks = [] ∨ marks = saves o.dryRun s')
      (hdone : ∀ n, s'.stageStatus n = .done ↔ s.stageStatus n = .done)
      (hfront : o.isBoth = false →
        ∀ st ∈ stages.take i, isSettled (s'.stageStatus st.name) = true)
      (hstart : ∀ name, o.start = some name → name ∈ ((stages.drop i).head?.map Stage.name))
      (hresume : o.resume = true → o.start = none → s' = s ∧ i = findResumeIndex stages s) :
      Plan stages o env s (marks ++ (startAt env o.dryRun (stages.drop i) s').1,
        (startAt env o.dryRun (stages.drop i) s').2)

/-- The stages before the start of a resumption are settled. -/
theorem findResumeIndex_settled :
    ∀ st ∈ stages.take (findResumeIndex stages s), isSettled (s.stageStatus st.name) = true := by
  intro st hst
  obtain ⟨j, hj, rfl⟩ := List.mem_take_iff_getElem.mp hst
  have := List.not_of_lt_findIdx (lt_min_iff.mp hj).1
  simpa using this

theorem skipTo_settled (hst : n ∈ (stages.take i).map Stage.name) :
    isSettled ((skipTo now (stages.take i) s).stageStatus n) = true := by
  rw [skipTo_status]
  by_cases hd : s.stageStatus n = .done
  · rw [if_neg (by simp [hd]), hd]
    rfl
  · rw [if_pos ⟨hst, hd⟩]
    rfl

theorem runPipeline_plan :
    Plan stages o env (disk.getD PipelineState.empty) (runPipeline stages o env disk) := by
  generalize hs : disk.getD PipelineState.empty = s
  simp only [runPipeline, hs]
  split
  next hv => exact .refuse fun h => by simp [h] at hv
  split
  next hv hr => exact .refuse fun _ h => by simp [h] at hr
  cases hstart : o.start with
  | some name =>
    dsimp only
    split
    · exact .refuse fun _ _ => by simp [hstart]
    next hname =>
      rw [not_not] at hname
      refine .go _ _ _ (.inr rfl) (fun n => ?_) (fun hb st hst => ?_) (fun n hn => ?_)
        (fun _ h => by simp [hstart] at h)
      · split
        · rfl
        · rw [skipTo_status]
          split
          next h => exact ⟨fun h' => (by cases h'), fun h' => absurd h' h.2⟩
          next => rfl
      · have hr : o.resume = false := by simpa [RunOptions.isBoth, hstart] using hb
        rw [hr]
        exact skipTo_settled (List.mem_map_of_mem hst)
      · obtain rfl : name = n := by simpa [hstart] using hn
        obtain ⟨st, hst, hn⟩ := List.mem_map.mp hname
        have hlt : stages.findIdx (fun st => decide (st.name = name)) < stages.length :=
          List.findIdx_lt_length_of_exists ⟨st, hst, by simpa using hn⟩
        rw [List.head?_drop, List.getElem?_eq_getElem hlt]
        simpa using List.findIdx_getElem (w := hlt)
  | none =>
    dsimp only
    split
    next hr =>
      split
      next hi =>
        refine .nothing hstart fun st hst => ?_
        have := @findResumeIndex_settled stages s st
        rw [hi, List.take_length] at this
        exact this hst
      next =>
        exact .go _ _ [] (.inl rfl) (fun _ => Iff.rfl) (fun _ => findResumeIndex_settled)
          (fun _ h => by simp [hstart] at h) fun _ _ => ⟨rfl, rfl⟩
    next hr =>
      exact .go 0 s [] (.inl rfl) (fun _ => Iff.rfl) (fun _ st h => by simp at h)
        (fun _ h => by simp [hstart] at h) fun h => absurd h hr

end Plan

/-! ## What a call promises -/

section Contract

variable {stages : List Stage} {o : RunOptions} {env : Env} {disk : Option PipelineState}
  {s s' : PipelineState} {n : String} {i : ℕ} {log es : List Event} {death : Option ℕ}

/-- The events and the end of a call. -/
def pipelineTrace (stages : List Stage) (o : RunOptions) (env : Env) (death : Option ℕ)
    (disk : Option PipelineState) : List Event × Ending :=
  (Call.pipeline o env death).trace stages disk

/-- What a call of `runPipeline` promises about the statuses it finds in `disk`. -/
structure CallContract (stages : List Stage) (disk : Option PipelineState) (o : RunOptions)
    (env : Env) (death : Option ℕ) : Prop where
  /-- No stage begins next to a dependency that is neither done nor skipped. -/
  settledDeps : o.isBoth = false →
    DepsSettled stages disk (pipelineTrace stages o env death disk).1
  /-- A resumption runs the stages that are due, in order and up to the first that does not
  complete, and no stage that is done. It may run a skipped stage behind a due one again. -/
  resumes : o.resume = true → o.start = none → o.dryRun = false → ∃ again : Stage → Bool,
    (∀ st ∈ stages, again st = true → recorded disk st.name = .skippedTo ∧
      ∃ u, [u, st].Sublist stages ∧ isSettled (recorded disk u.name) = false) ∧
    began (pipelineTrace stages o env death disk).1 <+:
      upToFailure env (stages.filter fun st => !isSettled (recorded disk st.name) || again st) ∧
    (death = none → began (pipelineTrace stages o env death disk).1 =
      upToFailure env (stages.filter fun st => !isSettled (recorded disk st.name) || again st))
  /-- A start by name that ends without failure has run the stage, unless it was done. -/
  startsFrom : ∀ name, o.start = some name →
    (pipelineTrace stages o env death disk).2 = .finished ∨
      (pipelineTrace stages o env death disk).2 = .rebootRequired →
    name ∈ began (pipelineTrace stages o env death disk).1 ∨ recorded disk name = .done
  /-- A dry run changes no status. -/
  previews : o.dryRun = true → ∀ n,
    recorded (after disk (pipelineTrace stages o env death disk).1) n = recorded disk n
  /-- A run that ends successfully leaves every stage done or skipped. -/
  finishes : o.isBoth = false →
    (pipelineTrace stages o env death disk).2 = .finished ∨
      (pipelineTrace stages o env death disk).2 = .nothingToResume →
    ∀ st ∈ stages, isSettled
      (recorded (after disk (pipelineTrace stages o env death disk).1) st.name) = true

theorem startAt_began (hd : (stages.map Stage.name).Nodup) :
    began (startAt env false stages s).1 =
      upToFailure env (stages.filter fun st => s.stageStatus st.name ≠ .done) := by
  simp only [startAt, saves, began_append, Bool.false_eq_true, if_false, began_saved, began_nil,
    List.nil_append]
  exact runStages_began hd

theorem startAt_dry : startAt env true stages s = ([], .previewed) := by
  simp [startAt, saves, runStages_dry]

theorem startAt_honest {dryRun : Bool} (hs : Backed log s) :
    Honest log (startAt env dryRun stages s).1 := by
  have hi : Backed log (s.initMeta env.now env.now) := hs
  refine honest_append.mpr ⟨?_, runStages_honest (hi.mono fun _ => List.mem_append_left _)⟩
  rw [saves]
  split
  · trivial
  · exact ⟨fun t ht => (by cases ht; exact hi), trivial⟩

theorem startAt_deps {front rest : List Stage} (hw : WellFormed stages)
    (hst : stages = front ++ rest)
    (hf : ∀ st ∈ front, isSettled (s.stageStatus st.name) = true) :
    DepsSettled stages disk (startAt env false rest s).1 :=
  depsSettled_append.mpr ⟨depsSettled_of_began rfl, runStages_deps hw hst hf⟩

theorem startAt_finished (hd : (stages.map Stage.name).Nodup)
    (he : (startAt env false stages s).2 = .finished) :
    (∀ st ∈ stages, recorded (after disk (startAt env false stages s).1) st.name = .done) ∧
      ∀ n, n ∉ stages.map Stage.name →
        recorded (after disk (startAt env false stages s).1) n = s.stageStatus n := by
  have hs : ∀ n, recorded (some (s.initMeta env.now env.now)) n =
      (s.initMeta env.now env.now).stageStatus n := fun _ => rfl
  exact runStages_finished hd hs he

/-- The loop begins its first stage unless that is done, or it fails before. -/
theorem runStages_head {st : Stage} {rest : List Stage}
    (he : (runStages env false (st :: rest) s).2 ≠ .failed) :
    st.name ∈ began (runStages env false (st :: rest) s).1 ∨ s.stageStatus st.name = .done := by
  have hstep := @loopStep env false st rest s
  generalize runStages env false (st :: rest) s = r at hstep he
  cases hstep with
  | pass h => exact .inr (h.resolve_right (by simp))
  | refuse h hy hm => exact absurd rfl he
  | complete h hy hm ho => exact .inl (by simp [attempt_began])
  | stop h hy hm ho hs he' => exact .inl (by simp [attempt_began])

theorem runStages_ne_nothingToResume : (runStages env false stages s).2 ≠ .nothingToResume := by
  induction stages generalizing s with
  | nil => nofun
  | cons st rest ih =>
    have hstep := @loopStep env false st rest s
    generalize runStages env false (st :: rest) s = r at hstep
    cases hstep with
    | pass h => exact ih
    | refuse h hy hm => decide
    | complete h hy hm ho => exact ih
    | stop h hy hm ho hs he => obtain rfl | rfl := he <;> nofun

theorem began_take (k : ℕ) : began (es.take k) <+: began es := by
  rw [← List.take_append_drop k es, began_append]
  simp

theorem cut_began {r : List Event × Ending} : began (cut death r).1 <+: began r.1 := by
  cases death with
  | none => exact List.prefix_rfl
  | some k => exact began_take k

/-- A process that dies has no other end. -/
theorem cut_eq_of_ne {r : List Event × Ending} (h : (cut death r).2 ≠ .died) : cut death r = r := by
  cases death with
  | none => rfl
  | some k => exact absurd rfl h

theorem runPipeline_honest (hd : Backed log (disk.getD PipelineState.empty)) :
    Honest log (runPipeline stages o env disk).1 := by
  have hp := @runPipeline_plan stages o env disk
  generalize runPipeline stages o env disk = r at hp
  cases hp with
  | refuse h => trivial
  | nothing hs h => trivial
  | go i s' marks hm hdone hfront hstart hresume =>
    have hs' : Backed log s' := fun n hn => hd n ((hdone n).mp hn)
    refine honest_append.mpr ⟨?_, startAt_honest (hs'.mono fun _ => List.mem_append_left _)⟩
    obtain rfl | rfl := hm
    · trivial
    · rw [saves]
      split
      · trivial
      · exact ⟨fun t ht => (by cases ht; exact hs'), trivial⟩

theorem runPipeline_dry (hy : o.dryRun = true) : (runPipeline stages o env disk).1 = [] := by
  have hp := @runPipeline_plan stages o env disk
  generalize runPipeline stages o env disk = r at hp
  cases hp with
  | refuse h => rfl
  | nothing hs h => rfl
  | go i s' marks hm hdone hfront hstart hresume =>
    obtain rfl | rfl := hm <;> simp [hy, startAt_dry, saves]

theorem runPipeline_deps (hw : WellFormed stages) (hb : o.isBoth = false) :
    DepsSettled stages disk (runPipeline stages o env disk).1 := by
  cases hy : o.dryRun with
  | true =>
    rw [runPipeline_dry hy]
    trivial
  | false =>
    have hp := @runPipeline_plan stages o env disk
    generalize runPipeline stages o env disk = r at hp
    cases hp with
    | refuse h => trivial
    | nothing hs h => trivial
    | go i s' marks hm hdone hfront hstart hresume =>
      refine depsSettled_append.mpr ⟨depsSettled_of_began ?_, ?_⟩
      · obtain rfl | rfl := hm
        · rfl
        · simp [hy, saves]
      · rw [hy]
        exact startAt_deps hw (List.take_append_drop i stages).symm (hfront hb)

theorem validateStages_of_wellFormed (hw : WellFormed stages) : validateStages stages = true := by
  simp only [validateStages, List.all_eq_true, decide_eq_true_eq]
  intro st hst dep hdep
  obtain ⟨front, rest, rfl⟩ := List.append_of_mem hst
  rw [List.map_append]
  exact List.mem_append_left _ (hw.earlier _ _ _ rfl dep hdep)

/-- The stages that are not done from the start of a resumption on: the due ones, and the skipped
ones behind a due one. -/
theorem resumed_filter (hd : (stages.map Stage.name).Nodup) : ∃ again : Stage → Bool,
    (∀ st ∈ stages, again st = true → s.stageStatus st.name = .skippedTo ∧
      ∃ u, [u, st].Sublist stages ∧ isSettled (s.stageStatus u.name) = false) ∧
    (stages.drop (findResumeIndex stages s)).filter (fun st => s.stageStatus st.name ≠ .done) =
      stages.filter fun st => !isSettled (s.stageStatus st.name) || again st := by
  induction stages with
  | nil => exact ⟨fun _ => false, by simp, rfl⟩
  | cons st rest ih =>
    rw [List.map_cons, List.nodup_cons] at hd
    have hne : ∀ t ∈ rest, t.name ≠ st.name := fun t ht e => hd.1 (e ▸ List.mem_map_of_mem ht)
    cases hst : isSettled (s.stageStatus st.name) with
    | true =>
      obtain ⟨again, ha, he⟩ := ih hd.2
      refine ⟨fun t => decide (t.name ≠ st.name) && again t, fun t ht h => ?_, ?_⟩
      · rw [Bool.and_eq_true, decide_eq_true_eq] at h
        obtain rfl | ht := List.mem_cons.mp ht
        · exact absurd rfl h.1
        · obtain ⟨h₁, u, hu, h₂⟩ := ha t ht h.2
          exact ⟨h₁, u, hu.cons _, h₂⟩
      · have hi : findResumeIndex (st :: rest) s = findResumeIndex rest s + 1 := by
          simp [findResumeIndex, List.findIdx_cons, hst]
        rw [hi, List.drop_succ_cons, he, List.filter_cons_of_neg (by simp [hst])]
        exact List.filter_congr fun t ht => by simp [hne t ht]
    | false =>
      refine ⟨fun t => decide (t.name ≠ st.name ∧ s.stageStatus t.name = .skippedTo),
        fun t ht h => ?_, ?_⟩
      · rw [decide_eq_true_eq] at h
        obtain rfl | ht := List.mem_cons.mp ht
        · exact absurd rfl h.1
        · exact ⟨h.2, st, (List.singleton_sublist.mpr ht).cons_cons _, hst⟩
      · have hi : findResumeIndex (st :: rest) s = 0 := by
          simp [findResumeIndex, List.findIdx_cons, hst]
        rw [hi, List.drop_zero]
        refine List.filter_congr fun t ht => ?_
        by_cases hn : t.name = st.name
        · rw [hn]
          revert hst
          cases s.stageStatus st.name <;> simp [isSettled]
        · cases ht' : s.stageStatus t.name <;> simp [isSettled, hn, ht']

theorem runPipeline_resumes (hw : WellFormed stages) (hr : o.resume = true) (hs : o.start = none)
    (hy : o.dryRun = false) : ∃ again : Stage → Bool,
    (∀ st ∈ stages, again st = true → recorded disk st.name = .skippedTo ∧
      ∃ u, [u, st].Sublist stages ∧ isSettled (recorded disk u.name) = false) ∧
    began (runPipeline stages o env disk).1 =
      upToFailure env
        (stages.filter fun st => !isSettled (recorded disk st.name) || again st) := by
  have hp := @runPipeline_plan stages o env disk
  generalize runPipeline stages o env disk = r at hp
  cases hp with
  | refuse h => exact absurd hs (h (validateStages_of_wellFormed hw) hr)
  | nothing _ h =>
    refine ⟨fun _ => false, by simp, ?_⟩
    rw [List.filter_eq_nil_iff.mpr fun st hst => by simp [recorded, h st hst]]
    rfl
  | go i s' marks hm hdone hfront hstart hresume =>
    obtain ⟨rfl, rfl⟩ := hresume hr hs
    obtain ⟨again, ha, he⟩ := resumed_filter (s := disk.getD PipelineState.empty) hw.distinct
    refine ⟨again, ha, ?_⟩
    have hm' : began marks = [] := by
      obtain rfl | rfl := hm
      · rfl
      · simp [hy, saves]
    rw [began_append, hm', List.nil_append, hy, startAt_began (hw.distinct.sublist
      ((List.drop_sublist _ _).map _)), he]
    rfl

theorem runPipeline_startsFrom {name : String} (hs : o.start = some name)
    (he : (runPipeline stages o env disk).2 = .finished ∨
      (runPipeline stages o env disk).2 = .rebootRequired) :
    name ∈ began (runPipeline stages o env disk).1 ∨ recorded disk name = .done := by
  have hp := @runPipeline_plan stages o env disk
  generalize runPipeline stages o env disk = r at hp he
  cases hp with
  | refuse h => obtain he | he := he <;> cases he
  | nothing hs' h => rw [hs] at hs'; cases hs'
  | go i s' marks hm hdone hfront hstart hresume =>
    have hn := hstart name hs
    cases hr : stages.drop i with
    | nil => simp [hr] at hn
    | cons st rest =>
      obtain rfl : st.name = name := by simpa [hr] using hn
      rw [hr] at he
      cases hy : o.dryRun with
      | true => simp [hy, startAt_dry] at he
      | false =>
        rw [hy] at he
        have hf : (startAt env false (st :: rest) s').2 ≠ .failed := by
          obtain he | he := he <;> simp only at he <;> rw [he] <;> decide
        obtain h | h := runStages_head hf
        · refine .inl ?_
          rw [began_append, startAt, began_append]
          exact List.mem_append_right _ (List.mem_append_right _ h)
        · exact .inr ((hdone _).mp h)

theorem runPipeline_finishes (hw : WellFormed stages) (hb : o.isBoth = false)
    (he : (runPipeline stages o env disk).2 = .finished ∨
      (runPipeline stages o env disk).2 = .nothingToResume) : ∀ st ∈ stages,
    isSettled (recorded (after disk (runPipeline stages o env disk).1) st.name) = true := by
  have hp := @runPipeline_plan stages o env disk
  generalize runPipeline stages o env disk = r at hp he
  cases hp with
  | refuse h => obtain he | he := he <;> cases he
  | nothing _ h => exact h
  | go i s' marks hm hdone hfront hstart hresume =>
    cases hy : o.dryRun with
    | true => simp [hy, startAt_dry] at he
    | false =>
      rw [hy] at he
      have hf : (startAt env false (stages.drop i) s').2 = .finished :=
        he.resolve_right runStages_ne_nothingToResume
      have hd : ((stages.drop i).map Stage.name).Nodup :=
        hw.distinct.sublist ((List.drop_sublist _ _).map _)
      obtain ⟨h₁, h₂⟩ := @startAt_finished (stages.drop i) env (after disk marks) s' hd hf
      intro st hst
      rw [after_append]
      by_cases hn : st.name ∈ (stages.drop i).map Stage.name
      · obtain ⟨t, ht, hn⟩ := List.mem_map.mp hn
        rw [← hn, h₁ t ht]
        rfl
      · rw [h₂ _ hn]
        refine hfront hb st ?_
        rw [← List.take_append_drop i stages, List.mem_append] at hst
        exact hst.resolve_right fun h => hn (List.mem_map_of_mem h)

theorem callContract (hw : WellFormed stages) : CallContract stages disk o env death where
  settledDeps hb := by
    have h := @runPipeline_deps stages o env disk hw hb
    cases death with
    | none => exact h
    | some k => exact h.take k
  resumes hr hs hy := by
    obtain ⟨again, ha, he⟩ := @runPipeline_resumes stages o env disk hw hr hs hy
    refine ⟨again, ha, ?_, fun hd => ?_⟩
    · rw [← he]
      exact cut_began
    · subst hd
      exact he
  startsFrom name hs he := by
    have hc : pipelineTrace stages o env death disk = runPipeline stages o env disk :=
      cut_eq_of_ne fun h => by
        obtain he | he := he <;> exact absurd (h.symm.trans he) (by decide)
    rw [hc] at he ⊢
    exact runPipeline_startsFrom hs he
  previews hy n := by
    have h : (pipelineTrace stages o env death disk).1 = [] := by
      have h := @runPipeline_dry stages o env disk hy
      cases death with
      | none => exact h
      | some k => exact (congrArg (List.take k) h).trans List.take_nil
    rw [h, after_nil]
  finishes hb he := by
    have hc : pipelineTrace stages o env death disk = runPipeline stages o env disk :=
      cut_eq_of_ne fun h => by
        obtain he | he := he <;> exact absurd (h.symm.trans he) (by decide)
    rw [hc] at he ⊢
    exact runPipeline_finishes hw hb he

end Contract

/-! ## Runs -/

section Runs

variable {stages : List Stage} {w : World} {c : Call} {disk : Option PipelineState}
  {log : List Event} {env : Env} {st : Stage} {dryRun : Bool}

/-- A standalone run records its stage as done after it completed, if it tracks its status. -/
theorem runStageStandalone_honest (hd : Backed log (disk.getD PipelineState.empty)) :
    Honest log (runStageStandalone st dryRun env disk).1 := by
  rw [runStageStandalone]
  split
  · trivial
  dsimp only
  generalize hs : disk.getD PipelineState.empty = s at hd
  generalize hs₁ : (if !st.stateless then s.markRunning st.name env.now env.now else s) = s₁
  have hb : Backed log s₁ := by
    intro n hn
    subst hs₁
    split at hn
    · rw [stageStatus_markRunning] at hn
      split at hn
      · cases hn
      · exact hd n hn
    · exact hd n hn
  obtain ⟨hw, -⟩ := writeAll_honest (env.runs st.name).content hb
  have hh : Honest log ((if !st.stateless then [.saved s₁] else []) ++ [.began st.name] ++
      (writeAll s₁ (env.runs st.name).writes).2) := by
    refine honest_append.mpr ⟨honest_append.mpr ⟨?_, fun t ht => (by cases ht), trivial⟩,
      (writeAll_honest (env.runs st.name).content (hb.mono (by simp +contextual))).2⟩
    split
    · exact ⟨fun t ht => (by cases ht; exact hb), trivial⟩
    · trivial
  by_cases hc : (env.runs st.name).outcome.isCompleted = true
  · rw [if_pos hc]
    refine honest_append.mpr ⟨hh, fun t ht => (by cases ht), fun t ht n hn => ?_, trivial⟩
    cases ht
    split at hn
    · rw [stageStatus_markDone] at hn
      split at hn
      next e => simp [e]
      next => exact List.mem_append_left _ (List.mem_append_left _ (hw n hn))
    · rw [stageStatus_noteCompleted] at hn
      exact List.mem_append_left _ (List.mem_append_left _ (hw n hn))
  rw [if_neg hc]
  by_cases ht : (!st.stateless) = true
  · rw [if_pos ht]
    refine honest_append.mpr ⟨hh, fun t ht n hn => ?_, trivial⟩
    cases ht
    exact List.mem_append_left _ (hw n (done_of_markFailed hn))
  · rw [if_neg ht]
    exact hh

/-- What the disk says is done has completed. -/
def World.Sound (w : World) : Prop := Backed w.log (w.disk.getD PipelineState.empty)

theorem call_honest (hw : w.Sound) : Honest w.log (c.trace stages w.disk).1 := by
  cases c with
  | pipeline o env death =>
    have h := @runPipeline_honest stages o env w.disk w.log hw
    cases death with
    | none => exact h
    | some k => exact h.take k
  | standalone st dryRun env death =>
    have h := @runStageStandalone_honest w.disk w.log env st dryRun hw
    cases death with
    | none => exact h
    | some k => exact h.take k

theorem World.Sound.step (hw : w.Sound) : (w.step stages c).Sound := by
  have h := @call_honest stages w c hw
  intro n hn
  have hmem : ∀ s, (w.step stages c).disk = some s → Backed (w.step stages c).log s := fun s hs =>
    h.after (fun s hs n hn => hw n (by rwa [hs])) hs
  cases hd : (w.step stages c).disk with
  | none =>
    rw [hd] at hn
    cases hn
  | some s =>
    rw [hd] at hn
    exact hmem s hd n hn

theorem World.sound_run (calls : List Call) : (Run.run (World.step stages) {} calls).Sound := by
  have h₀ : World.Sound {} := fun n hn => (by cases hn)
  generalize ({} : World) = w at h₀
  induction calls generalizing w with
  | nil => exact h₀
  | cons c calls ih => exact ih _ h₀.step

/-- **Calls over one state dir**: whatever calls were made before and wherever their processes
died, a stage is recorded as done only after its run completed, and the next call keeps its
contract. -/
theorem calls_contract (hw : WellFormed stages) (calls : List Call) :
    (∀ n, recorded (Run.run (World.step stages) {} calls).disk n = .done →
      .completed n ∈ (Run.run (World.step stages) {} calls).log) ∧
    ∀ o env death,
      CallContract stages (Run.run (World.step stages) {} calls).disk o env death :=
  ⟨World.sound_run calls, fun _ _ _ => callContract hw⟩

end Runs

/-! ## Three stages -/

/-- Stages `a`, `b` and `c`, each behind the one before. -/
def abc : List Stage := [⟨"a", [], false, false⟩, ⟨"b", ["a"], false, false⟩,
  ⟨"c", ["b"], false, false⟩]

theorem wellFormed_abc : WellFormed abc where
  distinct := by decide
  earlier front st rest h dep hdep := by
    match front with
    | [] =>
      simp only [abc, List.nil_append, List.cons.injEq] at h
      simp [← h.1] at hdep
    | [_] =>
      simp only [abc, List.cons_append, List.nil_append, List.cons.injEq] at h
      simpa [← h.1, ← h.2.1] using hdep
    | [_, _] =>
      simp only [abc, List.cons_append, List.nil_append, List.cons.injEq] at h
      rw [← h.2.2.1, List.mem_singleton] at hdep
      simp [← h.2.1, hdep]
    | _ :: _ :: _ :: _ => simp [abc] at h

/-- Every stage run completes. -/
def allComplete : Env where
  runs _ := { outcome := .completed, content := by simp }

/-- Every stage run raises. -/
def allRaise : Env where
  runs _ := { outcome := .raised ⟨"RuntimeError", true, "stopped"⟩, content := by simp }

/-- After a start from `c`, which skips `a` and `b`, and a run of `a` on its own that fails. -/
def skippedBehindFailed : World :=
  Run.run (World.step abc) {} [.pipeline { startFrom := some "c" } allComplete none,
    .standalone ⟨"a", [], false, false⟩ false allRaise none]

/-- Every stage done. -/
def allDone : World := Run.run (World.step abc) {} [.pipeline {} allComplete none]

theorem calls_contract_abc : WellFormed abc ∧
    (∀ n, recorded skippedBehindFailed.disk n = .done →
      .completed n ∈ skippedBehindFailed.log) ∧
    ∀ o env death, CallContract abc skippedBehindFailed.disk o env death :=
  ⟨wellFormed_abc, calls_contract wellFormed_abc _⟩

/-- A start from `b` next to `--resume` begins `b` with `a` pending; a start from a stage that is
done finishes without running it; a resumption runs a skipped stage behind a failed one again. -/
theorem calls_contract_not_strict :
    ¬DepsSettled abc none
      (runPipeline abc { resume := true, startFrom := some "b" } allComplete none).1 ∧
    (runPipeline abc { startFrom := some "b" } allComplete allDone.disk).2 = .finished ∧
    "b" ∉ began (runPipeline abc { startFrom := some "b" } allComplete allDone.disk).1 ∧
    recorded skippedBehindFailed.disk "b" = .skippedTo ∧
    began (runPipeline abc { resume := true } allComplete skippedBehindFailed.disk).1 =
      ["a", "b"] := by
  refine ⟨fun h => ?_, by decide, by decide, by decide,
    by decide⟩
  have hb := h.2.2.2.1 ⟨"b", ["a"], false, false⟩ (by simp [abc]) rfl "a" (by simp)
  exact absurd hb (by decide)

end Sysforge.Pipeline
