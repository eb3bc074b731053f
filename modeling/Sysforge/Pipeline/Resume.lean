import Sysforge.Pipeline.Runner

/-!
# What calls over one state dir keep

The statuses on disk follow the stage runs: `Honest` says that no save records a stage as done
before its run completed, `DepsSettled` that no stage begins next to an unsettled dependency, and
the trace of the loop is computed from the statuses it starts with (`runStages_began`). The loop
skips only stages that are done; the start of a `--resume` also passes skipped ones, and a
`--start-from` with `--resume` marks nothing.
-/

namespace Sysforge.Pipeline

open PipelineState (Status Op)

/-! ## Statuses -/

section Status

variable {s : PipelineState} {name n now later : String}

theorem stageStatus_setStage {st : PipelineState.Stage} :
    (s.setStage name st later).stageStatus n =
      if n = name then st.status.getD .pending else s.stageStatus n := by
  simp only [PipelineState.stageStatus, PipelineState.stage, PipelineState.setStage,
    PipelineState.touch, Dict.get_set]
  split <;> rfl

@[simp] theorem stageStatus_initMeta : (s.initMeta now later).stageStatus n = s.stageStatus n := rfl

@[simp] theorem stageStatus_markRunning :
    (s.markRunning name now later).stageStatus n = if n = name then .running else s.stageStatus n :=
  stageStatus_setStage

@[simp] theorem stageStatus_markDone :
    (s.markDone name now later).stageStatus n = if n = name then .done else s.stageStatus n :=
  stageStatus_setStage

@[simp] theorem stageStatus_markFailed {error : String} :
    (s.markFailed name error now later).stageStatus n =
      if n = name then .failed else s.stageStatus n :=
  stageStatus_setStage

@[simp] theorem stageStatus_markSkippedTo :
    (s.markSkippedTo name later).stageStatus n =
      if n = name then .skippedTo else s.stageStatus n :=
  stageStatus_setStage

@[simp] theorem stageStatus_noteCompleted :
    (s.noteCompleted name now later).stageStatus n = s.stageStatus n := by
  rw [PipelineState.noteCompleted, stageStatus_setStage]
  split
  next h => rw [h]; rfl
  next => rfl

/-- A write of a stage changes no status but its own, and that only from unset to running. -/
theorem stageStatus_step {op : Op} (h : isContent name op = true) :
    (s.step op).stageStatus n = s.stageStatus n ∨
      n = name ∧ s.stageStatus n = .pending ∧ (s.step op).stageStatus n = .running := by
  have hp : ∀ (st : PipelineState.Stage) (later : String), name = "packages" →
      st.status = some ((s.stage "packages").status.getD .running) →
      (s.setStage "packages" st later).stageStatus n = s.stageStatus n ∨
        n = name ∧ s.stageStatus n = .pending ∧
          (s.setStage "packages" st later).stageStatus n = .running := by
    intro st later hname hst
    rw [stageStatus_setStage, hst, hname]
    split
    next hn =>
      subst hn
      rw [PipelineState.stageStatus]
      cases (s.stage "packages").status with
      | none => exact .inr ⟨rfl, rfl, rfl⟩
      | some x => exact .inl rfl
    next => exact .inl rfl
  cases op with
  | setStageResult stage result later =>
    refine .inl ?_
    show (s.setStage _ _ _).stageStatus n = _
    rw [stageStatus_setStage]
    split
    next hn => rw [hn]; rfl
    next => rfl
  | initPackageList names later => exact hp _ _ (by simpa [isContent] using h) rfl
  | markPackageBuilding p later => exact hp _ _ (by simpa [isContent] using h) rfl
  | markPackageBuilt p later => exact hp _ _ (by simpa [isContent] using h) rfl
  | markPackageFailed p error later => exact hp _ _ (by simpa [isContent] using h) rfl
  | markPackageSkipped p later => exact hp _ _ (by simpa [isContent] using h) rfl
  | _ => cases h

/-- No write of a stage records anything as done. -/
theorem done_of_step {op : Op} (h : isContent name op = true)
    (hd : (s.step op).stageStatus n = .done) : s.stageStatus n = .done := by
  obtain he | ⟨-, -, he⟩ := @stageStatus_step s name n op h
  · rwa [← he]
  · rw [hd] at he
    cases he

/-- The writes of a running stage change no status. -/
theorem stageStatus_step_of_ne {op : Op} (h : isContent name op = true)
    (hr : s.stageStatus name ≠ .pending) : (s.step op).stageStatus n = s.stageStatus n := by
  obtain he | ⟨rfl, he, -⟩ := @stageStatus_step s name n op h
  · exact he
  · exact absurd he hr

end Status

/-! ## Traces -/

section Traces

variable {stages : List Stage} {disk : Option PipelineState} {es : List Event} {log : List Event}
  {s : PipelineState} {name n : String}

/-- The stages a trace begins, in order. -/
def began (es : List Event) : List String :=
  es.filterMap fun e => match e with
    | .began n => some n
    | _ => none

@[simp] theorem began_nil : began [] = [] := rfl

@[simp] theorem began_saved : began (.saved s :: es) = began es := rfl

@[simp] theorem began_began : began (.began n :: es) = n :: began es := rfl

@[simp] theorem began_completed : began (.completed n :: es) = began es := rfl

@[simp] theorem began_append {es' : List Event} : began (es ++ es') = began es ++ began es' :=
  List.filterMap_append

/-- The saved state after a trace. -/
def after (disk : Option PipelineState) (es : List Event) : Option PipelineState :=
  es.foldl Event.apply disk

@[simp] theorem after_nil : after disk [] = disk := rfl

@[simp] theorem after_saved : after disk (.saved s :: es) = after (some s) es := rfl

@[simp] theorem after_began : after disk (.began n :: es) = after disk es := rfl

@[simp] theorem after_completed : after disk (.completed n :: es) = after disk es := rfl

@[simp] theorem after_append {es' : List Event} :
    after disk (es ++ es') = after (after disk es) es' :=
  List.foldl_append

@[simp] theorem recorded_some : recorded (some s) n = s.stageStatus n := rfl

/-- Whatever the state says is done has completed. -/
def Backed (log : List Event) (s : PipelineState) : Prop :=
  ∀ n, s.stageStatus n = .done → .completed n ∈ log

/-- Every save of the trace is backed by what happened before it. -/
def Honest (log : List Event) : List Event → Prop
  | [] => True
  | e :: es => (∀ s, e = .saved s → Backed log s) ∧ Honest (log ++ [e]) es

/-- Whenever the trace begins a stage, its dependencies are recorded as done or skipped. -/
def DepsSettled (stages : List Stage) (disk : Option PipelineState) : List Event → Prop
  | [] => True
  | e :: es =>
    (∀ st ∈ stages, e = .began st.name →
      ∀ dep ∈ st.dependsOn, isSettled (recorded disk dep) = true) ∧
    DepsSettled stages (e.apply disk) es

theorem Backed.mono {log' : List Event} (h : Backed log s) (hl : ∀ e ∈ log, e ∈ log') :
    Backed log' s :=
  fun n hn => hl _ (h n hn)

theorem honest_append {es' : List Event} :
    Honest log (es ++ es') ↔ Honest log es ∧ Honest (log ++ es) es' := by
  induction es generalizing log with
  | nil => simp [Honest]
  | cons e es ih => simp [Honest, ih, and_assoc]

theorem depsSettled_append {es' : List Event} : DepsSettled stages disk (es ++ es') ↔
    DepsSettled stages disk es ∧ DepsSettled stages (after disk es) es' := by
  induction es generalizing disk with
  | nil => simp [DepsSettled]
  | cons e es ih =>
    simp only [List.cons_append, DepsSettled, ih, and_assoc]
    rfl

theorem Honest.take (h : Honest log es) (k : ℕ) : Honest log (es.take k) := by
  rw [← List.take_append_drop k es, honest_append] at h
  exact h.1

theorem DepsSettled.take (h : DepsSettled stages disk es) (k : ℕ) :
    DepsSettled stages disk (es.take k) := by
  rw [← List.take_append_drop k es, depsSettled_append] at h
  exact h.1

/-- The state an honest trace leaves on disk is backed by it. -/
theorem Honest.after (h : Honest log es) (hd : ∀ s, disk = some s → Backed log s)
    (hs : Pipeline.after disk es = some s) : Backed (log ++ es) s := by
  induction es generalizing log disk with
  | nil =>
    rw [List.append_nil]
    exact hd s hs
  | cons e es ih =>
    have hd' : ∀ s, e.apply disk = some s → Backed (log ++ [e]) s := by
      intro s hs
      cases e with
      | saved s' =>
        cases hs
        exact (h.1 _ rfl).mono fun _ => List.mem_append_left _
      | began _ | completed _ => exact (hd s hs).mono fun _ => List.mem_append_left _
    have := ih h.2 hd' hs
    rwa [List.append_assoc] at this

/-- Only saves: what a trace without stage runs is made of. -/
theorem depsSettled_of_began (h : began es = []) : DepsSettled stages disk es := by
  induction es generalizing disk with
  | nil => trivial
  | cons e es ih =>
    cases e with
    | began n => cases h
    | saved s => exact ⟨fun st _ he => (by cases he), ih h⟩
    | completed n => exact ⟨fun st _ he => (by cases he), ih h⟩

end Traces

/-! ## The writes of a stage run -/

section Writes

variable {s : PipelineState} {name n : String} {ws : List (Op × Bool)} {log : List Event}
  {disk : Option PipelineState}

theorem began_writeAll : began (writeAll s ws).2 = [] := by
  induction ws generalizing s with
  | nil => rfl
  | cons w ws ih =>
    simp only [writeAll, began_append, ih, List.append_nil]
    split <;> rfl

/-- The writes of a running stage change no status, in memory or on disk. -/
theorem writeAll_status (hw : ∀ w ∈ ws, isContent name w.1 = true)
    (hr : s.stageStatus name ≠ .pending) (hd : ∀ n, recorded disk n = s.stageStatus n) :
    (∀ n, (writeAll s ws).1.stageStatus n = s.stageStatus n) ∧
      ∀ n, recorded (after disk (writeAll s ws).2) n = s.stageStatus n := by
  induction ws generalizing s disk with
  | nil => exact ⟨fun _ => rfl, hd⟩
  | cons w ws ih =>
    have hs : ∀ n, (s.step w.1).stageStatus n = s.stageStatus n := fun n =>
      stageStatus_step_of_ne (hw w List.mem_cons_self) hr
    have hd' : ∀ n, recorded (after disk (if w.2 then [.saved (s.step w.1)] else [])) n =
        (s.step w.1).stageStatus n := by
      intro n
      split
      · rfl
      · rw [after_nil, hd, hs]
    obtain ⟨ih₁, ih₂⟩ := ih (fun w hm => hw w (List.mem_cons_of_mem _ hm)) (by rwa [hs]) hd'
    simp only [writeAll, after_append]
    exact ⟨fun n => (ih₁ n).trans (hs n), fun n => (ih₂ n).trans (hs n)⟩

/-- The writes of a stage leave its state backed and save no other. -/
theorem writeAll_honest (hw : ∀ w ∈ ws, isContent name w.1 = true) (hs : Backed log s) :
    Backed log (writeAll s ws).1 ∧ Honest log (writeAll s ws).2 := by
  induction ws generalizing s log with
  | nil => exact ⟨hs, trivial⟩
  | cons w ws ih =>
    have hs' : Backed log (s.step w.1) := fun n hn =>
      hs n (done_of_step (hw w List.mem_cons_self) hn)
    have hw' := fun w hm => hw w (List.mem_cons_of_mem _ hm)
    simp only [writeAll]
    refine ⟨(ih hw' hs').1, honest_append.mpr ⟨?_, ?_⟩⟩
    · split
      · exact ⟨fun t ht => (by cases ht; exact hs'), trivial⟩
      · trivial
    · exact (ih hw' (hs'.mono fun _ => List.mem_append_left _)).2

end Writes

/-! ## One stage run of the loop -/

section Attempt

variable {env : Env} {dryRun : Bool} {st : Stage} {rest stages : List Stage} {s : PipelineState}
  {log : List Event} {disk : Option PipelineState} {n : String}

/-- A stage run of the loop up to its end: the state then, and the trace. -/
def attempt (env : Env) (st : Stage) (s : PipelineState) : PipelineState × List Event :=
  let w := writeAll (s.markRunning st.name env.now env.now) (env.runs st.name).writes
  (w.1, [.saved (s.markRunning st.name env.now env.now), .began st.name] ++ w.2)

/-- The state of a stage run that completed. -/
def finish (env : Env) (st : Stage) (s : PipelineState) : PipelineState :=
  (attempt env st s).1.markDone st.name env.now env.now

/-- What the loop does with the stage `st` before `rest`. -/
inductive LoopStep (env : Env) (dryRun : Bool) (st : Stage) (rest : List Stage)
    (s : PipelineState) : List Event × Ending → Prop
  /-- A stage that is done is passed, and so is every stage of a dry run. -/
  | pass (h : s.stageStatus st.name = .done ∨ dryRun = true) :
      LoopStep env dryRun st rest s (runStages env dryRun rest s)
  /-- A root user may not build packages. -/
  | refuse (hd : s.stageStatus st.name ≠ .done) (hy : dryRun = false)
      (hm : (st.makepkgBearing && env.isRoot) = true) :
      LoopStep env dryRun st rest s ([], .failed)
  | complete (hd : s.stageStatus st.name ≠ .done) (hy : dryRun = false)
      (hm : (st.makepkgBearing && env.isRoot) = false)
      (ho : (env.runs st.name).outcome.isCompleted = true) :
      LoopStep env dryRun st rest s
        ((attempt env st s).2 ++ ([.completed st.name, .saved (finish env st s)] ++
          (runStages env dryRun rest (finish env st s)).1),
          (runStages env dryRun rest (finish env st s)).2)
  | stop (hd : s.stageStatus st.name ≠ .done) (hy : dryRun = false)
      (hm : (st.makepkgBearing && env.isRoot) = false)
      (ho : (env.runs st.name).outcome.isCompleted = false) {s' : PipelineState} {ending : Ending}
      (hs : ∀ n, s'.stageStatus n = .done → (attempt env st s).1.stageStatus n = .done)
      (he : ending = .failed ∨ ending = .rebootRequired) :
      LoopStep env dryRun st rest s ((attempt env st s).2 ++ [.saved s'], ending)

theorem done_of_markFailed {text now later name : String}
    (h : (s.markFailed name text now later).stageStatus n = .done) : s.stageStatus n = .done := by
  rw [stageStatus_markFailed] at h
  split at h
  · cases h
  · exact h

theorem loopStep : LoopStep env dryRun st rest s (runStages env dryRun (st :: rest) s) := by
  rw [runStages]
  split
  next hd => exact .pass (.inl hd)
  next hd =>
    split
    next hy => exact .pass (.inr hy)
    next hy =>
      rw [Bool.not_eq_true] at hy
      split
      next hm => exact .refuse hd hy hm
      next hm =>
        rw [Bool.not_eq_true] at hm
        cases ho : (env.runs st.name).outcome with
        | completed =>
          simp only [ho]
          rw [List.append_assoc]
          exact .complete hd hy hm (by rw [ho]; rfl)
        | notImplemented text =>
          simp only [ho]
          exact .stop hd hy hm (by rw [ho]; rfl) (fun _ => done_of_markFailed) (.inl rfl)
        | rebootRequired text =>
          simp only [ho]
          exact .stop hd hy hm (by rw [ho]; rfl) (fun _ h => h) (.inr rfl)
        | raised e =>
          simp only [ho]
          exact .stop hd hy hm (by rw [ho]; rfl) (fun _ => done_of_markFailed) (.inl rfl)

theorem attempt_writes :
    (∀ n, (attempt env st s).1.stageStatus n =
      (s.markRunning st.name env.now env.now).stageStatus n) ∧
    ∀ n, recorded (after (some (s.markRunning st.name env.now env.now))
      (writeAll (s.markRunning st.name env.now env.now) (env.runs st.name).writes).2) n =
        (s.markRunning st.name env.now env.now).stageStatus n :=
  writeAll_status (env.runs st.name).content (by simp) fun _ => rfl

theorem attempt_status : (attempt env st s).1.stageStatus n =
    if n = st.name then .running else s.stageStatus n := by
  rw [attempt_writes.1, stageStatus_markRunning]

theorem attempt_began : began (attempt env st s).2 = [st.name] := by
  simp [attempt, began_writeAll]

theorem attempt_honest (hs : Backed log s) :
    Backed log (attempt env st s).1 ∧ Honest log (attempt env st s).2 := by
  have hr : Backed log (s.markRunning st.name env.now env.now) := by
    intro n hn
    rw [stageStatus_markRunning] at hn
    split at hn
    · cases hn
    · exact hs n hn
  have h := fun l (hl : ∀ e ∈ log, e ∈ l) => writeAll_honest (env.runs st.name).content (hr.mono hl)
  refine ⟨(h log fun _ h => h).1, fun t ht => by cases ht; exact hr, fun t ht => (by cases ht), ?_⟩
  exact (h _ (by simp +contextual)).2

/-- The stage begins right after its status is saved. -/
theorem attempt_deps (hdeps : ∀ t ∈ stages, t.name = st.name → ∀ dep ∈ t.dependsOn,
      dep ≠ st.name ∧ isSettled (s.stageStatus dep) = true) :
    DepsSettled stages disk (attempt env st s).2 := by
  refine ⟨fun t _ he => (by cases he), fun t ht he dep hdep => ?_, ?_⟩
  · obtain ⟨hne, hd⟩ := hdeps t ht (Event.began.inj he).symm dep hdep
    show isSettled ((s.markRunning st.name env.now env.now).stageStatus dep) = true
    rwa [stageStatus_markRunning, if_neg hne]
  · exact depsSettled_of_began began_writeAll

theorem finish_status : (finish env st s).stageStatus n =
    if n = st.name then .done else s.stageStatus n := by
  rw [finish, stageStatus_markDone, attempt_status]
  split <;> rfl

end Attempt

/-! ## The loop -/

section Loop

variable {env : Env} {dryRun : Bool} {rest stages front : List Stage} {s : PipelineState}
  {log : List Event} {disk : Option PipelineState} {n : String}

/-- A stage list with distinct names in which stages depend on earlier ones. -/
structure WellFormed (stages : List Stage) : Prop where
  distinct : (stages.map Stage.name).Nodup
  earlier : ∀ pre st post, stages = pre ++ st :: post →
    ∀ dep ∈ st.dependsOn, dep ∈ pre.map Stage.name

/-- The stages that begin when these are run in order up to the first that does not complete; a
root user stops before a stage that builds packages. -/
def upToFailure (env : Env) : List Stage → List String
  | [] => []
  | st :: rest =>
    if st.makepkgBearing && env.isRoot then []
    else if (env.runs st.name).outcome.isCompleted then st.name :: upToFailure env rest
    else [st.name]

/-- The loop runs the stages that are not done when it starts. -/
theorem runStages_began (hd : (rest.map Stage.name).Nodup) :
    began (runStages env false rest s).1 =
      upToFailure env (rest.filter fun st => s.stageStatus st.name ≠ .done) := by
  induction rest generalizing s with
  | nil => rfl
  | cons st rest ih =>
    have hstep := @loopStep env false st rest s
    generalize runStages env false (st :: rest) s = r at hstep
    rw [List.map_cons, List.nodup_cons] at hd
    cases hstep with
    | pass h =>
      rw [List.filter_cons_of_neg (by simpa using h), ih hd.2]
    | refuse h hy hm =>
      rw [List.filter_cons_of_pos (by simpa using h), upToFailure, if_pos hm]
      rfl
    | complete h hy hm ho =>
      rw [List.filter_cons_of_pos (by simpa using h), upToFailure, if_neg (by simp [hm]), if_pos ho]
      simp only [began_append, attempt_began, began_completed, began_saved, began_nil,
        List.nil_append, List.singleton_append, ih hd.2]
      congr 2
      refine List.filter_congr fun t ht => ?_
      have hne : t.name ≠ st.name := fun e => hd.1 (e ▸ List.mem_map_of_mem ht)
      rw [finish_status, if_neg hne]
    | stop h hy hm ho hs he =>
      rw [List.filter_cons_of_pos (by simpa using h), upToFailure, if_neg (by simp [hm]),
        if_neg (by simp [ho])]
      simp [attempt_began]

/-- The loop records no stage as done before its run completed. -/
theorem runStages_honest (hs : Backed log s) : Honest log (runStages env dryRun rest s).1 := by
  induction rest generalizing s log with
  | nil => trivial
  | cons st rest ih =>
    have hstep := @loopStep env dryRun st rest s
    generalize runStages env dryRun (st :: rest) s = r at hstep
    obtain ⟨hw, hh⟩ := @attempt_honest env st s log hs
    cases hstep with
    | pass h => exact ih hs
    | refuse h hy hm => trivial
    | complete h hy hm ho =>
      have hf : ∀ l : List Event, (∀ e ∈ log, e ∈ l) → .completed st.name ∈ l →
          Backed l (finish env st s) := by
        intro l hl hc n hn
        rw [finish_status] at hn
        split at hn
        next e => rwa [e]
        next => exact hl _ (hs n hn)
      refine honest_append.mpr ⟨hh, fun t ht => (by cases ht), fun t ht => ?_, ?_⟩
      · cases ht
        exact hf _ (by simp +contextual) (by simp)
      · exact ih (hf _ (by simp +contextual) (by simp))
    | stop h hy hm ho hs' he =>
      refine honest_append.mpr ⟨hh, fun t ht => ?_, trivial⟩
      cases ht
      exact fun n hn => List.mem_append_left _ (hw n (hs' n hn))

/-- In the loop each stage begins next to settled stages. -/
theorem runStages_deps (hw : WellFormed stages) (hst : stages = front ++ rest)
    (hf : ∀ st ∈ front, isSettled (s.stageStatus st.name) = true) :
    DepsSettled stages disk (runStages env false rest s).1 := by
  induction rest generalizing s front disk with
  | nil => trivial
  | cons st rest ih =>
    have hstep := @loopStep env false st rest s
    generalize runStages env false (st :: rest) s = r at hstep
    have hst' : stages = (front ++ [st]) ++ rest := by simpa using hst
    have hne : ∀ t ∈ front, t.name ≠ st.name := by
      have hd := hw.distinct
      rw [hst, List.map_append, List.map_cons, List.nodup_append] at hd
      exact fun t ht => hd.2.2 _ (List.mem_map_of_mem ht) _ List.mem_cons_self
    have hdeps : ∀ t ∈ stages, t.name = st.name → ∀ dep ∈ t.dependsOn,
        dep ≠ st.name ∧ isSettled (s.stageStatus dep) = true := by
      intro t ht he dep hdep
      have hmem : st ∈ stages := by simp [hst]
      obtain rfl : t = st := List.inj_on_of_nodup_map hw.distinct ht hmem he
      obtain ⟨u, hu, rfl⟩ := List.mem_map.mp (hw.earlier _ _ _ hst dep hdep)
      exact ⟨hne u hu, hf u hu⟩
    cases hstep with
    | pass h =>
      refine ih hst' fun t ht => ?_
      rcases List.mem_append.mp ht with ht | ht
      · exact hf t ht
      · rw [List.mem_singleton.mp ht, h.resolve_right (by simp)]
        rfl
    | refuse h hy hm => trivial
    | complete h hy hm ho =>
      refine depsSettled_append.mpr ⟨attempt_deps hdeps, fun t _ ht => (by cases ht),
        fun t _ ht => (by cases ht), ih hst' fun t ht => ?_⟩
      rw [finish_status]
      split
      · rfl
      next e =>
        rcases List.mem_append.mp ht with ht | ht
        · exact hf t ht
        · exact absurd (by rw [List.mem_singleton.mp ht]) e
    | stop h hy hm ho hs' he =>
      exact depsSettled_append.mpr ⟨attempt_deps hdeps, fun t _ ht => (by cases ht), trivial⟩

/-- A loop that finishes leaves its stages done and the others as they were. -/
theorem runStages_finished (hd : (rest.map Stage.name).Nodup)
    (hs : ∀ n, recorded disk n = s.stageStatus n)
    (he : (runStages env false rest s).2 = .finished) :
    (∀ st ∈ rest, recorded (after disk (runStages env false rest s).1) st.name = .done) ∧
      ∀ n, n ∉ rest.map Stage.name →
        recorded (after disk (runStages env false rest s).1) n = s.stageStatus n := by
  induction rest generalizing s disk with
  | nil => exact ⟨fun st h => (by cases h), fun n _ => hs n⟩
  | cons st rest ih =>
    have hstep := @loopStep env false st rest s
    generalize runStages env false (st :: rest) s = r at hstep he
    rw [List.map_cons, List.nodup_cons] at hd
    cases hstep with
    | pass h =>
      obtain ⟨ih₁, ih₂⟩ := ih hd.2 hs he
      refine ⟨fun t ht => ?_, fun n hn => ih₂ n fun h => hn (List.mem_cons_of_mem _ h)⟩
      obtain rfl | ht := List.mem_cons.mp ht
      · rw [ih₂ _ hd.1, h.resolve_right (by simp)]
      · exact ih₁ t ht
    | refuse h hy hm => cases he
    | complete h hy hm ho =>
      simp only [after_append, after_completed, after_saved, after_nil]
      have hf : ∀ n, recorded (some (finish env st s)) n = (finish env st s).stageStatus n :=
        fun _ => rfl
      obtain ⟨ih₁, ih₂⟩ := ih hd.2 hf he
      refine ⟨fun t ht => ?_, fun n hn => ?_⟩
      · obtain rfl | ht := List.mem_cons.mp ht
        · rw [ih₂ _ hd.1, finish_status, if_pos rfl]
        · exact ih₁ t ht
      · rw [List.map_cons, List.mem_cons, not_or] at hn
        rw [ih₂ n hn.2, finish_status, if_neg hn.1]
    | stop h hy hm ho hs' he' =>
      obtain rfl | rfl := he' <;> cases he

/-- A dry run of the loop does nothing. -/
theorem runStages_dry : runStages env true rest s = ([], .previewed) := by
  induction rest with
  | nil => rfl
  | cons st rest ih => simp [runStages, ih]

end Loop

end Sysforge.Pipeline
