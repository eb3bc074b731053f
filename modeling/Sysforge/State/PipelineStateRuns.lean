import Sysforge.State.PipelineStateRoundTrip

/-!
# Runs that survive the checkpoint

`Op.Admissible` says what the pipeline gives: clock readings, package names over pacman's alphabet
and results for stages that have a status. `Op.Encodable` says when a call writes only bare keys
where the file has them and no boolean result. `clean_step` is the step lemma and
`checkpoint_roundTrips` the run; a package named `gtk+` or a boolean result makes the checkpoint
unreadable.
-/

namespace Sysforge.PipelineState

open Toml

/-- A name over pacman's alphabet `[a-z0-9@._+-]`. -/
def IsPackageName (n : String) : Prop :=
  ∀ c ∈ n.toList, c.isLower = true ∨ c.isDigit = true ∨ c ∈ ['@', '.', '_', '+', '-']

instance (n : String) : Decidable (IsPackageName n) := List.decidableBAll _ n.toList

/-- What the pipeline gives: clock readings, package names, and results for stages with a status. -/
def Op.Admissible (s : PipelineState) : Op → Prop
  | .initMeta now later => IsTimestamp now ∧ IsTimestamp later
  | .markRunning _ now later => IsTimestamp now ∧ IsTimestamp later
  | .markDone _ now later => IsTimestamp now ∧ IsTimestamp later
  | .markFailed _ _ now later => IsTimestamp now ∧ IsTimestamp later
  | .markSkippedTo _ later => IsTimestamp later
  | .noteCompleted _ now later => IsTimestamp now ∧ IsTimestamp later
  | .initPackageList names later => (∀ n ∈ names, IsPackageName n) ∧ IsTimestamp later
  | .markPackageBuilding name later => IsPackageName name ∧ IsTimestamp later
  | .markPackageBuilt name later => IsPackageName name ∧ IsTimestamp later
  | .markPackageFailed name _ later => IsPackageName name ∧ IsTimestamp later
  | .markPackageSkipped name later => IsPackageName name ∧ IsTimestamp later
  | .setStageResult name _ later => (s.stage name).status.isSome ∧ IsTimestamp later

instance (s : PipelineState) (op : Op) : Decidable (op.Admissible s) := by
  cases op <;> unfold Op.Admissible <;> infer_instance

/-- A call after which every name written bare is a bare key and no result is a boolean. -/
def Op.Encodable : Op → Prop
  | .markRunning name _ _ => IsBare name.toList
  | .markDone name _ _ => IsBare name.toList
  | .markFailed name _ _ _ => IsBare name.toList
  | .markSkippedTo name _ => IsBare name.toList
  | .noteCompleted name _ _ => IsBare name.toList
  | .markPackageFailed name _ _ => IsBare name.toList
  | .setStageResult name result _ =>
    IsBare name.toList ∧ ∀ p ∈ result.items, IsBare p.1.toList ∧ ∀ b, p.2 ≠ .bool b
  | _ => True

instance (op : Op) : Decidable op.Encodable := by
  cases op <;> unfold Op.Encodable <;> infer_instance

/-! ## What is plain -/

theorem plainOk_of_timestamp {v : String} (h : IsTimestamp v) : PlainOk v := fun c hc => by
  rcases h c hc with hd | rfl | rfl | rfl | rfl
  · refine ⟨isLegal_of_isAlphanum (by simp [Char.isAlphanum, hd]), ?_, ?_, ?_⟩ <;>
      (rintro rfl; cases hd)
  all_goals decide

theorem plainOk_of_packageName {v : String} (h : IsPackageName v) : PlainOk v := fun c hc => by
  rcases h c hc with hl | hd | hm
  · have ha : ((c.isUpper || c.isLower) || c.isDigit) = true := by simp [hl]
    refine ⟨isLegal_of_isAlphanum ha, ?_, ?_, ?_⟩ <;> (rintro rfl; cases hl)
  · refine ⟨isLegal_of_isAlphanum (by simp [Char.isAlphanum, hd]), ?_, ?_, ?_⟩ <;>
      (rintro rfl; cases hd)
  · simp only [List.mem_cons, List.not_mem_nil, or_false] at hm
    rcases hm with rfl | rfl | rfl | rfl | rfl <;> decide

theorem optPlain_none : OptPlain none := fun _ h => by cases h

theorem optPlain_some {v : String} (h : PlainOk v) : OptPlain (some v) := fun _ hv => by
  cases hv
  exact h

theorem optPlain_getD {o : Option String} {now : String} (h : OptPlain o) (hn : PlainOk now) :
    OptPlain (some (o.getD now)) := by
  cases o with
  | none => exact optPlain_some hn
  | some v => exact optPlain_some (h v rfl)

/-! ## The step lemma -/

variable {s : PipelineState}

theorem clean_empty : Clean empty where
  startedAt := optPlain_none
  lastUpdated := optPlain_none
  stages _ _ h := by cases h

theorem stageOk_empty : StageOk {} where
  startedAt := optPlain_none
  completedAt := optPlain_none
  firstDoneAt := optPlain_none
  progress _ h := by cases h
  errors _ h := by cases h
  result _ _ h := by cases h

theorem stageOk_stage (h : Clean s) (name : String) : StageOk (s.stage name) := by
  rw [stage]
  cases hg : s.stages.get name with
  | none => exact stageOk_empty
  | some st => exact (h.stages name st hg).2.2

theorem Clean.setStage (h : Clean s) {name later : String} {st : Stage} (hn : IsBare name.toList)
    (hw : st.isWritten) (hst : StageOk st) (hl : IsTimestamp later) :
    Clean (s.setStage name st later) where
  startedAt := h.startedAt
  lastUpdated := optPlain_some (plainOk_of_timestamp hl)
  stages n st' hg := by
    rw [PipelineState.setStage, touch, Dict.get_set] at hg
    split_ifs at hg with heq
    · cases hg
      exact ⟨heq ▸ hn, hw, hst⟩
    · exact h.stages n st' hg

/-- The names a progress holds are plain. -/
def ProgressOk (p : Progress) : Prop := ∀ q ∈ p.items, ∀ v ∈ q.2, PlainOk v

theorem progressOk_iff {p : Progress} : ProgressOk p ↔
    (∀ v ∈ p.built, PlainOk v) ∧ (∀ v ∈ p.failed, PlainOk v) ∧ (∀ v ∈ p.skipped, PlainOk v) ∧
      ∀ v ∈ p.remaining, PlainOk v := by
  simp [ProgressOk, Progress.items]

theorem progressOk_progress (h : Clean s) : ProgressOk s.progress := by
  rw [progress]
  cases hp : (s.stage "packages").progress with
  | none => exact progressOk_iff.2 (by simp)
  | some p => exact (stageOk_stage h "packages").progress p hp

/-- A stage with a new progress, on the `packages` stage. -/
theorem Clean.setPackages (h : Clean s) {later : String} {p : Progress}
    {errors : Dict String String} (hp : ProgressOk p) (he : ∀ k ∈ errors.keys, IsBare k.toList)
    (hl : IsTimestamp later) :
    Clean (s.setStage "packages" { s.progressStage with
      progress := some p, errors := errors } later) := by
  have hst := stageOk_stage h "packages"
  refine h.setStage (by decide) rfl ?_ hl
  exact ⟨hst.startedAt, hst.completedAt, hst.firstDoneAt, fun q hq => by cases hq; exact hp, he,
    hst.result⟩

theorem Clean.setProgress (h : Clean s) {later : String} {p : Progress} (hp : ProgressOk p)
    (hl : IsTimestamp later) : Clean (s.setProgress p later) :=
  h.setPackages hp (stageOk_stage h "packages").errors hl

theorem plain_filter {l : List String} (h : ∀ v ∈ l, PlainOk v) (p : String → Bool) :
    ∀ v ∈ l.filter p, PlainOk v := fun v hv => h v (List.mem_filter.1 hv).1

theorem plain_addName {l : List String} (h : ∀ v ∈ l, PlainOk v) {name : String}
    (hn : PlainOk name) : ∀ v ∈ addName l name, PlainOk v := by
  intro v hv
  unfold addName at hv
  split_ifs at hv
  · exact h v hv
  · rcases List.mem_append.1 hv with hv | hv
    · exact h v hv
    · exact List.mem_singleton.1 hv ▸ hn

theorem plain_requeue {p : Progress} (h : ∀ v ∈ p.remaining, PlainOk v) {names : List String}
    (hn : ∀ v ∈ names, PlainOk v) : ∀ v ∈ requeue p names, PlainOk v := by
  intro v hv
  unfold requeue at hv
  split_ifs at hv
  · exact hn v hv
  · dsimp only at hv
    split_ifs at hv
    · exact h v hv
    · rcases List.mem_append.1 hv with hv | hv
      · exact plain_filter hn _ v hv
      · exact plain_filter h _ v hv

/-- Admissible and encodable calls leave a clean state clean. -/
theorem clean_step (h : Clean s) {op : Op} (ha : op.Admissible s) (he : op.Encodable) :
    Clean (step s op) := by
  have hp := progressOk_iff.1 (progressOk_progress h)
  obtain ⟨hb, hf, hs, hr⟩ := hp
  cases op with
  | initMeta now later =>
    exact ⟨optPlain_getD h.startedAt (plainOk_of_timestamp ha.1),
      optPlain_some (plainOk_of_timestamp ha.2), h.stages⟩
  | markRunning name now later =>
    have hst := stageOk_stage h name
    exact h.setStage he rfl { hst with startedAt := optPlain_some (plainOk_of_timestamp ha.1) } ha.2
  | markDone name now later =>
    have hst := stageOk_stage h name
    exact h.setStage he rfl { hst with
      completedAt := optPlain_some (plainOk_of_timestamp ha.1)
      firstDoneAt := optPlain_getD hst.firstDoneAt (plainOk_of_timestamp ha.1) } ha.2
  | markFailed name error now later =>
    have hst := stageOk_stage h name
    exact h.setStage he rfl { hst with
      completedAt := optPlain_some (plainOk_of_timestamp ha.1) } ha.2
  | markSkippedTo name later => exact h.setStage he rfl { stageOk_stage h name with } ha
  | noteCompleted name now later =>
    have hst := stageOk_stage h name
    exact h.setStage he (by simp [Stage.isWritten]) { hst with
      firstDoneAt := optPlain_getD hst.firstDoneAt (plainOk_of_timestamp ha.1) } ha.2
  | initPackageList names later =>
    exact h.setProgress (progressOk_iff.2 ⟨hb, hf, hs,
      plain_requeue hr fun v hv => plainOk_of_packageName (ha.1 v hv)⟩) ha.2
  | markPackageBuilding name later =>
    exact h.setProgress (progressOk_iff.2 ⟨hb, hf, hs, plain_filter hr _⟩) ha.2
  | markPackageBuilt name later =>
    exact h.setProgress (progressOk_iff.2 ⟨plain_addName hb (plainOk_of_packageName ha.1),
      plain_filter hf _, hs, plain_filter hr _⟩) ha.2
  | markPackageFailed name error later =>
    refine h.setPackages (progressOk_iff.2 ⟨hb, plain_addName hf (plainOk_of_packageName ha.1), hs,
      plain_filter hr _⟩) (fun k hk => ?_) ha.2
    rcases Assoc.mem_keys_set.1 hk with rfl | hk
    · exact he
    · exact (stageOk_stage h "packages").errors k hk
  | markPackageSkipped name later =>
    exact h.setProgress (progressOk_iff.2 ⟨hb, plain_filter hf _,
      plain_addName hs (plainOk_of_packageName ha.1), plain_filter hr _⟩) ha.2
  | setStageResult name result later =>
    refine h.setStage he.1 (by simp [Stage.isWritten, ha.1])
      { stageOk_stage h name with
        result := fun k v hv => he.2 (k, v) (Dict.mem_items.2 hv) } ha.2

/-! ## Runs -/

/-- **Every state of an encodable run survives its checkpoint.** -/
theorem checkpoint_roundTrips {ops pre : List Op} (ha : Run.Each step Op.Admissible empty ops)
    (he : ∀ op ∈ ops, op.Encodable) (hp : pre <+: ops) :
    RoundTrips (Run.run step empty pre) :=
  roundTrips_of_clean <| (ha.of_prefix hp).invariant clean_empty fun _ op hop hs h =>
    clean_step hs h (he op (hp.subset hop))

/-- A toolchain result and a failed package, saved between two stages. -/
def savedRun : List Op :=
  [.initMeta "2026-01-02T03:04:05Z" "2026-01-02T03:04:05Z",
    .markRunning "toolchain" "2026-01-02T03:04:05Z" "2026-01-02T03:04:05Z",
    .setStageResult "toolchain" ((Dict.empty.set "cc" (.str "/usr/bin/clang")).set "jobs" (.int (-1)))
      "2026-01-02T03:04:06Z",
    .markDone "toolchain" "2026-01-02T03:04:06Z" "2026-01-02T03:04:06Z",
    .initPackageList ["mesa-git", "gtk+"] "2026-01-02T03:04:07Z",
    .markPackageFailed "mesa-git" "\x1b[31msoname \"libLLVM\"\n" "2026-01-02T03:04:08Z"]

theorem checkpoint_roundTrips_savedRun : RoundTrips (Run.run step empty savedRun) :=
  checkpoint_roundTrips
    (show Run.Each step Op.Admissible empty savedRun from
      ⟨by decide, by decide, by decide, by decide, by decide, by decide, trivial⟩)
    (by decide) (List.prefix_refl _)

/-- A package whose name is no bare key fails to build. -/
def failedGtk : List Op :=
  [.initPackageList ["gtk+"] "2026-01-02T03:04:05Z",
    .markPackageFailed "gtk+" "error" "2026-01-02T03:04:06Z"]

/-- A stage stores a boolean result. -/
def booleanResult : List Op :=
  [.markRunning "toolchain" "2026-01-02T03:04:05Z" "2026-01-02T03:04:05Z",
    .setStageResult "toolchain" (Dict.empty.set "pgo" (.bool true)) "2026-01-02T03:04:06Z"]

/-- Two admissible runs leave a checkpoint no reader accepts: the error of `gtk+` is written under
a bare key, and a boolean result as Python's `True`. -/
theorem checkpoint_not_roundTrips :
    (Run.Each step Op.Admissible empty failedGtk ∧
      ¬ RoundTrips (Run.run step empty failedGtk)) ∧
    Run.Each step Op.Admissible empty booleanResult ∧
      ¬ RoundTrips (Run.run step empty booleanResult) := by
  refine ⟨⟨⟨by decide, by decide, trivial⟩, ?_⟩, ⟨by decide, by decide, trivial⟩, ?_⟩
  · intro h
    obtain ⟨t, ht, -⟩ := h
    have : (loads (Run.run step empty failedGtk).serialize).isNone = true := by decide +kernel
    rw [ht] at this
    cases this
  · intro h
    obtain ⟨t, ht, -⟩ := h
    have : (loads (Run.run step empty booleanResult).serialize).isNone = true := by
      decide +kernel
    rw [ht] at this
    cases this

end Sysforge.PipelineState
