import Sysforge.Sentinel.Scope

/-!
# Interleaved sentinel scopes

`Change` says once what a step of a run can do to that run, to the lock and to the record; the
invariants are derived from it. `World.Invariant` ties the lock and the record to the phases of
the runs and needs no assumption: the `flock` alone keeps armed scopes apart. `World.Guarded`
adds that an interrupted record is still there and that no run is inside its scope next to it.
Taking the lock over such a record is the one step that breaks it.
-/

namespace Sysforge.Sentinel

variable {ι : Type*} [DecidableEq ι] {eager : ι → Bool} {w w' : World ι} {i j : ι} {m : Move}

/-! ## The fields after an operation -/

section Fields

variable {ph : Phase} {p : Proc}

@[grind =] theorem World.put_lock : (w.put i p).lock = w.lock := rfl

@[grind =] theorem World.put_record : (w.put i p).record = w.record := rfl

@[grind =] theorem World.put_procs :
    (w.put i p).procs j = if j = i then p else w.procs j := by
  simp [World.put, Function.update_apply]

@[grind =] theorem World.goto_lock : (w.goto i ph).lock = w.lock := rfl

@[grind =] theorem World.goto_record : (w.goto i ph).record = w.record := rfl

@[grind =] theorem World.goto_procs :
    (w.goto i ph).procs j = if j = i then { w.procs i with phase := ph } else w.procs j :=
  World.put_procs

@[grind =] theorem World.hold_lock : (w.hold i ph).lock = some i := rfl

@[grind =] theorem World.hold_record : (w.hold i ph).record = w.record := rfl

@[grind =] theorem World.hold_procs :
    (w.hold i ph).procs j = if j = i then { w.procs i with phase := ph } else w.procs j :=
  World.put_procs

@[grind =] theorem World.drop_lock : (w.drop i ph).lock = none := rfl

@[grind =] theorem World.drop_record : (w.drop i ph).record = w.record := rfl

@[grind =] theorem World.drop_procs :
    (w.drop i ph).procs j = if j = i then { w.procs i with phase := ph } else w.procs j :=
  World.put_procs

@[grind =] theorem World.arm_lock : (w.arm i).lock = w.lock := rfl

@[grind =] theorem World.arm_record : (w.arm i).record = some i := rfl

@[grind =] theorem World.arm_procs : (w.arm i).procs j =
    if j = i then { phase := .body, armed := true, mutated := (w.procs i).mutated }
    else w.procs j :=
  World.put_procs

@[grind =] theorem World.clear_lock : (w.clear i).lock = w.lock := rfl

@[grind =] theorem World.clear_record : (w.clear i).record = none := rfl

@[grind =] theorem World.clear_procs : (w.clear i).procs j =
    if j = i then { phase := .release, armed := false, mutated := (w.procs i).mutated }
    else w.procs j :=
  World.put_procs

@[grind =] theorem crash_lock (hf : (w.procs i).phase.isFinal = false) :
    (crash w i).lock = if (w.procs i).phase.holdsLock then none else w.lock := by
  rw [crash, if_neg (by simp [hf])]
  split <;> rfl

@[grind =] theorem crash_record : (crash w i).record = w.record := by
  rw [crash]
  split
  · rfl
  · split <;> rfl

@[grind =] theorem crash_procs (hf : (w.procs i).phase.isFinal = false) :
    (crash w i).procs j = if j = i then { w.procs i with phase := .crashed } else w.procs j := by
  rw [crash, if_neg (by simp [hf])]
  split <;> exact World.put_procs

end Fields

@[grind →] theorem Phase.holdsLock_of_inScope {ph : Phase} (h : ph.inScope = true) :
    ph.holdsLock = true := by
  cases ph <;> simp_all [Phase.inScope, Phase.holdsLock]

attribute [grind] Phase.holdsLock Phase.inScope World.HasArmedScope World.Interrupted

/-! ## What a step can do -/

/-- What the move `m` of the run `i` can do. -/
inductive Change (w : World ι) (i : ι) (m : Move) : World ι → Prop
  | stay : Change w i m w
  /-- The run stays on its side of the lock and of the scope. -/
  | goto {ph : Phase} (hl : ph.holdsLock = (w.procs i).phase.holdsLock)
      (hs : ph.inScope = (w.procs i).phase.inScope) (hc : ph ≠ .crashed)
      (hp : (w.procs i).phase ≠ .crashed) : Change w i m (w.goto i ph)
  | mutate (hp : (w.procs i).phase = .body) :
      Change w i m (w.put i { w.procs i with mutated := true })
  /-- The run takes the free lock, for the probe or for its scope. -/
  | hold {ph : Phase} (hm : m = .next) (hl : w.lock = none) (hp : (w.procs i).phase.inScope = false)
      (hf : (w.procs i).phase ≠ .crashed)
      (hph : ph = .probing ∨ ph = .entered ∧ (w.procs i).phase = .acquire) :
      Change w i m (w.hold i ph)
  /-- The run gives its lock back, after the probe or after its scope. -/
  | drop {ph : Phase} (hl : (w.procs i).phase.holdsLock = true)
      (hs : (w.procs i).phase.inScope = false) (hph : ph = .recheck ∨ ph = .ended) :
      Change w i m (w.drop i ph)
  | arm (hs : (w.procs i).phase.inScope = true) : Change w i m (w.arm i)
  | clear (hs : (w.procs i).phase.inScope = true) : Change w i m (w.clear i)
  | crash (hf : (w.procs i).phase.isFinal = false) : Change w i m (crash w i)

theorem next_change : Change w i .next (next eager w i) := by
  cases hp : (w.procs i).phase with
  | start | recheck =>
    simp only [next, hp]
    split <;> apply Change.goto <;> simp [hp, Phase.holdsLock, Phase.inScope]
  | probe | acquire =>
    simp only [next, hp]
    cases hl : w.lock with
    | none =>
      simp only [World.take, hl]
      exact .hold rfl hl (by simp [hp, Phase.inScope]) (by simp [hp]) (by simp [hp])
    | some j =>
      simp only [World.take, hl]
      apply Change.goto <;> simp [hp, Phase.holdsLock, Phase.inScope]
  | probing | release =>
    simp only [next, hp]
    apply Change.drop <;> simp [hp, Phase.holdsLock, Phase.inScope]
  | entered =>
    simp only [next, hp]
    split
    · exact .arm (by simp [hp, Phase.inScope])
    · apply Change.goto <;> simp [hp, Phase.holdsLock, Phase.inScope]
  | body =>
    simp only [next, hp]
    apply Change.goto <;> simp [hp, Phase.holdsLock, Phase.inScope]
  | clear =>
    simp only [next, hp]
    exact .clear (by simp [hp, Phase.inScope])
  | ended | crashed =>
    simp only [next, hp]
    exact .stay

theorem mutate_change : Change w i .mutate (mutate w i) := by
  rw [mutate]
  split
  next hp =>
    split
    · exact .mutate hp
    · exact .arm (by rw [hp]; rfl)
  next => exact .stay

theorem crash_change : Change w i .crash (crash w i) := by
  by_cases hf : (w.procs i).phase.isFinal
  · rw [crash, if_pos hf]
    exact .stay
  · exact .crash (by simpa using hf)

theorem step_change : Change w i m (step eager w (i, m)) := by
  cases m with
  | next => exact next_change
  | mutate => exact mutate_change
  | crash => exact crash_change

/-- **A crash is final**: an interrupted run stays interrupted. -/
theorem World.Interrupted.change (h : w.Interrupted j) (hc : Change w i m w') :
    w'.Interrupted j := by
  cases hc with
  | stay => exact h
  | goto hl hs hc hp => grind
  | mutate hp => grind
  | hold hm hl hp hf hph => grind
  | drop hl hs hph => grind
  | arm hs => grind
  | clear hs => grind
  | crash hf => grind [Phase.isFinal]

/-! ## The lock keeps armed scopes apart -/

/-- The lock and the record follow the phases of the runs. -/
structure World.Invariant (w : World ι) : Prop where
  lock : ∀ i, (w.procs i).phase.holdsLock = true ↔ w.lock = some i
  armed : ∀ i, (w.procs i).armed = true →
    (w.procs i).phase.inScope = true ∨ (w.procs i).phase = .crashed
  record : ∀ i, w.HasArmedScope i → w.record = some i

omit [DecidableEq ι] in
theorem World.Invariant.init : (World.init : World ι).Invariant := by
  constructor <;> simp [World.init, Phase.holdsLock, World.HasArmedScope]

/-- **A step keeps the invariant.** -/
theorem World.Invariant.change (h : w.Invariant) (hc : Change w i m w') : w'.Invariant := by
  obtain ⟨hlock, harmed, hrecord⟩ := h
  cases hc with
  | stay => exact ⟨hlock, harmed, hrecord⟩
  | goto hl hs hc hp => constructor <;> grind
  | mutate hp => constructor <;> grind
  | hold hm hl hp hf hph => constructor <;> grind
  | drop hl hs hph => constructor <;> grind
  | arm hs => constructor <;> grind
  | clear hs => constructor <;> grind
  | crash hf => constructor <;> grind

omit [DecidableEq ι] in
/-- Two armed scopes would both hold the lock. -/
theorem World.Invariant.eq_of_hasArmedScope (h : w.Invariant) (hi : w.HasArmedScope i)
    (hj : w.HasArmedScope j) : i = j := by
  have hli := (h.lock i).mp (Phase.holdsLock_of_inScope hi.1)
  have hlj := (h.lock j).mp (Phase.holdsLock_of_inScope hj.1)
  exact Option.some.inj (hli.symm.trans hlj)

/-! ## An interrupted record -/

/-- The invariant, and what holds with it as long as no run takes the lock over the record of an
interrupted run. -/
structure World.Guarded (w : World ι) : Prop extends w.Invariant where
  survives : ∀ i, w.Interrupted i → w.record = some i
  alone : ∀ i j, (w.procs i).phase.inScope = true → ¬w.Interrupted j

omit [DecidableEq ι] in
theorem World.Guarded.init : (World.init : World ι).Guarded where
  toInvariant := .init
  survives i h := by simp [World.init, World.Interrupted] at h
  alone i j h := by simp [World.init, Phase.inScope] at h

section Guard

variable (h : w.Guarded) (hc : Change w i m w')

include h hc

/-- Only a run in its scope writes or clears the record, and such a run is alone. -/
theorem World.Guarded.survives_change (j : ι) (hj : w'.Interrupted j) : w'.record = some j := by
  obtain ⟨⟨hlock, harmed, hrecord⟩, hsurvives, halone⟩ := h
  cases hc with
  | stay => exact hsurvives j hj
  | goto hl hs hc hp => grind
  | mutate hp => grind
  | hold hm hl hp hf hph => grind
  | drop hl hs hph => grind
  | arm hs => grind
  | clear hs => grind
  | crash hf => grind

/-- A run enters its scope with the lock, and the run that crashes in its scope gives it back. -/
theorem World.Guarded.alone_change
    (hn : m = .next → (w.procs i).phase = .acquire → w.lock = none → ∀ j, ¬w.Interrupted j) (j k : ι)
    (hj : (w'.procs j).phase.inScope = true) : ¬w'.Interrupted k := by
  obtain ⟨⟨hlock, harmed, hrecord⟩, hsurvives, halone⟩ := h
  cases hc with
  | stay => exact halone j k hj
  | goto hl hs hc hp => grind
  | mutate hp => grind
  | hold hm hl hp hf hph => grind
  | drop hl hs hph => grind
  | arm hs => grind
  | clear hs => grind
  | crash hf => grind

end Guard

/-- **A step that does not take the lock over an interrupted record keeps the record.** -/
theorem World.Guarded.step (h : w.Guarded) (hm : NotOverInterrupted w (i, m)) :
    (step eager w (i, m)).Guarded := by
  -- By the invariant, the record of an interrupted run is the one on disk.
  have hn : m = .next → (w.procs i).phase = .acquire → w.lock = none → ∀ j, ¬w.Interrupted j :=
    fun hmv hp hl j hj => hm hmv hp hl j (h.survives j hj) hj
  exact ⟨h.toInvariant.change step_change, h.survives_change step_change,
    h.alone_change step_change hn⟩

omit [DecidableEq ι] in
theorem World.Guarded.safe (h : w.Guarded) : w.Safe :=
  ⟨h.survives, fun _ _ => h.toInvariant.eq_of_hasArmedScope⟩

/-! ## Runs -/

theorem World.Invariant.run (h : w.Invariant) (ms : List (ι × Move)) :
    (Run.run (step eager) w ms).Invariant := by
  induction ms generalizing w with
  | nil => exact h
  | cons m ms ih => exact ih (h.change step_change)

/-- **Armed scopes exclude each other**, in every state of every run. -/
theorem hasArmedScope_unique (ms : List (ι × Move))
    (hi : (Run.run (step eager) World.init ms).HasArmedScope i)
    (hj : (Run.run (step eager) World.init ms).HasArmedScope j) : i = j :=
  (World.Invariant.init.run ms).eq_of_hasArmedScope hi hj

/-- **Survival of interrupted records.** As long as no run takes the stage lock over the record
of an interrupted run, such a record is never overwritten or cleared and no two runs hold an
armed scope. -/
theorem interrupted_record_survives (eager : ι → Bool) {ms pre : List (ι × Move)}
    (h : Run.Each (step eager) NotOverInterrupted World.init ms) (hp : pre <+: ms) :
    (Run.run (step eager) World.init pre).Safe := by
  have hg : (Run.run (step eager) World.init pre).Guarded :=
    (h.of_prefix hp).invariant .init fun _ _ _ hw hm => hw.step hm
  exact hg.safe

/-- `false` crashes in the middle of its system change, and `true` finds the record, sees nobody
hold the lock and refuses to start. -/
def refusedRun : List (Bool × Move) :=
  [(false, .next), (false, .next), (false, .next), (false, .mutate), (false, .crash),
    (true, .next), (true, .next), (true, .next), (true, .next)]

theorem interrupted_record_survives_refusedRun :
    (Run.run (step fun _ => true) World.init refusedRun).Safe :=
  interrupted_record_survives (fun _ => true)
    (show Run.Each (step fun _ => true) NotOverInterrupted World.init refusedRun from
      ⟨by decide, by decide, by decide, by decide, by decide, by decide, by decide, by decide,
        by decide, trivial⟩)
    (List.prefix_refl _)

/-- `true` reads the state dir before `false` writes its record, and takes the lock after `false`
crashed. -/
def staleCheckRun : List (Bool × Move) :=
  [(true, .next), (false, .next), (false, .next), (false, .next), (false, .mutate),
    (false, .crash), (true, .next), (true, .next)]

/-- `staleCheckRun`, and `true` leaves its scope. -/
def staleCheckClearedRun : List (Bool × Move) :=
  staleCheckRun ++ [(true, .next), (true, .next)]

/-- The check of `true` is stale when it takes the lock: it overwrites the record of the
interrupted run on entry, and removes it when it arms on its first system change and makes
none. -/
theorem interrupted_record_lost :
    (Run.run (step fun _ => true) World.init staleCheckRun).record = some true ∧
    (Run.run (step not) World.init staleCheckClearedRun).record = none ∧
    ¬∀ (eager : Bool → Bool) (ms : List (Bool × Move)),
      (Run.run (step eager) World.init ms).Safe := by
  refine ⟨by decide, by decide, fun h => ?_⟩
  have hs := (h (fun _ => true) staleCheckRun).survives false (by decide)
  exact absurd hs (by decide)

end Sysforge.Sentinel
