import Sysforge.Sentinel.Interrupt

/-!
# What a Ctrl-C does to a verb

One Ctrl-C stops a body at a checkpoint only; a second one stops it at once. Whichever way a verb
ends, a change of the system was made with the record on disk, and no Ctrl-C goes unnoticed by a verb
that succeeds.
-/

namespace Sysforge.Interrupt

variable {α : Type*} {s t : State α} {c d : Code α} {k n : ℕ}

/-! ## Signals -/

theorem raised_of_le (h : k + n ≤ 1) : raised (some k) n = none := if_pos (.inr h)

/-- A body counts the signals that arrive. -/
def Counted (s : State α) (k n : ℕ) (s' : State α) : Prop :=
  ∃ k', s'.count = some k' ∧ k ≤ k' ∧ k' ≤ k + n ∧ s'.seen + k = s.seen + k'

theorem Counted.refl (hs : s.count = some k) : Counted s k n s :=
  ⟨k, hs, Nat.le_refl k, Nat.le_add_right k n, rfl⟩

theorem Counted.seq {s' s'' : State α} {m : ℕ} (h : Counted s k n s')
    (h' : ∀ k', s'.count = some k' → Counted s' k' m s'') : Counted s k (n + m) s'' := by
  obtain ⟨k', hk', hle, hle', hseen⟩ := h
  obtain ⟨k'', hk'', hle₂, hle₂', hseen₂⟩ := h' k' hk'
  exact ⟨k'', hk'', by omega, by omega, by omega⟩

theorem Counted.mono {s' : State α} {m : ℕ} (h : Counted s k n s') (hnm : n ≤ m) :
    Counted s k m s' := by
  obtain ⟨k', hk', hle, hle', hseen⟩ := h
  exact ⟨k', hk', hle, Nat.le_trans hle' (Nat.add_le_add_left hnm k), hseen⟩

/-- Arming the record changes nothing else. -/
theorem arm_frame : s.arm.count = s.count ∧ s.arm.seen = s.seen ∧ s.arm.commands = s.commands ∧
    s.arm.listening = s.listening := by
  rw [State.arm]
  split
  · exact ⟨rfl, rfl, rfl, rfl⟩
  · exact ⟨rfl, rfl, rfl, rfl⟩

theorem announce_frame {mutates : Bool} : (s.announce mutates).count = s.count ∧
    (s.announce mutates).seen = s.seen ∧ (s.announce mutates).commands = s.commands ∧
    (s.announce mutates).listening = s.listening := by
  rw [State.announce]
  split
  · exact arm_frame
  · exact ⟨rfl, rfl, rfl, rfl⟩

/-- What a command leaves of the state that it finds. -/
theorem command_frame {a : α} {mutates fails : Bool} :
    (s.command a mutates n fails).2.count = s.count.map (· + n) ∧
      (s.command a mutates n fails).2.seen = s.seen + n ∧
      (s.command a mutates n fails).2.commands = (a, mutates) :: s.commands := by
  obtain ⟨hcount, hseen, hcommands, -⟩ := @announce_frame α s mutates
  exact ⟨congrArg (Option.map _) hcount, congrArg (· + n) hseen,
    congrArg ((a, mutates) :: ·) hcommands⟩

/-- How it ends. -/
theorem command_outcome {a : α} {mutates fails : Bool} (hs : s.count = some k) (hk : k + n ≤ 1) :
    (s.command a mutates n fails).1 = if fails then .error else .done := by
  show (raised (s.announce mutates).count n).getD _ = _
  rw [announce_frame.1, hs, raised_of_le hk]
  rfl

theorem exec_counted (c : Code α) {s : State α} {k : ℕ} (hs : s.count = some k) :
    Counted s k c.signals (exec c s).2 := by
  induction c generalizing s k with
  | skip => exact .refl hs
  | command a mutates n fails =>
    obtain ⟨hcount, hseen, -⟩ := @command_frame α s n a mutates fails
    refine ⟨k + n, ?_, Nat.le_add_right k n, Nat.le_refl _, ?_⟩
    · rw [exec, hcount, hs, Option.map_some]
    · rw [exec, hseen]
      omega
  | checkpoint => exact .refl hs
  | seq c d ihc ihd =>
    rw [exec]
    split
    · exact (ihc hs).seq fun k' hk' => ihd hk'
    · exact (ihc hs).mono (Nat.le_add_right _ _)
  | attempt c d ihc ihd =>
    rw [exec]
    split
    · exact (ihc hs).seq fun k' hk' => ihd hk'
    · exact (ihc hs).mono (Nat.le_add_right _ _)
  | ensure c d ihc ihd =>
    rw [exec]
    split
    · exact (ihc hs).mono (Nat.le_add_right _ _)
    · exact (ihc hs).seq fun k' hk' => ihd hk'

/-! ## One signal -/

/-- A run against one without signals: it did no more, and stopped at a checkpoint or as the other
did. -/
structure Behind (r q : Outcome × State α) : Prop where
  count : q.2.count = some 0
  commands : r.2.commands.Sublist q.2.commands
  outcome : r.1 = q.1 ∨ r.1 = .cleanExit
  calm : q.1 = .done ∨ q.1 = .error

/-- Code only adds commands. -/
theorem commands_exec (c : Code α) (s : State α) : s.commands.Sublist (exec c s).2.commands := by
  induction c generalizing s with
  | skip | checkpoint => exact List.Sublist.refl _
  | command a mutates n fails =>
    rw [exec, command_frame.2.2]
    exact List.sublist_cons_self _ _
  | seq c d ihc ihd =>
    rw [exec]
    split
    · exact (ihc s).trans (ihd _)
    · exact ihc s
  | attempt c d ihc ihd =>
    rw [exec]
    split
    · exact (ihc s).trans (ihd _)
    · exact ihc s
  | ensure c d ihc ihd =>
    rw [exec]
    split
    · exact ihc s
    · exact (ihc s).trans (ihd _)

/-- The one without signals goes on. -/
theorem Behind.go_on {r r' q : Outcome × State α} (h : Behind r q) (hr : r.1 = .cleanExit)
    (hd : Behind r' (exec c q.2)) : Behind r (exec c q.2) :=
  ⟨hd.count, h.commands.trans (commands_exec _ _), .inr hr, hd.calm⟩

/-- **The simulation**: with one signal at most, code does what it does without. -/
theorem exec_behind (c : Code α) {s t : State α} {k : ℕ} (hs : s.count = some k)
    (hk : k + c.signals ≤ 1) (ht : t.count = some 0) (hst : s.commands.Sublist t.commands) :
    Behind (exec c s) (exec c.calm t) := by
  induction c generalizing s t k with
  | skip => exact ⟨ht, hst, .inl rfl, .inl rfl⟩
  | command a mutates n fails =>
    have hk : k + n ≤ 1 := hk
    obtain ⟨-, -, hcommands⟩ := @command_frame α s n a mutates fails
    obtain ⟨hcount', -, hcommands'⟩ := @command_frame α t 0 a mutates fails
    refine ⟨?_, ?_, .inl ?_, ?_⟩
    · rw [Code.calm, exec, hcount', ht]
      rfl
    · rw [Code.calm, exec, exec, hcommands, hcommands']
      exact hst.cons_cons _
    · exact (command_outcome hs hk).trans (command_outcome ht (Nat.zero_le 1)).symm
    · rw [Code.calm, exec, command_outcome ht (Nat.zero_le 1)]
      cases fails
      · exact .inl rfl
      · exact .inr rfl
  | checkpoint =>
    have hdone : t.checkpoint = .done := by
      rw [State.checkpoint, ht]
      rfl
    refine ⟨ht, hst, ?_, .inl hdone⟩
    show s.checkpoint = t.checkpoint ∨ s.checkpoint = .cleanExit
    rw [hdone, State.checkpoint]
    split
    · exact .inr rfl
    · exact .inl rfl
  | seq c d ihc ihd =>
    have hc := ihc hs (by have := hk; rw [Code.signals] at this; omega) ht hst
    obtain ⟨k', hk', -, hle, -⟩ := exec_counted c hs
    have hd : k' + d.signals ≤ 1 := by
      have hk : k + (c.signals + d.signals) ≤ 1 := hk
      omega
    rw [exec, Code.calm, exec]
    by_cases hq : (exec c.calm t).1 = .done
    · rw [if_pos hq]
      obtain hr | hr := hc.outcome
      · rw [if_pos (hr.trans hq)]
        exact ihd hk' hd hc.count hc.commands
      · rw [if_neg (hr ▸ by decide)]
        exact hc.go_on hr (ihd hc.count (by omega) hc.count (List.Sublist.refl _))
    · rw [if_neg hq]
      obtain hr | hr := hc.outcome
      · rw [if_neg (hr ▸ hq)]
        exact hc
      · rw [if_neg (hr ▸ by decide)]
        exact hc
  | attempt c d ihc ihd =>
    have hc := ihc hs (by have := hk; rw [Code.signals] at this; omega) ht hst
    obtain ⟨k', hk', -, hle, -⟩ := exec_counted c hs
    have hd : k' + d.signals ≤ 1 := by
      have hk : k + (c.signals + d.signals) ≤ 1 := hk
      omega
    rw [exec, Code.calm, exec]
    by_cases hq : (exec c.calm t).1 = .error
    · rw [if_pos hq]
      obtain hr | hr := hc.outcome
      · rw [if_pos (hr.trans hq)]
        exact ihd hk' hd hc.count hc.commands
      · rw [if_neg (hr ▸ by decide)]
        exact hc.go_on hr (ihd hc.count (by omega) hc.count (List.Sublist.refl _))
    · rw [if_neg hq]
      obtain hr | hr := hc.outcome
      · rw [if_neg (hr ▸ hq)]
        exact hc
      · rw [if_neg (hr ▸ by decide)]
        exact hc
  | ensure c d ihc ihd =>
    have hc := ihc hs (by have := hk; rw [Code.signals] at this; omega) ht hst
    obtain ⟨k', hk', -, hle, -⟩ := exec_counted c hs
    have hd : k' + d.signals ≤ 1 := by
      have hk : k + (c.signals + d.signals) ≤ 1 := hk
      omega
    have hd := ihd hk' hd hc.count hc.commands
    have hq : (exec c.calm t).1 ≠ .killed := by
      obtain hq | hq := hc.calm
      · exact hq ▸ by decide
      · exact hq ▸ by decide
    have hr : (exec c s).1 ≠ .killed := by
      obtain hr | hr := hc.outcome
      · exact hr ▸ hq
      · exact hr ▸ by decide
    rw [exec, Code.calm, exec, if_neg hq, if_neg hr]
    refine ⟨hd.count, hd.commands, ?_, ?_⟩
    · dsimp only
      obtain hr | hr := hd.outcome
      · rw [hr]
        split
        case isTrue => exact hc.outcome
        case isFalse => exact .inl rfl
      · rw [if_neg (hr ▸ by decide)]
        exact .inr hr
    · dsimp only
      split
      case isTrue => exact hc.calm
      case isFalse => exact hd.calm

/-- The same state, with other signals seen. -/
def State.reseen (t : State α) (k m : ℕ) : State α := { t with count := some k, seen := m }

theorem command_reseen {a : α} {mutates fails : Bool} {m : ℕ} (ht : t.count = some 0)
    (hk : k + n ≤ 1) : (t.reseen k m).command a mutates n fails =
      ((t.command a mutates 0 fails).1,
        (t.command a mutates 0 fails).2.reseen (k + n) (m + n)) := by
  have harm : (t.reseen k m).arm = t.arm.reseen k m := by
    rw [State.arm, State.arm]
    show (if t.armed then _ else _) = _
    split
    · rfl
    · rfl
  have hannounce : (t.reseen k m).announce mutates = (t.announce mutates).reseen k m := by
    rw [State.announce, harm]
    show (if mutates && t.listening then _ else _) = _
    rw [State.announce]
    split
    · rfl
    · rfl
  refine Prod.ext ?_ ?_
  · exact (@command_outcome α (t.reseen k m) k n a mutates fails rfl hk).trans
      (@command_outcome α t 0 0 a mutates fails ht (Nat.zero_le 1)).symm
  · rw [State.command, hannounce]
    rfl

/-- Without a checkpoint there is no difference. -/
theorem exec_reseen (c : Code α) (hc : c.unchecked = true) {t : State α} {k m : ℕ}
    (ht : t.count = some 0) (hk : k + c.signals ≤ 1) :
    (exec c.calm t).2.count = some 0 ∧ ∃ k' m', k' ≤ k + c.signals ∧
      exec c (t.reseen k m) = ((exec c.calm t).1, (exec c.calm t).2.reseen k' m') := by
  induction c generalizing t k m with
  | skip => exact ⟨ht, k, m, Nat.le_add_right _ _, rfl⟩
  | command a mutates n fails =>
    refine ⟨?_, k + n, m + n, Nat.le_refl _, command_reseen ht hk⟩
    rw [Code.calm, exec, command_frame.1, ht]
    rfl
  | checkpoint => exact absurd hc Bool.false_ne_true
  | seq c d ihc ihd =>
    obtain ⟨hc, hd⟩ := (Bool.and_eq_true _ _).mp hc
    have hk : k + (c.signals + d.signals) ≤ 1 := hk
    obtain ⟨ht', k', m', hle, heq⟩ := @ihc hc t k m ht (by omega)
    obtain ⟨ht'', k'', m'', hle', heq'⟩ := @ihd hd (exec c.calm t).2 k' m' ht' (by omega)
    rw [exec, Code.calm, exec, heq]
    dsimp only
    split
    · exact ⟨ht'', k'', m'', by rw [Code.signals]; omega, heq'⟩
    · exact ⟨ht', k', m', by rw [Code.signals]; omega, rfl⟩
  | attempt c d ihc ihd =>
    obtain ⟨hc, hd⟩ := (Bool.and_eq_true _ _).mp hc
    have hk : k + (c.signals + d.signals) ≤ 1 := hk
    obtain ⟨ht', k', m', hle, heq⟩ := @ihc hc t k m ht (by omega)
    obtain ⟨ht'', k'', m'', hle', heq'⟩ := @ihd hd (exec c.calm t).2 k' m' ht' (by omega)
    rw [exec, Code.calm, exec, heq]
    dsimp only
    split
    · exact ⟨ht'', k'', m'', by rw [Code.signals]; omega, heq'⟩
    · exact ⟨ht', k', m', by rw [Code.signals]; omega, rfl⟩
  | ensure c d ihc ihd =>
    obtain ⟨hc, hd⟩ := (Bool.and_eq_true _ _).mp hc
    have hk : k + (c.signals + d.signals) ≤ 1 := hk
    obtain ⟨ht', k', m', hle, heq⟩ := @ihc hc t k m ht (by omega)
    obtain ⟨ht'', k'', m'', hle', heq'⟩ := @ihd hd (exec c.calm t).2 k' m' ht' (by omega)
    rw [exec, Code.calm, exec, heq]
    dsimp only
    split
    · exact ⟨ht', k', m', by rw [Code.signals]; omega, rfl⟩
    · rw [heq']
      exact ⟨ht'', k'', m'', by rw [Code.signals]; omega, rfl⟩

/-- **One Ctrl-C is deferred**: a body in whose scope one signal arrives at most runs no command that
it would not have run, ends as it would have or at a checkpoint, and is the very same run where there
is no checkpoint. -/
theorem ctrlC_deferred (c : Code α) (s : State α) (hs : s.count = some 0) (hc : c.signals ≤ 1) :
    ((exec c s).1 = (exec c.calm s).1 ∨ (exec c s).1 = .cleanExit) ∧
      ((exec c.calm s).1 = .done ∨ (exec c.calm s).1 = .error) ∧
      (exec c s).2.commands.Sublist (exec c.calm s).2.commands ∧
      (c.unchecked = true → (exec c s).1 = (exec c.calm s).1 ∧
        (exec c s).2.log = (exec c.calm s).2.log ∧
        (exec c s).2.record = (exec c.calm s).2.record) := by
  have hbehind : Behind (exec c s) (exec c.calm s) :=
    exec_behind c hs ((Nat.zero_add _).symm ▸ hc) hs (List.Sublist.refl _)
  refine ⟨hbehind.outcome, hbehind.calm, hbehind.commands, fun hun => ?_⟩
  have hself : s = s.reseen 0 s.seen := by
    rw [State.reseen, ← hs]
  obtain ⟨-, k, m, -, heq⟩ := @exec_reseen α c hun s 0 s.seen hs (by omega)
  rw [← hself] at heq
  rw [heq]
  exact ⟨rfl, rfl, rfl⟩

/-- A Ctrl-C arrives while the first of two commands runs. -/
def sampleBody : Code ℕ :=
  .seq (.command 0 true 1 false) (.seq .checkpoint (.command 1 true 0 false))

/-- It is honoured between them. -/
theorem ctrlC_deferred_between :
    let s : State ℕ := { count := some 0, listening := true }
    exec sampleBody s = (.cleanExit, ⟨true, some 1, true, true, [.ran 0 true, .armed], 1⟩) ∧
      (exec sampleBody s).2.commands.Sublist (exec sampleBody.calm s).2.commands :=
  ⟨rfl, (ctrlC_deferred sampleBody _ rfl (by decide)).2.2.1⟩

/-! ## The record -/

/-- What a log says of the record. -/
structure Recorded (s : State α) : Prop where
  guarded : Guarded s.log
  record : s.record = onDisk s.log

/-- The same inside a scope. -/
structure Inside (s : State α) : Prop extends Recorded s where
  armed : s.armed = s.record
  listening : s.listening = true ∨ s.armed = true

theorem Recorded.arm (h : Recorded s) (harmed : s.armed = s.record) :
    Recorded s.arm ∧ s.arm.armed = true ∧ s.arm.record = true := by
  rw [State.arm]
  cases hs : s.armed with
  | true => exact ⟨h, hs, harmed.symm.trans hs⟩
  | false => exact ⟨⟨⟨h.record.symm.trans (harmed.symm.trans hs), h.guarded⟩, rfl⟩, rfl, rfl⟩

/-- A change of the system is announced. -/
theorem Inside.announce (h : Inside s) {mutates : Bool} :
    Inside (s.announce mutates) ∧ (mutates = true → (s.announce mutates).record = true) := by
  obtain ⟨harm, harmed, hrecord⟩ := h.toRecorded.arm h.armed
  rw [State.announce]
  split
  case isTrue hl => exact ⟨⟨harm, harmed.trans hrecord.symm, .inr harmed⟩, fun _ => hrecord⟩
  case isFalse hl =>
    refine ⟨h, fun hm => ?_⟩
    obtain hlisten | hs := h.listening
    · exact absurd ((Bool.and_eq_true _ _).mpr ⟨hm, hlisten⟩) hl
    · exact h.armed.symm.trans hs

/-- Code inside a scope changes the system with the record on disk. -/
theorem exec_inside (c : Code α) {s : State α} (h : Inside s) : Inside (exec c s).2 := by
  induction c generalizing s with
  | skip | checkpoint => exact h
  | command a mutates n fails =>
    obtain ⟨hs, hrecord⟩ := @Inside.announce α s h mutates
    exact ⟨⟨⟨fun hm => hs.record.symm.trans (hrecord hm), hs.guarded⟩, hs.record⟩, hs.armed,
      hs.listening⟩
  | seq c d ihc ihd =>
    rw [exec]
    split
    · exact ihd (ihc h)
    · exact ihc h
  | attempt c d ihc ihd =>
    rw [exec]
    split
    · exact ihd (ihc h)
    · exact ihc h
  | ensure c d ihc ihd =>
    rw [exec]
    split
    · exact ihc h
    · exact ihd (ihc h)

/-- What a scope keeps, and what its success says. -/
structure ScopeSpec (s : State α) (r : Outcome × State α) : Prop extends Recorded r.2 where
  count : r.2.count = none
  success : r.1 = .done → r.2.seen = s.seen ∧ r.2.record = false

variable {sc : Scope α}

/-- The end of a scope in which `k` signals arrived. -/
theorem Scope.leave_spec {r : Outcome × State α} (h : Recorded r.2)
    (hseen : ∃ k, r.2.count = some k ∧ r.2.seen = s.seen + k) : ScopeSpec s (sc.leave r) := by
  obtain ⟨k, hk, hseen⟩ := hseen
  have hfail : ∀ {o : Outcome} {l : ℕ}, o ≠ .done →
      ScopeSpec s (o, { r.2 with count := none, listening := false, seen := l }) :=
    fun ho => ⟨⟨h.guarded, h.record⟩, rfl, fun hdone => absurd hdone ho⟩
  rw [Scope.leave]
  split
  case h_1 =>
    dsimp only
    split
    case isTrue => exact hfail (by decide)
    case isFalse hl =>
      refine ⟨⟨h.guarded, rfl⟩, rfl, fun hdone => ⟨?_, rfl⟩⟩
      have hzero : k = 0 := by
        rw [hk] at hdone
        have hdone : (if decide (0 < k) then Outcome.interrupt else .done) = .done := hdone
        by_contra hne
        rw [if_pos (decide_eq_true (Nat.pos_of_ne_zero hne))] at hdone
        exact absurd hdone (by decide)
      show r.2.seen + sc.leaving = s.seen
      omega
  case h_2 => exact hfail (by decide)
  case h_3 ho _ => exact hfail ho

/-- **A scope keeps the record**, and succeeds only if no signal arrived. -/
theorem Scope.run_spec (h : Recorded s) (hs : s.count = none) : ScopeSpec s (sc.run s) := by
  have hfail : ∀ {o : Outcome} {s' : State α}, o ≠ .done → Recorded s' → s'.count = none →
      ScopeSpec s (o, s') := fun ho hs' hcount => ⟨hs', hcount, fun hdone => absurd hdone ho⟩
  have hcount : (s.arrive sc.entering).count = none := congrArg (Option.map _) hs
  rw [Scope.run]
  dsimp only
  split
  case isTrue => exact hfail (by decide) ⟨h.guarded, h.record⟩ hcount
  case isFalse he =>
    have hzero : sc.entering = 0 := Nat.eq_zero_of_not_pos he
    split
    case isTrue => exact hfail (by decide) ⟨h.guarded, h.record⟩ hcount
    case isFalse hstale =>
      -- Nothing is on disk when the lock is taken.
      have hclean : ∀ s', s' = (if (s.arrive sc.entering).record then
          (s.arrive sc.entering).clear else s.arrive sc.entering) →
          Recorded s' ∧ s'.record = false ∧ s'.count = none ∧ s'.seen = s.seen := by
        rintro s' rfl
        have hseen : s.seen + sc.entering = s.seen := by omega
        split
        case isTrue => exact ⟨⟨h.guarded, rfl⟩, rfl, hcount, hseen⟩
        case isFalse hr =>
          exact ⟨⟨h.guarded, h.record⟩, Bool.eq_false_iff.mpr hr, hcount, hseen⟩
      generalize (if (s.arrive sc.entering).record then
          (s.arrive sc.entering).clear else s.arrive sc.entering) = s' at hclean
      obtain ⟨hrec, hoff, hnone, hseen⟩ := hclean s' rfl
      split
      case isTrue => exact hfail (by decide) hrec hnone
      case isFalse =>
        have hstart : ∀ s₀, s₀ = (if sc.eager then { s' with armed := false }.arm
            else { s' with armed := false }) →
            Inside { s₀ with count := some 0, listening := !sc.eager } ∧ s₀.seen = s.seen := by
          rintro s₀ rfl
          obtain ⟨harm, harmed, hrecord⟩ :=
            @Recorded.arm α { s' with armed := false } ⟨hrec.guarded, hrec.record⟩ hoff.symm
          cases sc.eager with
          | true =>
            exact ⟨⟨⟨harm.guarded, harm.record⟩, harmed.trans hrecord.symm, .inr harmed⟩,
              (@arm_frame α { s' with armed := false }).2.1.trans hseen⟩
          | false => exact ⟨⟨⟨hrec.guarded, hrec.record⟩, hoff.symm, .inl rfl⟩, hseen⟩
        obtain ⟨hinside, hseen⟩ := hstart _ rfl
        refine Scope.leave_spec (exec_inside sc.body hinside).toRecorded ?_
        obtain ⟨k, hk, -, -, hcounted⟩ := exec_counted sc.body
          (s := { (if sc.eager then { s' with armed := false }.arm
            else { s' with armed := false }) with count := some 0, listening := !sc.eager }) rfl
        exact ⟨k, hk, hcounted.trans (congrArg (· + k) hseen)⟩

theorem done_of_exit {o : Outcome} {exitCode : ℕ} (h : o.exit exitCode = .code 0) : o = .done := by
  cases o with
  | done => rfl
  | error | cleanExit => exact absurd (Exit.code.inj h) Nat.one_ne_zero
  | interrupt | killed => exact absurd h (by simp [Outcome.exit])

/-- A verb keeps the record; exit code 0 says that no signal arrived and that no record is left. -/
theorem runVerb_spec (v : Verb α) (h : Recorded s) (hs : s.count = none) :
    Recorded (runVerb v s).2 ∧ (runVerb v s).2.count = none ∧
      (v.pre = .proceed → (runVerb v s).1 = .code 0 →
        (runVerb v s).2.seen = s.seen ∧ (runVerb v s).2.record = false) := by
  have hspec : ScopeSpec s (v.scope.run s) := Scope.run_spec h hs
  rw [runVerb]
  cases v.pre with
  | raises | skip | block => exact ⟨h, hs, fun hp => absurd hp (by simp)⟩
  | proceed =>
    exact ⟨hspec.toRecorded, hspec.count, fun _ hcode => hspec.success (done_of_exit hcode)⟩

end Sysforge.Interrupt
