import Sysforge.Network.RateLimit

/-!
# Runs of paced requests

The limiter keeps two times: the end of the longest penalty so far and the last fetch. What a wait
ends at is not before either, and not later than it has to be.
-/

namespace Sysforge.Network

variable {second : ℕ} {date : Text → Option ℤ} {s : Scheduler} {a : Action} {d : Delays}
  {l : RateLimiter} {now late late' : ℕ} {seconds : Option ℤ} {source : Text}

/-! ## The limiter -/

namespace RateLimiter

theorem le_waitForPenalty : now ≤ l.waitForPenalty now late ∧
    l.notBefore ≤ l.waitForPenalty now late := by
  rw [waitForPenalty, remainingPenalty]
  omega

theorem waitForPenalty_le : l.waitForPenalty now late ≤ now + late ∨
    0 < l.notBefore ∧ l.waitForPenalty now late ≤ l.notBefore + late := by
  rw [waitForPenalty, remainingPenalty]
  omega

/-- A fetch waits for the penalty and for the interval. -/
theorem le_waitBeforeFetch (h : l.lastGitFetch ≤ now) :
    l.waitForPenalty now late ≤ (l.waitBeforeFetch now late late').2 ∧
      l.lastGitFetch + l.minGitInterval ≤ (l.waitBeforeFetch now late late').2 := by
  have hle := @le_waitForPenalty l now late
  rw [waitBeforeFetch]
  dsimp only
  split <;> omega

/-- It waits for nothing else. -/
theorem waitBeforeFetch_le (h : l.lastGitFetch ≤ now) :
    (l.waitBeforeFetch now late late').2 = l.waitForPenalty now late ∨
      (l.waitBeforeFetch now late late').2 = l.lastGitFetch + l.minGitInterval + late' := by
  have hle := @le_waitForPenalty l now late
  rw [waitBeforeFetch]
  dsimp only
  split <;> omega

theorem applyRetryAfter_notBefore : (l.applyRetryAfter now seconds source).notBefore =
    max l.notBefore (now + l.penalty seconds) := by
  rw [applyRetryAfter]
  split
  case isTrue h => exact (max_eq_right h.le).symm
  case isFalse h => exact (max_eq_left (not_lt.mp h)).symm

theorem applyRetryAfter_frame :
    (l.applyRetryAfter now seconds source).lastGitFetch = l.lastGitFetch ∧
      (l.applyRetryAfter now seconds source).minGitInterval = l.minGitInterval ∧
      (l.applyRetryAfter now seconds source).defaultRetryAfter = l.defaultRetryAfter := by
  rw [applyRetryAfter]
  split
  · exact ⟨rfl, rfl, rfl⟩
  · exact ⟨rfl, rfl, rfl⟩

/-- What an answer does to the limiter. -/
theorem settle_spec (earned : Option (Option ℤ × Text)) :
    (l.settle now earned).1.notBefore = max l.notBefore (l.settle now earned).2 ∧
      (l.settle now earned).1.lastGitFetch = l.lastGitFetch ∧
      (l.settle now earned).1.minGitInterval = l.minGitInterval ∧
      (l.settle now earned).1.defaultRetryAfter = l.defaultRetryAfter := by
  cases earned with
  | none => exact ⟨(max_eq_left (Nat.zero_le _)).symm, rfl, rfl, rfl⟩
  | some p => exact ⟨applyRetryAfter_notBefore, applyRetryAfter_frame⟩

end RateLimiter

/-- A look at the penalty follows answers that earn the default one, if any. -/
theorem settle_of_checks (h : a.checks = true) :
    (l.settle now (a.earned second date)).2 ≤ now + l.defaultRetryAfter := by
  have hnone : ∀ source, (l.settle now (some (none, source))).2 = now + l.defaultRetryAfter :=
    fun _ => rfl
  cases a with
  | rpc answer => exact absurd h Bool.false_ne_true
  | fetchTags answer => exact absurd h Bool.false_ne_true
  | fetch answer =>
    rw [Action.earned]
    split
    · exact (hnone _).le
    · exact Nat.zero_le _
  | clone repo error =>
    rw [Action.earned]
    split
    · exact (hnone _).le
    · exact Nat.zero_le _

/-! ## A request -/

/-- What the limiter knows after a wait that ends at `start`. -/
structure Waited (s : Scheduler) (git : Bool) (slack : ℕ) (w : RateLimiter × ℕ) : Prop where
  interval : w.1.minGitInterval = s.limiter.minGitInterval
  default : w.1.defaultRetryAfter = s.limiter.defaultRetryAfter
  notBefore : w.1.notBefore = s.limiter.notBefore
  lastGitFetch : w.1.lastGitFetch = if git then w.2 else s.limiter.lastGitFetch
  now_le : s.now ≤ w.2
  notBefore_le : s.limiter.notBefore ≤ w.2
  spaced : git = true → s.limiter.lastGitFetch + s.limiter.minGitInterval ≤ w.2
  prompt : w.2 ≤ s.now + slack ∨ 0 < s.limiter.notBefore ∧ w.2 ≤ s.limiter.notBefore + slack ∨
    git = true ∧ w.2 ≤ s.limiter.lastGitFetch + s.limiter.minGitInterval + slack

theorem Scheduler.wait_spec (h : s.limiter.lastGitFetch ≤ s.now) :
    Waited s a.git (d.late + d.late') (s.wait a d) := by
  obtain ⟨hnow, hpenalty⟩ := @RateLimiter.le_waitForPenalty s.limiter s.now d.late
  have hprompt := @RateLimiter.waitForPenalty_le s.limiter s.now d.late
  rw [Scheduler.wait]
  cases a.git with
  | false =>
    refine ⟨rfl, rfl, rfl, rfl, hnow, hpenalty, fun h => absurd h Bool.false_ne_true, ?_⟩
    rw [if_neg Bool.false_ne_true]
    dsimp only
    omega
  | true =>
    rw [if_pos rfl]
    obtain ⟨hle, hspaced⟩ := @RateLimiter.le_waitBeforeFetch s.limiter s.now d.late d.late' h
    refine ⟨rfl, rfl, rfl, rfl, hnow.trans hle, hpenalty.trans hle, fun _ => hspaced, ?_⟩
    obtain heq | heq := @RateLimiter.waitBeforeFetch_le s.limiter s.now d.late d.late' h
    · rw [heq]
      omega
    · exact .inr (.inr ⟨rfl, by omega⟩)

/-- What a scheduler knows of what went out. -/
structure Inv (s : Scheduler) : Prop where
  paced : Paced s.limiter.minGitInterval s.log
  le_notBefore : ∀ e ∈ s.log, e.lockedUntil ≤ s.limiter.notBefore
  notBefore : 0 < s.limiter.notBefore → ∃ e ∈ s.log, e.lockedUntil = s.limiter.notBefore
  le_lastGitFetch : ∀ e ∈ s.log, e.git = true → e.start ≤ s.limiter.lastGitFetch
  lastGitFetch : 0 < s.limiter.lastGitFetch →
    ∃ e ∈ s.log, e.git = true ∧ e.start = s.limiter.lastGitFetch
  lastGitFetch_le : s.limiter.lastGitFetch ≤ s.now
  aborted : s.aborted = true → s.rateLimitAbort < s.limiter.defaultRetryAfter
  queries : s.log.countP (fun e => !e.git) = if s.rpcDone then 1 else 0

theorem Paced.cons {interval : ℕ} {log : List Sent} {e : Sent} (h : Paced interval log)
    (hlock : ∀ e' ∈ log, e'.lockedUntil ≤ e.start)
    (hspaced : e.git = true → ∀ e' ∈ log, e'.git = true → e'.start + interval ≤ e.start)
    (hprompt : Prompt interval e log) : Paced interval (e :: log) where
  lockout := List.pairwise_cons.mpr ⟨hlock, h.lockout⟩
  spaced := List.pairwise_cons.mpr ⟨fun e' he' hgit hgit' => hspaced hgit e' he' hgit', h.spaced⟩
  prompt later e' earlier heq := by
    cases later with
    | nil =>
      obtain ⟨rfl, rfl⟩ := List.cons.inj heq
      exact hprompt
    | cons x later => exact h.prompt later e' earlier (List.cons.inj heq).2

/-- What a wait ends at, from the requests before. -/
theorem Inv.prompt (h : Inv s) {e : Sent} {w : RateLimiter × ℕ} (hw : Waited s e.git e.slack w)
    (hstart : e.start = w.2) (hasked : e.asked = s.now) :
    Prompt s.limiter.minGitInterval e s.log := by
  rw [Prompt, hstart, hasked]
  obtain hle | ⟨hpos, hle⟩ | ⟨hgit, hle⟩ := hw.prompt
  · exact .inl hle
  · obtain ⟨e', he', heq⟩ := h.notBefore hpos
    exact .inr (.inl ⟨e', he', heq ▸ hle⟩)
  · refine .inr (.inr ⟨hgit, ?_⟩)
    obtain hzero | hpos := Nat.eq_zero_or_pos s.limiter.lastGitFetch
    · exact .inl (by omega)
    · obtain ⟨e', he', hgit', heq⟩ := h.lastGitFetch hpos
      exact .inr ⟨e', he', hgit', heq ▸ hle⟩

/-- **A request keeps the invariant.** -/
theorem Inv.send (h : Inv s) (hfirst : a.git = false → s.rpcDone = false) :
    Inv (s.send second date a d) := by
  have hw : Waited s a.git (d.late + d.late') (s.wait a d) :=
    Scheduler.wait_spec h.lastGitFetch_le
  obtain ⟨hnb, hlast, hinterval, hdefault⟩ :=
    @RateLimiter.settle_spec (s.wait a d).1 ((s.wait a d).2 + d.took) (a.earned second date)
  have hchecks := @settle_of_checks second date a (s.wait a d).1 ((s.wait a d).2 + d.took)
  rw [Scheduler.send]
  generalize (s.wait a d).1.settle ((s.wait a d).2 + d.took) (a.earned second date) = settled at *
  generalize s.wait a d = w at *
  rw [hw.lastGitFetch] at hlast
  rw [hw.interval] at hinterval
  rw [hw.default] at hdefault hchecks
  rw [hw.notBefore] at hnb
  refine ⟨?_, ?_, ?_, ?_, ?_, ?_, ?_, ?_⟩
  · show Paced settled.1.minGitInterval _
    rw [hinterval]
    refine h.paced.cons ?_ ?_ (h.prompt hw rfl rfl)
    · exact fun e' he' => (h.le_notBefore e' he').trans hw.notBefore_le
    · exact fun hgit e' he' hgit' =>
        (Nat.add_le_add_right (h.le_lastGitFetch e' he' hgit') _).trans (hw.spaced hgit)
  · intro e he
    show e.lockedUntil ≤ settled.1.notBefore
    rw [hnb]
    obtain rfl | he := List.mem_cons.mp he
    · exact le_max_right _ _
    · exact (h.le_notBefore e he).trans (le_max_left _ _)
  · intro hpos
    show ∃ e ∈ _ :: s.log, e.lockedUntil = settled.1.notBefore
    rw [hnb]
    obtain hle | hle := le_total s.limiter.notBefore settled.2
    · exact ⟨_, List.mem_cons_self, (max_eq_right hle).symm⟩
    · have hpos : 0 < s.limiter.notBefore := by
        have hpos : 0 < settled.1.notBefore := hpos
        rwa [hnb, max_eq_left hle] at hpos
      obtain ⟨e, he, heq⟩ := h.notBefore hpos
      exact ⟨e, List.mem_cons_of_mem _ he, heq.trans (max_eq_left hle).symm⟩
  · intro e he hgit
    show e.start ≤ settled.1.lastGitFetch
    rw [hlast]
    obtain rfl | he := List.mem_cons.mp he
    · exact (if_pos hgit).ge
    · have hle := h.le_lastGitFetch e he hgit
      split
      case isTrue hgit' => exact hle.trans ((Nat.le_add_right _ _).trans (hw.spaced hgit'))
      case isFalse => exact hle
  · intro hpos
    show ∃ e ∈ _ :: s.log, e.git = true ∧ e.start = settled.1.lastGitFetch
    have hpos : 0 < settled.1.lastGitFetch := hpos
    rw [hlast] at hpos ⊢
    cases hgit : a.git with
    | true => exact ⟨_, List.mem_cons_self, rfl, rfl⟩
    | false =>
      rw [hgit] at hpos
      obtain ⟨e, he, hgit', heq⟩ := h.lastGitFetch hpos
      exact ⟨e, List.mem_cons_of_mem _ he, hgit', heq⟩
  · show settled.1.lastGitFetch ≤ w.2 + d.took + d.check
    have hle := h.lastGitFetch_le.trans hw.now_le
    rw [hlast]
    split <;> omega
  · intro haborted
    show s.rateLimitAbort < settled.1.defaultRetryAfter
    rw [hdefault]
    obtain habort | hcheck := (Bool.or_eq_true _ _).mp haborted
    · exact h.aborted habort
    · obtain ⟨hc, hlt⟩ := (Bool.and_eq_true _ _).mp hcheck
      have hlt := of_decide_eq_true hlt
      have hlock := hchecks hc
      have hstart := hw.notBefore_le
      rw [RateLimiter.remainingPenalty, hnb] at hlt
      omega
  · show (_ :: s.log).countP (fun e => !e.git) = if s.rpcDone || !a.git then 1 else 0
    rw [List.countP_cons, h.queries]
    cases hgit : a.git with
    | true => simp
    | false => simp [hfirst hgit]

/-- The settings stay. -/
structure Settings (minGitInterval defaultRetryAfter rateLimitAbort : ℕ) (s : Scheduler) :
    Prop where
  interval : s.limiter.minGitInterval = minGitInterval
  default : s.limiter.defaultRetryAfter = defaultRetryAfter
  abort : s.rateLimitAbort = rateLimitAbort

variable {minGitInterval defaultRetryAfter rateLimitAbort : ℕ}

theorem Settings.send (h : Settings minGitInterval defaultRetryAfter rateLimitAbort s)
    (hw : Waited s a.git (d.late + d.late') (s.wait a d)) :
    Settings minGitInterval defaultRetryAfter rateLimitAbort (s.send second date a d) := by
  obtain ⟨-, -, hinterval, hdefault⟩ :=
    @RateLimiter.settle_spec (s.wait a d).1 ((s.wait a d).2 + d.took) (a.earned second date)
  exact ⟨hinterval.trans (hw.interval.trans h.interval), hdefault.trans (hw.default.trans h.default),
    h.abort⟩

/-- What an event keeps. -/
theorem Inv.step (h : Inv s) (hset : Settings minGitInterval defaultRetryAfter rateLimitAbort s)
    (event : Event) : Inv (step second date s event) ∧
      Settings minGitInterval defaultRetryAfter rateLimitAbort (step second date s event) := by
  cases event with
  | elapse ticks =>
    exact ⟨⟨h.paced, h.le_notBefore, h.notBefore, h.le_lastGitFetch, h.lastGitFetch,
      h.lastGitFetch_le.trans (Nat.le_add_right _ _), h.aborted, h.queries⟩,
      ⟨hset.interval, hset.default, hset.abort⟩⟩
  | request a d =>
    rw [Network.step, Scheduler.request]
    split
    case isTrue => exact ⟨h, hset⟩
    case isFalse hgo =>
      refine ⟨h.send fun hgit => ?_, hset.send (Scheduler.wait_spec h.lastGitFetch_le)⟩
      rw [Scheduler.refuses, hgit, if_neg Bool.false_ne_true] at hgo
      exact Bool.eq_false_of_not_eq_true hgo

/-- A scheduler that gave up stays so, and sends git nothing. -/
theorem step_of_aborted (h : s.aborted = true) (event : Event) :
    (step second date s event).aborted = true ∧
      (step second date s event).log.countP Sent.git = s.log.countP Sent.git := by
  cases event with
  | elapse ticks => exact ⟨h, rfl⟩
  | request a d =>
    rw [Network.step, Scheduler.request]
    split
    case isTrue => exact ⟨h, rfl⟩
    case isFalse hgo =>
      have hgit : a.git = false := by
        cases hgit : a.git with
        | false => rfl
        | true =>
          rw [Scheduler.refuses, hgit, if_pos rfl] at hgo
          exact absurd h hgo
      refine ⟨(Bool.or_eq_true _ _).mpr (.inl h), ?_⟩
      rw [Scheduler.send, List.countP_cons, hgit]
      rfl

end Sysforge.Network
