import Sysforge.Foundations.Run
import Sysforge.Makepkg.JobCap

/-!
# Pacing requests

`RateLimiter` and the requests that the scheduler sends through it, one at a time: the query of the
AUR RPC, fetches and clones. Times are ticks of the monotonic clock. Whatever runs takes time, and a
sleep may take longer than it was asked to.
-/

namespace Sysforge.Network

open Text

/-! ## The limiter -/

/-- `RateLimiter`. -/
structure RateLimiter where
  minGitInterval : ℕ
  defaultRetryAfter : ℕ
  notBefore : ℕ := 0
  lastGitFetch : ℕ := 0
  penaltySource : Text := []

namespace RateLimiter

variable (l : RateLimiter)

/-- `remaining_penalty_s`. -/
def remainingPenalty (now : ℕ) : ℕ := l.notBefore - now

/-- `_wait_for_penalty`, which is `wait_before_rpc` too: the time after it, `late` ticks later than asked. -/
def waitForPenalty (now late : ℕ) : ℕ := now + l.remainingPenalty now + late

/-- `wait_before_fetch`, with what its two sleeps take longer. -/
def waitBeforeFetch (now late late' : ℕ) : RateLimiter × ℕ :=
  let now := l.waitForPenalty now late
  let remaining := l.minGitInterval - (now - l.lastGitFetch)
  let now := if 0 < remaining then now + remaining + late' else now
  ({ l with lastGitFetch := now }, now)

/-- The length of a penalty: the default for none and for none that is positive. -/
def penalty (seconds : Option ℤ) : ℕ :=
  match seconds with
  | none => l.defaultRetryAfter
  | some n => if n ≤ 0 then l.defaultRetryAfter else n.toNat

/-- `apply_retry_after`. -/
def applyRetryAfter (now : ℕ) (seconds : Option ℤ) (source : Text) : RateLimiter :=
  let target := now + l.penalty seconds
  if l.notBefore < target then { l with notBefore := target, penaltySource := source } else l

/-- The limiter after an answer, and the end of the penalty that it earned. -/
def settle (answered : ℕ) (earned : Option (Option ℤ × Text)) : RateLimiter × ℕ :=
  match earned with
  | some (seconds, source) =>
    (l.applyRetryAfter answered seconds source, answered + l.penalty seconds)
  | none => (l, 0)

end RateLimiter

/-! ## Answers -/

/-- How a request of the RPC ends. -/
inductive HttpAnswer
  | ok
  | httpError (code : ℕ) (retryAfter : Option Text)
  | failed

/-- What a git command prints. -/
structure GitAnswer where
  returncode : ℤ
  stdout : Text
  stderr : Text

/-- `parse_retry_after`, where a second has `second` ticks and `date` says how far ahead a date is. -/
def parseRetryAfter (second : ℕ) (date : Text → Option ℤ) (header : Option Text) : Option ℤ :=
  match header.map strip with
  | none | some [] => none
  | some text =>
    match BuildThrottle.parseInt text with
    | some n => some (max 0 n * second)
    | none => (date text).map (max 0)

/-- `RATE_LIMIT_GIT_ERRORS`. -/
def rateLimitGitErrors : List Text :=
  ["error: 429".toList, "Too Many Requests".toList, "error: 503".toList, "error: 502".toList]

/-- `is_rate_limit_error`. -/
def isRateLimitError (err : Text) : Bool := rateLimitGitErrors.any fun marker => contains marker err

/-! ## The scheduler's requests -/

/-- What the scheduler sends, with how it ends. -/
inductive Action
  /-- `aur_info`, the one query of `_ensure_rpc`. -/
  | rpc (answer : HttpAnswer)
  /-- `git_fetch_and_compare`; `none` is a timeout. -/
  | fetch (answer : Option GitAnswer)
  /-- `_fetch_repo_tags`. -/
  | fetchTags (answer : Option GitAnswer)
  /-- `pkgctl_checkout` or `aur_clone`, with the error they raise. -/
  | clone (repo : Bool) (error : Option Text)

/-- Whether an action is git's. -/
def Action.git : Action → Bool
  | .rpc _ => false
  | _ => true

/-- `run_throttled_git` sees a rate limit. -/
def GitAnswer.limited (a : GitAnswer) : Bool := a.returncode ≠ 0 && isRateLimitError a.stderr

/-- `git_fetch_and_compare` ends with `rate_limited`. -/
def GitAnswer.rateLimited (a : GitAnswer) : Bool :=
  a.returncode ≠ 0 && isRateLimitError (strip (a.stdout ++ a.stderr))

/-- The penalty that an answer earns, and its source. -/
def Action.earned (second : ℕ) (date : Text → Option ℤ) : Action → Option (Option ℤ × Text)
  | .rpc (.httpError code header) =>
    if code = 429 ∨ code = 503 then
      some (parseRetryAfter second date header, "HTTP ".toList ++ ofInt code)
    else none
  | .rpc _ => none
  | .fetch a | .fetchTags a =>
    if a.any GitAnswer.limited then some (none, "git rate-limit".toList) else none
  | .clone repo error =>
    if !repo && error.any isRateLimitError then some (none, "AUR clone 429/503".toList) else none

/-- Whether the scheduler asks how long the penalty is. -/
def Action.checks : Action → Bool
  | .rpc _ | .fetchTags _ => false
  | .fetch a => a.any GitAnswer.rateLimited
  | .clone repo error => !repo && error.any isRateLimitError

/-- A request that went out. -/
structure Sent where
  git : Bool
  /-- When the scheduler asked for it. -/
  asked : ℕ
  /-- When the limiter let it go. -/
  start : ℕ
  /-- What the sleeps took longer. -/
  slack : ℕ
  /-- The end of the penalty that its answer earned. -/
  lockedUntil : ℕ

/-- `SourceSyncScheduler`, as far as it paces its requests, with the clock and what went out, the
newest first. -/
structure Scheduler where
  limiter : RateLimiter
  rateLimitAbort : ℕ
  rpcDone : Bool := false
  aborted : Bool := false
  now : ℕ
  log : List Sent := []

/-- What a step takes: the sleeps longer, the request, and the look at the penalty after it. -/
structure Delays where
  late : ℕ := 0
  late' : ℕ := 0
  took : ℕ := 0
  check : ℕ := 0

namespace Scheduler

variable (second : ℕ) (date : Text → Option ℤ) (s : Scheduler) (a : Action) (d : Delays)

/-- The wait before an action: the limiter after it, and the time. -/
def wait : RateLimiter × ℕ :=
  if a.git then s.limiter.waitBeforeFetch s.now d.late d.late'
  else (s.limiter, s.limiter.waitForPenalty s.now d.late)

/-- An action goes out and is answered. -/
def send : Scheduler :=
  let w := s.wait a d
  let answered := w.2 + d.took
  let settled := w.1.settle answered (a.earned second date)
  let now := answered + d.check
  { s with
    limiter := settled.1
    rpcDone := s.rpcDone || !a.git
    aborted := s.aborted ||
      (a.checks && decide (s.rateLimitAbort < settled.1.remainingPenalty now))
    now := now
    log := {
      git := a.git
      asked := s.now
      start := w.2
      slack := d.late + d.late'
      lockedUntil := settled.2 } :: s.log }

/-- `_ensure_rpc` asks once, `_sync_one` not after an abort. -/
def refuses : Bool := if a.git then s.aborted else s.rpcDone

/-- The scheduler has a request. -/
def request : Scheduler := if s.refuses a then s else s.send second date a d

end Scheduler

/-- What happens: time passes, or the scheduler has a request. -/
inductive Event
  | elapse (ticks : ℕ)
  | request (a : Action) (d : Delays)

/-- One event. -/
def step (second : ℕ) (date : Text → Option ℤ) (s : Scheduler) : Event → Scheduler
  | .elapse ticks => { s with now := s.now + ticks }
  | .request a d => s.request second date a d

/-- A new scheduler. -/
def init (minGitInterval defaultRetryAfter rateLimitAbort now : ℕ) : Scheduler where
  limiter := { minGitInterval := minGitInterval, defaultRetryAfter := defaultRetryAfter }
  rateLimitAbort := rateLimitAbort
  now := now

/-- A request that went out right after what kept it: when it was asked for, a penalty, or the
fetch before it; the clock counts as one of time zero. -/
def Prompt (interval : ℕ) (e : Sent) (earlier : List Sent) : Prop :=
  e.start ≤ e.asked + e.slack ∨ (∃ e' ∈ earlier, e.start ≤ e'.lockedUntil + e.slack) ∨
    e.git = true ∧ (e.start ≤ interval + e.slack ∨
      ∃ e' ∈ earlier, e'.git = true ∧ e.start ≤ e'.start + interval + e.slack)

/-- **Paced requests**: none goes out in a penalty, git's are an interval apart, and none waits
longer than it has to. -/
structure Paced (interval : ℕ) (log : List Sent) : Prop where
  lockout : log.Pairwise fun later earlier => earlier.lockedUntil ≤ later.start
  spaced : log.Pairwise fun later earlier =>
    later.git = true → earlier.git = true → earlier.start + interval ≤ later.start
  prompt : ∀ later e earlier, log = later ++ e :: earlier → Prompt interval e earlier

end Sysforge.Network
