import Sysforge.Git.SourceFreeze
import Sysforge.Git.LocalWork

/-!
# Runs under the source freeze

Each seam asks the policy before it reaches a remote, so no path of the scheduler gets around it. A
refused sync also leaves the directory alone, but for one without a `PKGBUILD`, which is purged
before the clone is refused.
-/

namespace Sysforge.Git.Freeze

open Run (Each)

variable {κ δ : Type*} [DecidableEq κ] {h : History κ} {d : Differ} {lower : Text → Text}

/-! ## One sync -/

section Sync

variable {isVcs : Bool} {dir : String} {cfg : Config} {req : Request} {cmd : Commands κ}
  {s : Scheduler κ} {c : Checkout κ} {checkout : Option (Checkout κ)}

omit [DecidableEq κ] in
theorem clone_asked (ha : (clone h cfg req cmd s).asked = true) :
    cfg.frozen (cloneKind req) = false := by
  by_contra hf
  rw [clone, if_pos (Bool.eq_true_of_not_eq_false hf)] at ha
  exact absurd ha Bool.false_ne_true

theorem fetch_of_frozen {r : Repo κ} {repo stable : Bool} {a : Sync κ} (hf : a.frozen = true) :
    Git.fetch h d lower r isVcs repo stable a = (⟨.frozen, none, none⟩, r, []) := by
  rw [Git.fetch, if_pos hf]

/-- A frozen fetch asks nobody and changes nothing. -/
theorem syncFetch_of_frozen (hf : cfg.frozen .sourceFetch = true) :
    (syncFetch h d lower isVcs cfg req cmd s c).asked = false ∧
      (syncFetch h d lower isVcs cfg req cmd s c).checkout = some c := by
  rw [syncFetch, fetch_of_frozen hf, afterFetch]
  split
  · exact ⟨rfl, rfl⟩
  · exact ⟨rfl, rfl⟩

theorem fetchUnlessCurrent_asked
    (ha : (fetchUnlessCurrent h d lower isVcs cfg req cmd s c).asked = true) :
    cfg.frozen .sourceFetch = false := by
  by_contra hf
  have hf := Bool.eq_true_of_not_eq_false hf
  rw [fetchUnlessCurrent] at ha
  split at ha
  · split at ha
    · exact absurd ha Bool.false_ne_true
    · exact absurd ha Bool.false_ne_true
  · exact absurd ((syncFetch_of_frozen hf).1.symm.trans ha) Bool.false_ne_true

theorem fetchUnlessCurrent_checkout (hf : cfg.frozen .sourceFetch = true) :
    (fetchUnlessCurrent h d lower isVcs cfg req cmd s c).checkout = some c := by
  rw [fetchUnlessCurrent]
  split
  · split
    · rfl
    · rfl
  · exact (syncFetch_of_frozen hf).2

/-- What asks a remote was permitted a fetch or a clone. -/
theorem syncOnline_asked (ha : (syncOnline h d lower isVcs dir cfg req cmd s checkout).asked = true) :
    cfg.frozen .sourceFetch = false ∨ cfg.frozen (cloneKind req) = false := by
  cases checkout with
  | none => exact .inr (clone_asked ha)
  | some c =>
    rw [syncOnline] at ha
    split at ha
    · exact .inl (fetchUnlessCurrent_asked ha)
    · split at ha
      · exact absurd ha Bool.false_ne_true
      · exact .inr (clone_asked ha)

/-- A purge that stops the sync asks nobody. -/
theorem cleansrcPurge_error {o : Outcome κ}
    (ho : cleansrcPurge h d lower isVcs dir cfg req cmd s checkout = .error o) : o.asked = false := by
  cases checkout with
  | none => exact absurd ho (by simp [cleansrcPurge])
  | some c =>
    rw [cleansrcPurge] at ho
    split at ho
    · exact absurd ho (by simp)
    split at ho
    · exact Except.error.inj ho ▸ rfl
    split at ho
    · exact Except.error.inj ho ▸ rfl
    split at ho
    · exact Except.error.inj ho ▸ rfl
    · exact absurd ho (by simp)

/-- No sync reaches a remote that the policy refuses. -/
theorem syncOne_asked
    (ha : (syncOne h d lower isVcs dir cfg req cmd s checkout).asked = true) :
    cfg.offline = false ∧ (cfg.frozen .sourceFetch = false ∨ cfg.frozen (cloneKind req) = false) ∧
      (cfg.aurEnabled = false → req.source = .repo ∨ isAurCheckout checkout = false) := by
  rw [syncOne] at ha
  by_cases hlocal : req.source = .localTree
  · rw [if_pos hlocal] at ha
    split at ha
    · exact absurd ha Bool.false_ne_true
    · exact absurd ha Bool.false_ne_true
  rw [if_neg hlocal] at ha
  by_cases haur : (req.source ≠ .repo && !cfg.aurEnabled && isAurCheckout checkout) = true
  · rw [if_pos haur] at ha
    exact absurd ha Bool.false_ne_true
  rw [if_neg haur] at ha
  split at ha
  · exact absurd ha Bool.false_ne_true
  split at ha
  case h_1 o ho => exact absurd ((cleansrcPurge_error ho).symm.trans ha) Bool.false_ne_true
  case h_2 s' checkout' _ =>
    by_cases hoff : cfg.offline = true
    · rw [if_pos hoff] at ha
      exact absurd ha Bool.false_ne_true
    · rw [if_neg hoff] at ha
      refine ⟨Bool.eq_false_of_not_eq_true hoff, syncOnline_asked ha, fun hdisabled => ?_⟩
      by_contra hboth
      obtain ⟨hsource, hcheckout⟩ := not_or.mp hboth
      refine haur ?_
      rw [hdisabled, Bool.eq_true_of_not_eq_false hcheckout, Bool.and_eq_true, Bool.and_eq_true]
      exact ⟨⟨decide_eq_true hsource, rfl⟩, rfl⟩

/-- Where a run may not refresh the package, a purge does not begin. -/
theorem cleansrcPurge_of_denied (hd : cfg.offline = true ∨ ∀ kind, cfg.frozen kind = true) :
    (∃ o, cleansrcPurge h d lower isVcs dir cfg req cmd s checkout = .error o ∧
        o.checkout = checkout) ∨
      cleansrcPurge h d lower isVcs dir cfg req cmd s checkout = .ok (s, checkout) := by
  cases checkout with
  | none => exact .inr rfl
  | some c =>
    rw [cleansrcPurge]
    split
    · exact .inr rfl
    · split
      · exact .inl ⟨_, rfl, rfl⟩
      · rename_i hoff
        rw [if_pos (hd.resolve_left hoff (cloneKind req))]
        exact .inl ⟨_, rfl, rfl⟩

/-- Nor does anything else happen to the directory. -/
theorem syncOne_of_denied (hd : cfg.offline = true ∨ ∀ kind, cfg.frozen kind = true)
    (hp : checkout.all hasPkgbuild = true) :
    (syncOne h d lower isVcs dir cfg req cmd s checkout).checkout = checkout := by
  rw [syncOne]
  split
  · split
    · rfl
    · rfl
  split
  · rfl
  split
  · rfl
  obtain ⟨o, ho, hcheckout⟩ | ho :=
    @cleansrcPurge_of_denied κ _ h d lower isVcs dir cfg req cmd s checkout hd
  · rw [ho]
    exact hcheckout
  · rw [ho]
    dsimp only
    split
    · rfl
    · rename_i hoff
      have hfrozen := hd.resolve_left hoff
      cases checkout with
      | none =>
        rw [syncOnline, clone, if_pos (hfrozen _)]
      | some c =>
        rw [syncOnline, if_pos (show hasPkgbuild c = true from hp)]
        exact fetchUnlessCurrent_checkout (hfrozen _)

end Sync

/-! ## The policy -/

/-- A frozen package that is not thawed is denied every kind of a sync. -/
theorem denies_of_frozen {policy : NetPolicy} {pkgbase : Text} (hf : policy.frozen = true)
    (ht : pkgbase ∉ policy.thawed) (kind : Kind) :
    policy.denies (netKind kind) (some pkgbase) = true := by
  rw [NetPolicy.denies]
  split
  · rfl
  split
  case isTrue hkind =>
    cases kind with
    | sourceFetch | aurClone | repoCheckout => exact absurd hkind (by decide)
  case isFalse =>
    rw [hf, if_neg (by decide)]
    exact decide_eq_true ht

omit [DecidableEq κ] in
theorem config_denied {p : Process κ} {pkgbase : Text} (hp : p.denies pkgbase) :
    (config p.policy p.options pkgbase).offline = true ∨
      ∀ kind, (config p.policy p.options pkgbase).frozen kind = true :=
  hp.imp (fun hoff => hoff) fun hfrozen kind => denies_of_frozen hfrozen.1 hfrozen.2 kind

/-! ## Runs -/

section Runs

variable [DecidableEq δ] {isVcs : Text → Bool} {name : δ → String} {w : World κ δ}

/-- A contact of a sync is allowed. -/
theorem sync_allowed {p : Process κ} {pkgbase : Text} {dir : δ} {req : Request} {cmd : Commands κ}
    (hw : ∀ c ∈ w.contacts, c.Allowed) :
    ∀ c ∈ (w.sync h d lower isVcs name p pkgbase dir req cmd).contacts, c.Allowed := by
  intro c hc
  rw [World.sync] at hc
  dsimp only at hc
  split at hc
  case isFalse => exact hw c hc
  case isTrue ha =>
    obtain rfl | hc := List.mem_cons.mp hc
    · obtain ⟨hoff, hkinds, haur⟩ := syncOne_asked ha
      refine ⟨hoff, fun hfrozen => ?_, fun hdisabled => (haur hdisabled).imp_right fun horigin => ?_⟩
      · by_contra hthaw
        have hden : ∀ kind, (config p.policy p.options pkgbase).frozen kind = true :=
          denies_of_frozen hfrozen hthaw
        obtain hk | hk := hkinds
        · exact Bool.false_ne_true (hk.symm.trans (hden _))
        · exact Bool.false_ne_true (hk.symm.trans (hden _))
      · cases hcheckout : w.checkouts dir with
        | none =>
          rw [hcheckout] at horigin
          exact absurd (show true = false from horigin) (by decide)
        | some c =>
          rw [hcheckout] at horigin
          exact congrArg some (not_not.mp (of_decide_eq_false horigin))
    · exact hw c hc

theorem step_allowed (hw : ∀ c ∈ w.contacts, c.Allowed) (event : Event κ δ) :
    ∀ c ∈ (step h d lower isVcs name w event).contacts, c.Allowed := by
  cases event with
  | user => exact hw
  | start =>
    rw [step]
    split
    · exact hw
    · exact hw
  | rpc =>
    rw [step]
    split
    · exact hw
    · split
      · exact hw
      · exact hw
  | request pkgbase dir req cmd =>
    rw [step]
    split
    · exact hw
    · split
      · exact hw
      · exact sync_allowed hw
  | finish =>
    rw [step]
    split
    · exact hw
    · exact hw

/-- What an event leaves of a directory that is left to the user. -/
theorem step_checkout {dir : δ} {event : Event κ δ} (hp : (w.checkouts dir).all hasPkgbuild = true)
    (hd : Denied dir w event) :
    (step h d lower isVcs name w event).checkouts dir = lastLeft dir (w.checkouts dir) [event] := by
  cases event with
  | user dir' checkout =>
    rw [step, lastLeft, lastLeft]
    by_cases hdir : dir' = dir
    · rw [if_pos hdir]
      subst hdir
      exact Function.update_self ..
    · rw [if_neg hdir]
      exact Function.update_of_ne (Ne.symm hdir) ..
  | start =>
    rw [step]
    split
    · rfl
    · rfl
  | rpc =>
    rw [step]
    split
    · rfl
    · split
      · rfl
      · rfl
  | finish =>
    rw [step]
    split
    · rfl
    · rfl
  | request pkgbase dir' req cmd =>
    rw [step]
    split
    · rfl
    · rename_i p hproc
      split
      · rfl
      · rw [World.sync]
        by_cases hdir : dir' = dir
        · subst hdir
          show Function.update w.checkouts dir' _ dir' = w.checkouts dir'
          rw [Function.update_self]
          exact syncOne_of_denied (config_denied (hd rfl p hproc)) hp
        · exact Function.update_of_ne (Ne.symm hdir) ..

omit [DecidableEq κ] in
theorem lastLeft_cons (dir : δ) (before : Option (Checkout κ)) (event : Event κ δ)
    (events : List (Event κ δ)) : lastLeft dir before (event :: events) =
      lastLeft dir (lastLeft dir before [event]) events := by
  cases event <;> rfl

omit [DecidableEq κ] in
/-- What the user leaves in a directory has a `PKGBUILD`. -/
theorem hasPkgbuild_lastLeft {dir : δ} {event : Event κ δ}
    (hp : (w.checkouts dir).all hasPkgbuild = true) (hd : Denied dir w event) :
    (lastLeft dir (w.checkouts dir) [event]).all hasPkgbuild = true := by
  cases event with
  | user dir' checkout =>
    rw [lastLeft, lastLeft]
    split
    case isTrue hdir => exact hd hdir
    case isFalse => exact hp
  | _ => exact hp

theorem run_checkout {dir : δ} (events : List (Event κ δ))
    (hp : (w.checkouts dir).all hasPkgbuild = true)
    (hden : Each (step h d lower isVcs name) (Denied dir) w events) :
    (Run.run (step h d lower isVcs name) w events).checkouts dir =
      lastLeft dir (w.checkouts dir) events := by
  induction events generalizing w with
  | nil => rfl
  | cons event events ih =>
    obtain ⟨hd, hrest⟩ := hden
    have hstep : (step h d lower isVcs name w event).checkouts dir =
        lastLeft dir (w.checkouts dir) [event] := step_checkout hp hd
    rw [Run.run_cons, lastLeft_cons, ← hstep]
    refine ih ?_ hrest
    rw [hstep]
    exact hasPkgbuild_lastLeft hp hd

/-- A clone and a fetch that would bring the second commit. -/
def wouldRefresh : Commands ℕ where
  clone := .failed none
  sync := bringsSecond

/-- A frozen run that is told to purge the checkout and to clone it again. -/
def frozenRun : List (Event ℕ Unit) :=
  [.user () (some ⟨.other, inSync⟩), .start { frozen := true } false true { cleansrc := true },
    .request ['p'] () {} wouldRefresh, .finish true]

end Runs

end Sysforge.Git.Freeze
