import Sysforge.Kernel.FdoPlan

/-!
# Refused plans

A plan that is refused should leave the profile stores alone. A use plan only reads them. A record
plan of round 2 removes the pair of the previous round before it looks for the AutoFDO profile to
pin: when that profile is missing, or a file operation fails behind the first removal, the refusal
comes too late. `plan_refusal_unchanged_iff` says when it does not.
-/

namespace Sysforge.Kernel

variable {F : Type*}

/-- What becomes of each file operation of a record plan: its error, when it fails. A copy that
fails leaves something in the pinned file. -/
structure FileOutcomes (F : Type*) where
  unlinkAfdo : Option String := none
  unlinkCc : Option String := none
  unlinkLd : Option String := none
  hash : Option String := none
  mkdir : Option String := none
  copy : Option (Option F × String) := none

/-- Where `clear_round_profiles` stops: only files that are there are removed. -/
def unlinkFault (s : Store F) (propeller : Bool) (o : FileOutcomes F) : Option (ℕ × String) :=
  if propeller then
    match s.cc, o.unlinkCc with
    | some _, some e => some (0, e)
    | _, _ => match s.ld, o.unlinkLd with
      | some _, some e => some (1, e)
      | _, _ => none
  else match s.afdo, o.unlinkAfdo with
    | some _, some e => some (0, e)
    | _, _ => none

/-- What a failing `pin_autofdo_profile` leaves in the pinned file: it hashes the source, makes the
directory, and copies. -/
def pinFault (s : Store F) (dryRun : Bool) (o : FileOutcomes F) : Option (Option F × String) :=
  match o.hash with
  | some e => some (s.afdo, e)
  | none =>
    if dryRun then none
    else match o.mkdir with
      | some e => some (s.afdo, e)
      | none => o.copy

/-- The fault that the outcomes amount to on these stores. -/
def FileOutcomes.fault (o : FileOutcomes F) (ss : Stores F) (propeller : Bool) (pkgname : String)
    (dryRun : Bool) : PlanFault F where
  unlink := unlinkFault (ss ⟨pkgname, propeller⟩) propeller o
  pin := pinFault (ss ⟨pkgname, true⟩) dryRun o

/-- The pair can be removed, as far as it is there. -/
def Clears (s : Store F) (o : FileOutcomes F) : Prop :=
  (s.cc.isSome → o.unlinkCc = none) ∧ (s.ld.isSome → o.unlinkLd = none)

/-- The first removal fails. -/
def FirstRemovalFails (s : Store F) (o : FileOutcomes F) : Prop :=
  (s.cc.isSome ∧ o.unlinkCc.isSome) ∨ (s.cc = none ∧ s.ld.isSome ∧ o.unlinkLd.isSome)

/-- The profile to pin is there, and pinned without a failure. -/
def Pins (source : Option F) (o : FileOutcomes F) : Prop :=
  source.isSome ∧ o.hash = none ∧ o.mkdir = none ∧ o.copy = none

/-- A copy that is tried and fails leaves the pinned file as it is. -/
def CopySpares (source : Option F) (s : Store F) (o : FileOutcomes F) : Prop :=
  source.isSome → o.hash = none → o.mkdir = none →
    ∀ left e, o.copy = some (left, e) → left = s.afdo

/-- A record plan of round 2 that is refused has changed nothing: it is not refused, or at its first
removal, or it had nothing to remove. -/
def Spares (ss : Stores F) (pkgname : String) (o : FileOutcomes F) : Prop :=
  let s := ss ⟨pkgname, true⟩
  let source := (ss ⟨pkgname, false⟩).afdo
  FirstRemovalFails s o ∨ (Clears s o ∧ Pins source o) ∨
    (s.cc = none ∧ s.ld = none ∧ CopySpares source s o)

variable (sha256 : F → String) (digest : String → String) (root : String)
variable {ss : Stores F} {pkgname : String} {o : FileOutcomes F} {s : Store F}

/-! ## What a record plan of round 2 leaves -/

theorem Stores.set_eq_self {k : StoreKey} : ss.set k s = ss ↔ s = ss k := by
  constructor
  · intro h
    rw [← Stores.set_self ss k s, h]
  · rintro rfl
    funext k'
    by_cases hk : k' = k
    · rw [hk, Stores.set_self]
    · rw [Stores.set_of_ne ss hk]

theorem clearRoundProfiles_eq_self :
    clearRoundProfiles s true 2 = s ↔ s.cc = none ∧ s.ld = none := by
  constructor
  · intro h
    rw [← h]
    exact ⟨rfl, rfl⟩
  · rintro ⟨hc, hl⟩
    obtain ⟨afdo, cc, ld, round, applied, profiled⟩ := s
    dsimp only at hc hl
    rw [hc, hl]
    rfl

/-- Where the removal stops, and whether a file was removed until then. -/
theorem unlinkFault_spec (s : Store F) (o : FileOutcomes F) :
    (∃ n e, unlinkFault s true o = some (n, e) ∧ ¬ Clears s o ∧ (s.cc = none → s.ld ≠ none) ∧
        (clearRoundProfiles s true n = s ↔ FirstRemovalFails s o)) ∨
      (unlinkFault s true o = none ∧ Clears s o ∧ ¬ FirstRemovalFails s o) := by
  obtain ⟨afdo, cc, ld, round, applied, profiled⟩ := s
  obtain ⟨_, unlinkCc, unlinkLd, _, _, _⟩ := o
  cases cc <;> cases unlinkCc <;> cases ld <;> cases unlinkLd <;>
    simp [unlinkFault, clearRoundProfiles, FirstRemovalFails, Clears]

theorem Stores.set_set (ss : Stores F) (k : StoreKey) (s s' : Store F) :
    (ss.set k s).set k s' = ss.set k s' := by
  funext k'
  by_cases hk : k' = k
  · rw [hk, Stores.set_self, Stores.set_self]
  · rw [Stores.set_of_ne _ hk, Stores.set_of_ne _ hk, Stores.set_of_ne _ hk]

/-- The cleared store with something in its pinned file. -/
theorem pinned_eq_self {left : Option F} :
    { clearRoundProfiles s true 2 with afdo := left } = s ↔
      s.cc = none ∧ s.ld = none ∧ left = s.afdo := by
  constructor
  · intro h
    rw [← h]
    exact ⟨rfl, rfl, rfl⟩
  · rintro ⟨hc, hl, rfl⟩
    exact clearRoundProfiles_eq_self.mpr ⟨hc, hl⟩

/-- The stores after the pair has been removed. -/
def cleared (ss : Stores F) (pkgname : String) : Stores F :=
  ss.set ⟨pkgname, true⟩ (clearRoundProfiles (ss ⟨pkgname, true⟩) true 2)

theorem cleared_source : cleared ss pkgname ⟨pkgname, false⟩ = ss ⟨pkgname, false⟩ :=
  Stores.set_of_ne ss (fun h => Bool.noConfusion (congrArg StoreKey.propeller h)) _

/-- A copy into the pinned file of the cleared store. -/
theorem cleared_set_eq {left : Option F} :
    (cleared ss pkgname).set ⟨pkgname, true⟩
        { cleared ss pkgname ⟨pkgname, true⟩ with afdo := left } = ss ↔
      (ss ⟨pkgname, true⟩).cc = none ∧ (ss ⟨pkgname, true⟩).ld = none ∧
        left = (ss ⟨pkgname, true⟩).afdo := by
  rw [cleared, Stores.set_self, Stores.set_set, Stores.set_eq_self]
  exact pinned_eq_self

/-- Where the pin fails, and whether the pinned file is left alone then. -/
theorem pinFault_spec (source : F) (s : Store F) (o : FileOutcomes F) :
    (∃ left e, pinFault s false o = some (left, e) ∧ ¬ Pins (some source) o ∧
        (left = s.afdo ↔ CopySpares (some source) s o)) ∨
      (pinFault s false o = none ∧ Pins (some source) o) := by
  obtain ⟨_, _, _, hash, mkdir, copy⟩ := o
  cases hash with
  | some e => exact .inl ⟨s.afdo, e, rfl, by simp [Pins], by simp [CopySpares]⟩
  | none =>
    cases mkdir with
    | some e => exact .inl ⟨s.afdo, e, rfl, by simp [Pins], by simp [CopySpares]⟩
    | none =>
      cases copy with
      | some c =>
        obtain ⟨left, e⟩ := c
        exact .inl ⟨left, e, rfl, by simp [Pins], by simp [CopySpares]⟩
      | none => exact .inr ⟨rfl, rfl, rfl, rfl, rfl⟩

/-- The second half of a record plan of round 2. -/
theorem planPinned_unchanged_iff :
    (∀ e, (planPinned sha256 root (cleared ss pkgname) pkgname false
          (o.fault ss true pkgname false)).1 = .error e →
        (planPinned sha256 root (cleared ss pkgname) pkgname false
          (o.fault ss true pkgname false)).2 = ss) ↔
      Pins (ss ⟨pkgname, false⟩).afdo o ∨
        ((ss ⟨pkgname, true⟩).cc = none ∧ (ss ⟨pkgname, true⟩).ld = none ∧
          CopySpares (ss ⟨pkgname, false⟩).afdo (ss ⟨pkgname, true⟩) o) := by
  rw [planPinned, cleared_source]
  cases hsource : (ss ⟨pkgname, false⟩).afdo with
  | none =>
    have hpins : ¬ Pins (none : Option F) o := fun h => Bool.noConfusion h.1
    have hcopy : CopySpares none (ss ⟨pkgname, true⟩) o := fun h => Bool.noConfusion h
    simp only [hpins, hcopy, and_true, false_or, Except.error.injEq, forall_eq']
    rw [cleared, Stores.set_eq_self, clearRoundProfiles_eq_self]
  | some source =>
    obtain ⟨left, e, hfault, hpins, hcopy⟩ | ⟨hfault, hpins⟩ :=
      pinFault_spec source (ss ⟨pkgname, true⟩) o
    · have hpin : (o.fault ss true pkgname false).pin = some (left, e) := hfault
      simp only [hpin, hpins, ← hcopy, false_or, Except.error.injEq, forall_eq',
        Bool.false_eq_true, if_false]
      exact cleared_set_eq
    · have hpin : (o.fault ss true pkgname false).pin = none := hfault
      simp only [hpin, hpins, true_or, iff_true]
      intro e h
      cases h

theorem planRecord_of_unlink {fault : PlanFault F} {n : ℕ} {e : String}
    (h : fault.unlink = some (n, e)) :
    ∃ text, planRecord sha256 root ss true pkgname false fault =
      (.error text, ss.set ⟨pkgname, true⟩ (clearRoundProfiles (ss ⟨pkgname, true⟩) true n)) := by
  unfold planRecord
  rw [h]
  exact ⟨_, rfl⟩

theorem planRecord_of_cleared {fault : PlanFault F} (h : fault.unlink = none) :
    planRecord sha256 root ss true pkgname false fault =
      planPinned sha256 root (cleared ss pkgname) pkgname false fault := by
  unfold planRecord
  rw [h]
  rfl

/-- A record plan of round 2 that is no dry run. -/
theorem planRecord_unchanged_iff :
    (∀ e, (planRecord sha256 root ss true pkgname false (o.fault ss true pkgname false)).1 =
          .error e →
        (planRecord sha256 root ss true pkgname false (o.fault ss true pkgname false)).2 = ss) ↔
      Spares ss pkgname o := by
  rw [Spares]
  obtain ⟨n, e, hfault, hclears, hpair, hsame⟩ | ⟨hfault, hclears, hfirst⟩ :=
    unlinkFault_spec (ss ⟨pkgname, true⟩) o
  · have hunlink : (o.fault ss true pkgname false).unlink = some (n, e) := hfault
    obtain ⟨text, h⟩ := @planRecord_of_unlink F sha256 root ss pkgname _ n e hunlink
    have hnone : ¬ ((ss ⟨pkgname, true⟩).cc = none ∧ (ss ⟨pkgname, true⟩).ld = none ∧
        CopySpares (ss ⟨pkgname, false⟩).afdo (ss ⟨pkgname, true⟩) o) :=
      fun h => hpair h.1 h.2.1
    simp only [h, Except.error.injEq, forall_eq', hclears, hnone, false_and, or_false]
    exact Stores.set_eq_self.trans hsame
  · rw [planRecord_of_cleared sha256 root
      (show (o.fault ss true pkgname false).unlink = none from hfault), planPinned_unchanged_iff]
    simp only [hclears, hfirst, false_or, true_and]

/-- In round 1 there is one file to remove: a removal that fails has removed nothing. -/
theorem unlinkFault_round1 {n : ℕ} {e : String} (h : unlinkFault s false o = some (n, e)) :
    n = 0 := by
  rw [unlinkFault, if_neg Bool.false_ne_true] at h
  split at h
  · cases h
    rfl
  · cases h

theorem planRecord_round1_unchanged {dryRun : Bool} {e : String}
    (h : (planRecord sha256 root ss false pkgname dryRun (o.fault ss false pkgname dryRun)).1 =
      .error e) :
    (planRecord sha256 root ss false pkgname dryRun (o.fault ss false pkgname dryRun)).2 = ss := by
  unfold planRecord at h ⊢
  split at h
  next _ _ n text hunlink =>
    obtain rfl := unlinkFault_round1 hunlink
    exact Stores.set_eq_self.mpr rfl
  next => cases h

theorem planPinned_dryRun {fault : PlanFault F} :
    (planPinned sha256 root ss pkgname true fault).2 = ss := by
  rw [planPinned]
  split
  · rfl
  · split <;> rfl

theorem planRecord_dryRun {fault : PlanFault F} :
    (planRecord sha256 root ss true pkgname true fault).2 = ss := by
  unfold planRecord
  split
  · contradiction
  · exact planPinned_dryRun sha256 root

/-- The plans that change nothing when they are refused, whatever becomes of the file operations:
those of other modes, of round 1, and of a dry run. -/
theorem planFdoBuild_unchanged {mode : Option FdoMode} {propeller explicit dryRun : Bool}
    {building : Option String} {e : String}
    (hmode : ¬ (mode = some .record ∧ propeller = true ∧ dryRun = false))
    (h : (planFdoBuild sha256 digest root ss mode propeller pkgname explicit building dryRun
      (o.fault ss propeller pkgname dryRun)).1 = .error e) :
    (planFdoBuild sha256 digest root ss mode propeller pkgname explicit building dryRun
      (o.fault ss propeller pkgname dryRun)).2 = ss := by
  cases mode with
  | none => rfl
  | some m =>
    cases m with
    | use => rfl
    | record =>
      cases propeller with
      | false => exact planRecord_round1_unchanged sha256 root h
      | true =>
        cases dryRun with
        | true => exact planRecord_dryRun sha256 root
        | false => exact absurd ⟨rfl, rfl, rfl⟩ hmode

/-- **A refused plan leaves the stores unchanged**, if and only if it is no record plan of round 2,
or one that is not refused behind its first removal. -/
theorem plan_refusal_unchanged_iff (sha256 : F → String) (digest : String → String) (root : String)
    (ss : Stores F) (mode : Option FdoMode) (propeller : Bool) (pkgname : String) (explicit : Bool)
    (building : Option String) (dryRun : Bool) (o : FileOutcomes F) :
    (∀ e, (planFdoBuild sha256 digest root ss mode propeller pkgname explicit building dryRun
          (o.fault ss propeller pkgname dryRun)).1 = .error e →
        (planFdoBuild sha256 digest root ss mode propeller pkgname explicit building dryRun
          (o.fault ss propeller pkgname dryRun)).2 = ss) ↔
      (mode = some .record ∧ propeller = true ∧ dryRun = false → Spares ss pkgname o) := by
  by_cases hmode : mode = some .record ∧ propeller = true ∧ dryRun = false
  · obtain ⟨rfl, rfl, rfl⟩ := hmode
    exact (planRecord_unchanged_iff sha256 root).trans ⟨fun h _ => h, fun h => h ⟨rfl, rfl, rfl⟩⟩
  · exact iff_of_true (fun e => planFdoBuild_unchanged sha256 digest root hmode)
      fun h => absurd h hmode

/-- A pair captured in round 2, beside an AutoFDO store that has lost its profile. -/
def captured : Stores String := fun k =>
  let image : Image String := ⟨"Linux version 6.1", "6.1-profiling", "linux-sysforge-profiling",
    "6.1-1", true, some "afdo"⟩
  if k = ⟨"linux", true⟩ then
    { afdo := some "afdo", cc := some ⟨"cc", image⟩, ld := some ⟨"ld", image⟩ }
  else {}

/-- Without a profile to pin the plan of a new round 2 is refused, and the captured pair is gone. -/
theorem not_plan_refusal_unchanged :
    ¬ ∀ (ss : Stores String) (mode : Option FdoMode) (propeller : Bool) (pkgname : String)
        (explicit : Bool) (building : Option String) (dryRun : Bool) (o : FileOutcomes String) e,
      (planFdoBuild id id "/profiles" ss mode propeller pkgname explicit building dryRun
          (o.fault ss propeller pkgname dryRun)).1 = .error e →
        (planFdoBuild id id "/profiles" ss mode propeller pkgname explicit building dryRun
          (o.fault ss propeller pkgname dryRun)).2 = ss := by
  intro h
  have hsame := h captured (some .record) true "linux" true none false {} _ rfl
  have hcc := congrArg (fun ss : Stores String => (ss ⟨"linux", true⟩).cc.isSome) hsame
  exact absurd hcc (by decide)

end Sysforge.Kernel
