import Mathlib.Data.List.Dedup
import Mathlib.Data.List.Induction
import Mathlib.Data.List.Sort
import Mathlib.Data.String.Basic
import Sysforge.Foundations.Run
import Sysforge.Reconcile.Sentinels

/-!
# External reinstalls are kept

An external transaction stays in `buildstate` until a consumer that has read it removes the file, and
that consumer then saves a build state in which what the transaction reinstalled is demoted. This
holds in every run in which no consumer removes an event that it has not read, raises, or stops
between the removal and the save.
-/

namespace Sysforge.Reconcile

open BuildState

variable {own events : List Event} {e : Event} {n k : String} {w : World} {c : Consumer} {a : Answer}
  {s s' : BuildState} {names : List String}

/-! ## The latest event of a name -/

theorem lastSeen_append_singleton : lastSeen (events ++ [e]) n =
    if n ∈ e.names ∧ (lastSeen events n).getD "" ≤ e.stamp then some e.stamp
    else lastSeen events n := by
  rw [lastSeen, List.foldl_append]
  rfl

theorem lastSeen_mem {t : String} (h : lastSeen events n = some t) :
    ∃ e ∈ events, n ∈ e.names ∧ e.stamp = t := by
  induction events using List.reverseRecOn with
  | nil => cases h
  | append_singleton events e ih =>
    rw [lastSeen_append_singleton] at h
    split_ifs at h with hn
    · exact ⟨e, List.mem_append_right _ (List.mem_singleton_self e), hn.1, Option.some.inj h⟩
    · obtain ⟨d, hd, hdn, ht⟩ := ih h
      exact ⟨d, List.mem_append_left _ hd, hdn, ht⟩

theorem le_lastSeen (he : e ∈ events) (hn : n ∈ e.names) :
    e.stamp ≤ (lastSeen events n).getD "" := by
  induction events using List.reverseRecOn with
  | nil => cases he
  | append_singleton events d ih =>
    rw [lastSeen_append_singleton]
    rcases List.mem_append.mp he with he | he
    · split_ifs with hd
      · exact (ih he).trans hd.2
      · exact ih he
    · obtain rfl := List.mem_singleton.mp he
      split_ifs with hd
      · exact le_rfl
      · exact (not_le.mp fun hle => hd ⟨hn, hle⟩).le

/-- A name of an event that was read is an external target, unless sysforge installed the package at
least as late. -/
theorem mem_externalInstallTargets_or (he : e ∈ events) (hn : n ∈ e.names) :
    n ∈ externalInstallTargets own events ∨ ∃ o ∈ own, n ∈ o.names ∧ e.stamp ≤ o.stamp := by
  by_cases hlt : (lastSeen own n).getD "" < (lastSeen events n).getD ""
  · refine .inl (List.mem_dedup.mpr (List.mem_filter.mpr ⟨?_, decide_eq_true hlt⟩))
    exact List.mem_flatMap.mpr ⟨e, he, hn⟩
  · have hle : e.stamp ≤ (lastSeen own n).getD "" := (le_lastSeen he hn).trans (not_lt.mp hlt)
    cases hown : lastSeen own n with
    | none =>
      rw [hown, Option.getD_none] at hle
      rcases hle.lt_or_eq with hlt | heq
      · exact absurd (String.lt_iff_toList_lt.mp hlt) (List.not_lt_nil _)
      · exact absurd heq e.stamped
    | some t =>
      rw [hown, Option.getD_some] at hle
      obtain ⟨o, ho, hon, rfl⟩ := lastSeen_mem hown
      exact .inr ⟨o, ho, hon, hle⟩

/-! ## What a reconcile demotes -/

/-- Two states with the same records have the same targets and the same demotable entries. -/
theorem externalTargets_congr (h : s.data = s'.data) :
    externalTargets s n = externalTargets s' n := by
  rw [externalTargets, externalTargets, resolveInstalledName, resolveInstalledName, h]

theorem demotable_congr (h : s.data = s'.data) : demotable s n = demotable s' n := by
  rw [demotable, demotable, h]

theorem data_foldl_clearFailure : (names.foldl clearFailure s).data = s.data := by
  induction names generalizing s with
  | nil => rfl
  | cons b names ih => exact ih

theorem demotable_demote :
    demotable (demote s n) k = (decide (k ≠ n) && demotable s k) := by
  cases hn : s.data.get n with
  | none =>
    have hs : demote s n = s := by rw [demote, hn]
    rw [hs]
    by_cases hk : k = n
    · have hf : demotable s k = false := by rw [hk, demotable, hn]
      rw [hf, Bool.and_false]
    · rw [decide_eq_true hk, Bool.true_and]
  | some e =>
    by_cases hd : demotable s n = true
    · have hs : demote s n = { s with data := s.data.set n (pacmanMarker e) } := by
        rw [demotable, hn, Bool.and_eq_true, decide_eq_true_iff] at hd
        rw [demote, hn]
        simp only
        rw [if_neg (by rw [hd.1, decide_eq_false (not_not.mpr hd.2)]; decide)]
      rw [hs, demotable, Dict.get_set]
      by_cases hk : k = n
      · rw [if_pos hk, decide_eq_false (not_not.mpr hk), Bool.false_and]
        rfl
      · rw [if_neg hk, decide_eq_true hk, Bool.true_and, demotable]
    · have hs : demote s n = s := by
        rw [demotable, hn, Bool.and_eq_true, decide_eq_true_iff, not_and_or] at hd
        rw [demote, hn]
        simp only
        refine if_pos ?_
        rw [Bool.or_eq_true, Bool.not_eq_true', decide_eq_true_iff]
        exact hd.imp_left Bool.eq_false_of_not_eq_true
      rw [hs]
      by_cases hk : k = n
      · rw [hk, Bool.eq_false_of_not_eq_true hd, Bool.and_false]
      · rw [decide_eq_true hk, Bool.true_and]

theorem demotable_foldl_demote :
    demotable (names.foldl demote s) k = (decide (k ∉ names) && demotable s k) := by
  induction names generalizing s with
  | nil => rfl
  | cons m names ih =>
    rw [List.foldl_cons, ih, demotable_demote, ← Bool.and_assoc]
    congr 1
    rw [Bool.eq_iff_iff, Bool.and_eq_true, decide_eq_true_iff, decide_eq_true_iff,
      decide_eq_true_iff, List.mem_cons, not_or, and_comm]

/-- No entry that a reconciled name reaches is left to demote. -/
theorem demotable_reconcileExternalInstalls (hn : n ∈ names) (hk : k ∈ externalTargets s n) :
    demotable (reconcileExternalInstalls s names) k = false := by
  have hmem : k ∈ ((names.flatMap (externalTargets s)).dedup.insertionSort (· ≤ ·)) :=
    (List.mem_insertionSort _).mpr (List.mem_dedup.mpr (List.mem_flatMap.mpr ⟨n, hn, hk⟩))
  rw [reconcileExternalInstalls, demotable_foldl_demote, decide_eq_false (not_not.mpr hmem),
    Bool.false_and]

/-! ## What a run keeps -/

/-- Whichever state the consumer saves, what the names it reconciles reach is demoted in it. -/
def Reconciled (c : Consumer) : Prop :=
  ∀ n ∈ c.external, ∀ k ∈ externalTargets c.loaded n,
    demotable (if c.changed then c.bs else c.loaded) k = false

/-- What holds of a consumer at each place, `saved` being the build state on disk. -/
def Sound (saved : BuildState) (c : Consumer) : Pc → Prop
  | .loaded => saved = c.loaded ∧ c.bs.data = c.loaded.data ∧ c.raised = false
  | .ownRead => saved = c.loaded ∧ c.bs.data = c.loaded.data ∧ c.raised = false
  | .eventsRead => saved = c.loaded ∧ c.bs.data = c.loaded.data ∧ c.raised = false
  | .reconciled => saved = c.loaded ∧ c.raised = false ∧ Reconciled c
  | .half => saved = c.loaded ∧ c.raised = false ∧ Reconciled c
  | .gone => saved = c.loaded ∧ c.raised = false ∧ Reconciled c
  | .saved => True
  | .ending => True

/-- The consumer of the state is sound. -/
def Inv (w : World) : Prop := ∀ pc c, w.consumer = some (pc, c) → Sound w.saved c pc

/-- The consumer does not raise, and where it removes `buildstate` the file holds no external
transaction that it has not read. -/
def Calm (events : List Event) (a : Answer) (c : Consumer) : Pc → Prop
  | .loaded => a.raises = false
  | .ownRead => a.raises = false
  | .eventsRead => a.raises = false
  | .reconciled => c.readOnly = false → ∀ e ∈ events, e.own = false → e ∈ c.events
  | .half => True
  | .gone => True
  | .saved => c.update = true → ∀ e ∈ events, e.own = true
  | .ending => True

/-- The step leaves the consumer's work whole: an advance is calm, and no consumer stops between the
removal of `buildstate` and its save. -/
def Undisturbed (w : World) : Step → Prop
  | .hook _ => True
  | .note _ => True
  | .start _ _ => True
  | .advance a => ∀ pc c, w.consumer = some (pc, c) → Calm w.buildstate a c pc
  | .write _ => True
  | .stop => ∀ pc c, w.consumer = some (pc, c) → pc ≠ .half ∧ pc ≠ .gone

/-- The consumer has read the transaction and removed the file, and is about to save. -/
def Held (w : World) (e : Event) : Prop :=
  ∃ pc c, w.consumer = some (pc, c) ∧ (pc = .half ∨ pc = .gone) ∧ e ∈ c.events

/-- A consumer has just saved, and in the saved state the transaction is settled: of each name that
a sync repo carries, every source-built entry that the name reaches is demoted, unless sysforge
installed the package at least as late. -/
def Settled (w : World) (e : Event) : Prop :=
  ∃ c, w.consumer = some (.saved, c) ∧ ∀ n ∈ e.names,
    c.inSync n = false ∨ (∃ o ∈ c.own, n ∈ o.names ∧ e.stamp ≤ o.stamp) ∨
      ∀ k ∈ externalTargets c.loaded n, demotable w.saved k = false

theorem inv_init : Inv (World.init s) := fun _ _ h => by cases h

/-- A consumer that reconciles what it read demotes it, and says so when that changes an entry. -/
theorem reconciled_reconcile (hdata : c.bs.data = c.loaded.data) : Reconciled c.reconcile := by
  intro n hn k hk
  have hk' : k ∈ externalTargets c.bs n := externalTargets_congr hdata ▸ hk
  have hchanged : c.reconcile.changed = (c.changed ||
      (c.external.flatMap (externalTargets c.bs)).any (demotable c.bs)) := rfl
  by_cases hc : c.reconcile.changed = true
  · rw [if_pos hc]
    exact demotable_reconcileExternalInstalls hn hk'
  · rw [if_neg hc]
    rw [hchanged, Bool.or_eq_true, not_or, List.any_eq_true] at hc
    refine Bool.eq_false_of_not_eq_true fun hd => hc.2 ⟨k, ?_, ?_⟩
    · exact List.mem_flatMap.mpr ⟨n, hn, hk'⟩
    · rw [demotable_congr hdata]
      exact hd

/-- The consumer's next step keeps it sound. -/
theorem inv_advance {pc : Pc} (h : Sound w.saved c pc) (ha : Calm w.buildstate a c pc) :
    Inv (advance w a c pc) := by
  cases pc with
  | loaded =>
    obtain ⟨hsaved, hdata, hraised⟩ := h
    have hstep : advance w a c .loaded = { w with consumer := some (.ownRead,
        { c with
          bs := a.cleared.foldl clearFailure c.bs
          changed := a.cleared ≠ []
          own := w.selfInstall }) } := by
      rw [advance]
      exact if_neg (Bool.not_eq_true _ ▸ ha)
    rw [hstep]
    rintro _ _ ⟨⟩
    exact ⟨hsaved, data_foldl_clearFailure.trans hdata, hraised⟩
  | ownRead =>
    rw [advance, if_neg (Bool.not_eq_true _ ▸ ha)]
    rintro _ _ ⟨⟩
    exact h
  | eventsRead =>
    obtain ⟨hsaved, hdata, hraised⟩ := h
    rw [advance, if_neg (Bool.not_eq_true _ ▸ ha)]
    rintro _ _ ⟨⟩
    exact ⟨hsaved, hraised, reconciled_reconcile hdata⟩
  | reconciled =>
    rw [advance]
    split_ifs
    · rintro _ _ ⟨⟩
    · rintro _ _ ⟨⟩
      exact h
  | half =>
    rintro _ _ ⟨⟩
    exact h
  | gone =>
    rintro _ _ ⟨⟩
    trivial
  | saved =>
    rw [advance]
    split_ifs
    · rintro _ _ ⟨⟩
      trivial
    · rintro _ _ ⟨⟩
  | ending => rintro _ _ ⟨⟩

theorem inv_step {st : Step} (h : Inv w) (hu : Undisturbed w st) : Inv (step w st) := by
  cases st with
  | hook d => exact h
  | note d => exact h
  | start update readOnly =>
    rw [step]
    cases hw : w.consumer with
    | none =>
      rintro _ _ ⟨⟩
      exact ⟨rfl, rfl, rfl⟩
    | some q => exact h
  | advance a =>
    rw [step]
    cases hw : w.consumer with
    | none => exact h
    | some q => exact inv_advance (h q.1 q.2 hw) (hu q.1 q.2 hw)
  | write bs =>
    rw [step]
    cases hw : w.consumer with
    | none => rintro _ _ ⟨⟩
    | some q =>
      obtain ⟨pc, c⟩ := q
      simp only
      split_ifs with hpc
      · rintro _ _ ⟨⟩
        rw [hpc]
        trivial
      · exact h
  | stop => rintro _ _ ⟨⟩

/-! ## What becomes of a transaction -/

/-- What the consumer's next step makes of an external transaction that is in the file or held. -/
theorem fate_advance {pc : Pc} (h : Sound w.saved c pc) (ha : Calm w.buildstate a c pc)
    (hw : w.consumer = some (pc, c)) (he : e.own = false) (hin : e ∈ w.buildstate ∨ Held w e) :
    (e ∈ (advance w a c pc).buildstate ∨ Held (advance w a c pc) e) ∨
      Settled (advance w a c pc) e := by
  have hheld : Held w e → (pc = .half ∨ pc = .gone) ∧ e ∈ c.events := by
    rintro ⟨pc', c', hw', hpc, hmem⟩
    obtain ⟨rfl, rfl⟩ := Prod.mk.inj (Option.some.inj (hw.symm.trans hw'))
    exact ⟨hpc, hmem⟩
  have hfile : pc ≠ .half → pc ≠ .gone → e ∈ w.buildstate := fun hh hg =>
    hin.resolve_right fun hx => (hheld hx).1.elim hh hg
  cases pc with
  | loaded =>
    refine .inl (.inl ?_)
    rw [advance]
    split_ifs <;> exact hfile (by decide) (by decide)
  | ownRead =>
    refine .inl (.inl ?_)
    rw [advance]
    split_ifs <;> exact hfile (by decide) (by decide)
  | eventsRead =>
    refine .inl (.inl ?_)
    rw [advance]
    split_ifs <;> exact hfile (by decide) (by decide)
  | reconciled =>
    rw [advance]
    split_ifs with hro
    · exact .inl (.inl (hfile (by decide) (by decide)))
    · refine .inl (.inr ⟨.half, c, rfl, .inl rfl, ?_⟩)
      exact ha (Bool.eq_false_of_not_eq_true hro) e (hfile (by decide) (by decide)) he
  | half =>
    refine .inl ?_
    exact hin.imp_right fun hx => ⟨.gone, c, rfl, .inr rfl, (hheld hx).2⟩
  | gone =>
    rcases hin with hmem | hx
    · exact .inl (.inl hmem)
    obtain ⟨hsaved, hraised, hrec⟩ := h
    refine .inr ⟨c, rfl, fun n hn => ?_⟩
    by_cases hsync : c.inSync n = true
    · refine .inr ?_
      rcases mem_externalInstallTargets_or (hheld hx).2 hn with hext | hown
      · refine .inr fun k hk => ?_
        have hdem := hrec n (List.mem_filter.mpr ⟨hext, hsync⟩) k hk
        rw [advance]
        simp only
        rw [hraised, Bool.not_false, Bool.and_true, hsaved]
        exact hdem
      · exact .inl hown
    · exact .inl (Bool.eq_false_of_not_eq_true hsync)
  | saved =>
    rw [advance]
    split_ifs with hup
    · exact absurd (ha hup e (hfile (by decide) (by decide))) (Bool.not_eq_true _ ▸ he)
    · exact .inl (.inl (hfile (by decide) (by decide)))
  | ending => exact .inl (.inl (hfile (by decide) (by decide)))

/-- What a step makes of an external transaction that is in the file or held. -/
theorem fate_step {st : Step} (h : Inv w) (hu : Undisturbed w st) (he : e.own = false)
    (hin : e ∈ w.buildstate ∨ Held w e) :
    (e ∈ (step w st).buildstate ∨ Held (step w st) e) ∨ Settled (step w st) e := by
  cases st with
  | hook d => exact .inl (hin.imp_left (List.mem_append_left _))
  | note d => exact .inl hin
  | start update readOnly =>
    rw [step]
    cases hw : w.consumer with
    | none =>
      refine .inl (.inl (hin.resolve_right ?_))
      rintro ⟨pc, c, hc, -⟩
      cases hw.symm.trans hc
    | some q => exact .inl hin
  | advance a =>
    rw [step]
    cases hw : w.consumer with
    | none => exact .inl hin
    | some q => exact fate_advance (h q.1 q.2 hw) (hu q.1 q.2 hw) hw he hin
  | write bs =>
    have hsame : (step w (.write bs)).buildstate = w.buildstate ∧
        (step w (.write bs)).consumer = w.consumer := by
      rw [step]
      cases hw : w.consumer with
      | none => exact ⟨rfl, rfl⟩
      | some q =>
        simp only
        split_ifs
        · exact ⟨rfl, rfl⟩
        · exact ⟨rfl, hw⟩
    rw [hsame.1, Held, hsame.2]
    exact .inl hin
  | stop =>
    refine .inl (.inl (hin.resolve_right ?_))
    rintro ⟨pc, c, hc, hpc, -⟩
    exact hpc.elim (hu pc c hc).1 (hu pc c hc).2

/-- In an undisturbed run an external transaction that is in the file or held stays so until a
consumer settles it. -/
theorem fate_run {steps : List Step} (hinv : Inv w) (h : Run.Each step Undisturbed w steps)
    (he : e.own = false) (hin : e ∈ w.buildstate ∨ Held w e) :
    (e ∈ (Run.run step w steps).buildstate ∨ Held (Run.run step w steps) e) ∨
      ∃ mid, mid <+: steps ∧ Settled (Run.run step w mid) e := by
  induction steps generalizing w with
  | nil => exact .inl hin
  | cons st steps ih =>
    rcases fate_step hinv h.1 he hin with hin' | hs
    · refine (ih (inv_step hinv h.1) h.2 hin').imp_right ?_
      rintro ⟨mid, hmid, hs⟩
      exact ⟨st :: mid, List.cons_prefix_cons.mpr ⟨rfl, hmid⟩, hs⟩
    · exact .inr ⟨[st], List.cons_prefix_cons.mpr ⟨rfl, List.nil_prefix⟩, hs⟩

variable {pre post : List Step}

/-- **External reinstalls are kept**: in a run whose consumers remove no transaction that they have
not read, do not raise, and do not stop between the removal and the save, an external transaction is
in the file, or a consumer that has read it is about to save, or a consumer has saved a build state
in which it is settled. -/
theorem reinstall_kept (h : Run.Each step Undisturbed (World.init s) (pre ++ .hook e :: post))
    (he : e.own = false) :
    (e ∈ (Run.run step (World.init s) (pre ++ .hook e :: post)).buildstate ∨
        Held (Run.run step (World.init s) (pre ++ .hook e :: post)) e) ∨
      ∃ mid, mid <+: post ∧ Settled (Run.run step (World.init s) (pre ++ .hook e :: mid)) e := by
  have hrun : ∀ mid, Run.run step (World.init s) (pre ++ .hook e :: mid) =
      Run.run step (step (Run.run step (World.init s) pre) (.hook e)) mid := by
    intro mid
    rw [Run.run, List.foldl_append]
    rfl
  obtain ⟨hpre, hhook, hpost⟩ := Run.each_append.mp h
  have hinv : Inv (Run.run step (World.init s) pre) :=
    hpre.invariant inv_init fun _ _ _ hi hu => inv_step hi hu
  simp only [hrun]
  refine fate_run (inv_step hinv hhook) hpost he (.inl ?_)
  exact List.mem_append_right _ (List.mem_singleton_self e)

/-- A build state with one source-built package. -/
def bashBuilt : BuildState :=
  let entry : Entry := { pkgver := some "5.3", pkgrel := some "1", buildMode := some "source_built" }
  { empty with data := Dict.empty.set "bash" entry }

/-- `pacman -S bash`. -/
def bashReinstalled : Event := ⟨"2026-01-02T03:04:05", ["bash"], false, by decide⟩

/-- An update that begins: it loads the build state and reads both files. -/
def updateReads : List Step := [.start true false, .advance {}, .advance {}, .advance {}]

/-- The witness: the update that follows the reinstall. -/
theorem reinstall_kept_bash :
    (bashReinstalled ∈ (Run.run step (World.init bashBuilt) ([] ++ .hook bashReinstalled ::
        (updateReads ++ [.advance {}, .advance {}, .advance {}]))).buildstate ∨
      Held (Run.run step (World.init bashBuilt) ([] ++ .hook bashReinstalled ::
        (updateReads ++ [.advance {}, .advance {}, .advance {}]))) bashReinstalled) ∨
      ∃ mid, mid <+: updateReads ++ [.advance {}, .advance {}, .advance {}] ∧
        Settled (Run.run step (World.init bashBuilt) ([] ++ .hook bashReinstalled :: mid))
          bashReinstalled := by
  refine reinstall_kept ⟨trivial, trivial, ?_, ?_, ?_, ?_, ?_, ?_, trivial⟩ rfl
  · rintro _ _ ⟨⟩
    rfl
  · rintro _ _ ⟨⟩
    rfl
  · rintro _ _ ⟨⟩
    rfl
  · rintro _ _ ⟨⟩ - e he -
    exact he
  · rintro _ _ ⟨⟩
    trivial
  · rintro _ _ ⟨⟩
    trivial

/-- The reinstall is in neither the file nor the saved build state, and no consumer is left. -/
def lost (w : World) : Bool :=
  w.buildstate.isEmpty && w.selfInstall.isEmpty && w.consumer.isNone && demotable w.saved "bash"

/-- The counterexample: a consumer that raises, one that stops before its save, a reinstall between
the read and the removal, and one between the save and the clear at the end of the update. -/
theorem reinstall_lost :
    (lost (Run.run step (World.init bashBuilt) ([.hook bashReinstalled, .start true false,
      .advance ⟨[], fun _ => true, true⟩] ++ List.replicate 5 (.advance {}))) &&
    lost (Run.run step (World.init bashBuilt) (.hook bashReinstalled :: updateReads ++
      [.advance {}, .advance {}, .stop])) &&
    lost (Run.run step (World.init bashBuilt) (updateReads ++ .hook bashReinstalled ::
      List.replicate 5 (.advance {}))) &&
    lost (Run.run step (World.init bashBuilt) (updateReads ++ List.replicate 3 (.advance {}) ++
      .hook bashReinstalled :: List.replicate 2 (.advance {})))) = true := by
  decide

end Sysforge.Reconcile
