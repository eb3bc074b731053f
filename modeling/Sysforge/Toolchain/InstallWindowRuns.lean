import Sysforge.Toolchain.InstallWindow

/-!
# Runs through the install window

Without a record the packages are those that were last vouched for; a record that offers the
archives of a snapshot offers what restores them. Both hold wherever the run stops.
-/

namespace Sysforge.Toolchain.Window

variable {β : Type*} {host : Host β} {files files' : Files β} {sys sys' before base : Installed β}
  {built : Dict String String} {ps : List String} {r : Prepared β} {added : List String}

open Run (Each)

/-! ## What archives restore -/

theorem Same.refl (sys : Installed β) : Same sys sys := fun _ => rfl

/-- Restoring goes by what is installed only. -/
theorem restores_of_same {p n : String} (h : Same before base) (hr : Restores files before p n) :
    Restores files base p n := by
  obtain ⟨a, ha, hname, hbuild⟩ := hr
  exact ⟨a, ha, hname, (h n).symm.trans hbuild⟩

/-- The files are archives of the base, and with them the base can be restored. -/
structure Restorable (files : Files β) (base sys : Installed β) (ps : List String) : Prop where
  archives : ∀ p ∈ ps, ∃ m, Restores files base p m
  covers : ∀ n, sys.get n = base.get n ∨ ∃ p ∈ ps, Restores files base p n

/-- An archive brings its own package to its build in the base, and no other. -/
theorem get_foldl_some (harchives : ∀ p ∈ ps, ∃ m, Restores files base p m) (n : String) :
    (ps.foldl (installFile files) sys).get n = sys.get n ∨
      (ps.foldl (installFile files) sys).get n = base.get n := by
  by_cases hn : ∃ p ∈ ps, Restores files base p n
  · exact .inr (get_foldl_restores harchives (.inr hn))
  · refine .inl (get_foldl_installFile_of_not fun p hp hold => hn ⟨p, hp, ?_⟩)
    obtain ⟨m, hm⟩ := harchives p hp
    obtain ⟨a, ha, hname, -⟩ := id hm
    rw [Holds, readPkgnameFromFile, ha, Option.bind_some, hname] at hold
    exact Option.some.inj hold ▸ hm

/-- Whatever part of an install of the archives took effect, the base can still be restored. -/
theorem Restorable.pacmanU (h : Restorable files base sys ps) {qs : List String}
    (hqs : ∀ q ∈ qs, q ∈ ps) (o : Outcome) :
    Restorable files base (Toolchain.pacmanU files sys o qs).2 ps := by
  have hsome : ∀ l : List String, (∀ q ∈ l, q ∈ ps) → ∀ n,
      (l.foldl (installFile files) sys).get n = base.get n ∨ ∃ p ∈ ps, Restores files base p n := by
    intro l hl n
    have harchives : ∀ q ∈ l, ∃ m, Restores files base q m := fun q hq => h.archives q (hl q hq)
    obtain heq | heq : (l.foldl (installFile files) sys).get n = sys.get n ∨ _ :=
      get_foldl_some harchives n
    · rw [heq]
      exact h.covers n
    · exact .inl heq
  refine ⟨h.archives, fun n => ?_⟩
  cases o with
  | ok => exact hsome qs hqs n
  | failed done => exact hsome _ (fun q hq => hqs q (List.mem_of_mem_filter hq)) n

/-- An install of the archives that goes well restores the base. -/
theorem Restorable.restored (h : Restorable files base sys ps) :
    Same (Toolchain.pacmanU files sys .ok ps).2 base := fun n =>
  get_foldl_restores h.archives (h.covers n)

theorem Restorable.congr (h : Restorable files before sys ps) (hb : Same before base) :
    Restorable files base sys ps := by
  refine ⟨fun p hp => (h.archives p hp).imp fun m hm => restores_of_same hb hm, fun n => ?_⟩
  refine (h.covers n).imp (fun hn => hn.trans (hb n)) ?_
  rintro ⟨p, hp, hr⟩
  exact ⟨p, hp, restores_of_same hb hr⟩

/-- What is restorable stays so with the same archives. -/
theorem Restorable.kept (h : Restorable files base sys ps) (hkept : ∀ p ∈ ps, files' p = files p) :
    Restorable files' base sys ps := by
  have hrestores : ∀ p ∈ ps, ∀ m, Restores files base p m → Restores files' base p m := by
    rintro p hp m ⟨a, ha, hname, hbuild⟩
    exact ⟨a, (hkept p hp).trans ha, hname, hbuild⟩
  refine ⟨fun p hp => (h.archives p hp).imp (hrestores p hp), fun n => (h.covers n).imp_right ?_⟩
  rintro ⟨p, hp, hr⟩
  exact ⟨p, hp, hrestores p hp n hr⟩

/-! ## A prepared run -/

/-- The cached archives of the snapshot hold what was installed. -/
def Cached (files : Files β) (r : Prepared β) : Prop :=
  ∀ n p, (n, some p) ∈ r.snapshot → Restores files r.before p n

/-- Only what was going to be installed has changed. -/
def Changed (files : Files β) (r : Prepared β) (sys : Installed β) : Prop :=
  ∀ n, sys.get n ≠ r.before.get n → ∃ p ∈ r.chosen files, Holds files p n

theorem Prepared.snapshot_or_added (hm : Matches r.host files r.built) {p n : String}
    (hp : p ∈ r.chosen files) (hn : Holds files p n) :
    (∃ q, (n, q) ∈ r.snapshot) ∨ r.before.get n = none ∧ n ∈ r.added files := by
  rw [Prepared.chosen, Prepared.installSet] at hp
  rw [Prepared.snapshot, Prepared.added, Prepared.installSet]
  exact Toolchain.snapshot_or_added hm hp hn

theorem Prepared.mem_archives {n p : String} (h : (n, some p) ∈ r.snapshot) : p ∈ r.archives := by
  rw [Prepared.archives]
  exact List.mem_filterMap.mpr ⟨_, h, rfl⟩

theorem Cached.archives (h : Cached files r) :
    ∀ p ∈ r.archives, ∃ m, Restores files r.before p m := by
  intro p hp
  obtain ⟨⟨m, q⟩, hq, hqp⟩ := List.mem_filterMap.mp hp
  obtain rfl : q = some p := hqp
  exact ⟨m, h m p hq⟩

theorem snapshotRecovery_eq {snapshot : List (String × Option String)}
    (h : snapshotRecovery snapshot added = .pacmanUpgrade ps) :
    added = [] ∧ ps = snapshot.filterMap Prod.snd ∧ ∀ q ∈ snapshot, q.2 ≠ none := by
  rw [snapshotRecovery] at h
  split at h
  case isTrue hall =>
    refine ⟨hall.1, (Recovery.pacmanUpgrade.inj h).symm, fun q hq hnone => ?_⟩
    have hsome := List.all_eq_true.mp hall.2.2 q hq
    rw [hnone] at hsome
    cases hsome
  case isFalse => cases h

/-- A snapshot that is a recovery covers everything that an install changes. -/
theorem Changed.restorable (hm : Matches r.host files r.built) (hc : Cached files r)
    (hrec : snapshotRecovery r.snapshot (r.added files) = .pacmanUpgrade ps)
    (h : Changed files r sys) : Restorable files r.before sys ps := by
  obtain ⟨hadded, hps, hcomplete⟩ := snapshotRecovery_eq hrec
  rw [hps, ← Prepared.archives]
  refine ⟨hc.archives, fun n => ?_⟩
  by_cases hn : sys.get n = r.before.get n
  · exact .inl hn
  obtain ⟨p, hp, hold⟩ := h n hn
  obtain ⟨q, hq⟩ | ⟨-, hadds⟩ := r.snapshot_or_added hm hp hold
  · obtain ⟨p', rfl⟩ := Option.ne_none_iff_exists'.mp (hcomplete _ hq)
    exact .inr ⟨p', r.mem_archives hq, hc n p' hq⟩
  · rw [hadded] at hadds
    exact absurd hadds List.not_mem_nil

/-- A rollback that goes well restores what was installed before, whatever was changed of it. -/
theorem Changed.rolledBack (hm : Matches r.host files r.built) (hc : Cached files r)
    (h : Changed files r sys) {removal install : Outcome}
    (hok : (rollbackToSnapshot r.host files sys removal install r.snapshot
      (r.added files)).1 = true) :
    Same (rollbackToSnapshot r.host files sys removal install r.snapshot (r.added files)).2
      r.before := by
  intro n
  obtain ⟨hsome, s, hs, hbatch, heq⟩ := rollbackToSnapshot_spec hok
  rw [heq]
  refine get_batchInstallPkgs hc.archives hbatch ?_
  by_cases hn : s.get n = r.before.get n
  · exact .inl hn
  have hgone : n ∈ r.added files → r.before.get n = none := by
    intro hmem
    have hnone := (List.mem_filter.mp hmem).2
    rw [getInstalledVersion, Option.isNone_map] at hnone
    exact Option.isNone_iff_eq_none.mp hnone
  have hsys : sys.get n ≠ r.before.get n := by
    intro hsame
    refine hn ?_
    rw [hs]
    split_ifs with hadded
    · exact (hgone hadded.1).symm
    · exact hsame
  obtain ⟨p, hp, hold⟩ := h n hsys
  obtain ⟨q, hq⟩ | ⟨hnone, hmem⟩ := r.snapshot_or_added hm hp hold
  · obtain ⟨p', rfl⟩ := Option.ne_none_iff_exists'.mp (hsome _ hq)
    exact .inr ⟨p', r.mem_archives hq, hc n p' hq⟩
  · refine absurd ?_ hn
    rw [hs]
    split_ifs with hadded
    · exact hnone.symm
    · by_contra hne
      exact hadded ⟨hmem, fun hz => hne (hz.trans hnone.symm)⟩

/-- A rollback of nothing but archives, whatever part of it took effect. -/
theorem Restorable.rolledBack (h : Restorable files base sys ps) {removal install : Outcome}
    {snapshot : List (String × Option String)} (hps : ps = snapshot.filterMap Prod.snd) :
    Restorable files base
      (rollbackToSnapshot host files sys removal install snapshot []).2 ps := by
  rw [rollbackToSnapshot]
  split
  · exact h
  · split
    · exact h
    · rw [List.filter_nil]
      dsimp only
      rw [if_pos rfl, batchInstallPkgs]
      split
      · exact h
      · refine h.pacmanU (fun q hq => ?_) install
        rw [hps]
        exact List.mem_of_mem_filter hq

/-! ## The invariant -/

/-- What a run that has armed its record goes by. -/
structure Armed (w : World β) (r : Prepared β) (added : List String) : Prop where
  adds : added = r.added w.files
  record : w.record = some (snapshotRecovery r.snapshot added)
  base : Same r.before w.base
  changed : Changed w.files r w.installed
  cached : Cached w.files r
  fits : Matches r.host w.files r.built

/-- What a phase means for the packages. -/
def PhaseInv (w : World β) : Phase β → Prop
  | .building r => w.record = none ∧ r.before = w.installed ∧ Cached w.files r
  | .armed r added => Armed w r added ∧ r.before = w.installed
  | .installed r added => Armed w r added
  | .failed r added => Armed w r added
  | .restored => w.record ≠ none ∧ Same w.installed w.base
  | .repo => ∃ suite, w.record = some (.pacmanSync suite)

/-- **The invariant.** -/
structure Inv (w : World β) : Prop where
  vouched : w.record = none → Same w.installed w.base
  offered : ∀ ps, w.record = some (.pacmanUpgrade ps) → Restorable w.files w.base w.installed ps
  phase : ∀ phase, w.run = some phase → PhaseInv w phase

variable {w : World β} {coherent : Installed β → Bool}

/-- What the record of an armed run offers restores the base. -/
theorem Armed.restorable (h : Armed w r added)
    (hrec : w.record = some (.pacmanUpgrade ps)) :
    Restorable w.files w.base w.installed ps := by
  have heq := Option.some.inj (h.record.symm.trans hrec)
  rw [h.adds] at heq
  exact (h.changed.restorable h.fits h.cached heq).congr h.base

/-- A run with a record on disk and no more to do. -/
theorem inv_of_armed (h : Armed w r added) (hrun : w.run = none) : Inv w where
  vouched hnone := absurd (hnone.symm.trans h.record).symm (Option.some_ne_none _)
  offered _ hrec := h.restorable hrec
  phase _ hphase := absurd (hrun.symm.trans hphase).symm (Option.some_ne_none _)

theorem inv_of_phase {phase : Phase β} (h : Armed w r added) (hrun : w.run = some phase)
    (hp : PhaseInv w phase) : Inv w where
  vouched hnone := absurd (hnone.symm.trans h.record).symm (Option.some_ne_none _)
  offered _ hrec := h.restorable hrec
  phase q hq := by
    obtain rfl := Option.some.inj (hrun.symm.trans hq)
    exact hp

/-- Nothing is left to be done: no run and no record. -/
theorem inv_of_none (hrec : w.record = none) (hrun : w.run = none)
    (hs : Same w.installed w.base) : Inv w where
  vouched _ := hs
  offered _ hoffer := absurd (hrec.symm.trans hoffer).symm (Option.some_ne_none _)
  phase _ hphase := absurd (hrun.symm.trans hphase).symm (Option.some_ne_none _)

/-- The record offers the repositories. -/
theorem inv_of_sync {names : List String} (hrec : w.record = some (.pacmanSync names))
    (hphase : ∀ phase, w.run = some phase → PhaseInv w phase) : Inv w where
  vouched hnone := absurd (hnone.symm.trans hrec).symm (Option.some_ne_none _)
  offered ps hoffer := by cases hrec.symm.trans hoffer
  phase := hphase

/-! ## Steps -/

theorem changed_of_eq (h : r.before = sys) : Changed files r sys := fun _ hn =>
  absurd (h ▸ rfl) hn

/-- The record is armed. -/
theorem Inv.arm (coherent : Installed β → Bool) (h : Inv w) (hb : PhaseInv w (.building r))
    (hm : Matches r.host w.files r.built) :
    Inv (runStep coherent w (.building r) .arm) := by
  obtain ⟨hnone, hbefore, hcached⟩ := hb
  have harmed : Armed (runStep coherent w (.building r) .arm) r (r.added w.files) :=
    ⟨rfl, rfl, hbefore ▸ h.vouched hnone, changed_of_eq hbefore, hcached, hm⟩
  exact inv_of_phase harmed rfl ⟨harmed, hbefore⟩

/-- The built packages are installed, well or in part. -/
theorem Inv.install (coherent : Installed β → Bool) (h : PhaseInv w (.armed r added)) (o : Outcome) :
    Inv (runStep coherent w (.armed r added) (.install o)) := by
  obtain ⟨harmed, hbefore⟩ := h
  have hchanged : Changed w.files r
      (pgoInstall r.host w.files w.installed o r.built false (some r.installSet)).2 := by
    intro n hn
    rw [hbefore] at hn
    exact holds_of_get_ne hn
  rw [runStep]
  split
  · have hnext : Armed { w with
        installed := (pgoInstall r.host w.files w.installed o r.built false
          (some r.installSet)).2
        run := some (.installed r added) } r added :=
      ⟨harmed.adds, harmed.record, harmed.base, hchanged, harmed.cached, harmed.fits⟩
    exact inv_of_phase hnext rfl hnext
  · exact inv_of_armed
      ⟨harmed.adds, harmed.record, harmed.base, hchanged, harmed.cached, harmed.fits⟩ rfl

/-- Gate 3. -/
theorem Inv.verify (coherent : Installed β → Bool) (h : PhaseInv w (.installed r added)) :
    Inv (runStep coherent w (.installed r added) .verify) := by
  rw [runStep]
  split
  · exact inv_of_none rfl rfl (Same.refl _)
  · have hnext : Armed { w with run := some (.failed r added) } r added :=
      ⟨h.adds, h.record, h.base, h.changed, h.cached, h.fits⟩
    exact inv_of_phase hnext rfl hnext

/-- What the rollback leaves, and whether it says that it went well. -/
theorem inv_of_rolledBack {ok : Bool} (hrec : w.record ≠ none)
    (hoffered : ∀ ps, w.record = some (.pacmanUpgrade ps) → Restorable w.files w.base sys ps)
    (hback : ok = true → Same sys w.base) :
    Inv { w with installed := sys, run := if ok then some .restored else none } where
  vouched hnone := absurd hnone hrec
  offered := hoffered
  phase q hq := by
    cases ok with
    | false => exact absurd hq.symm (Option.some_ne_none q)
    | true =>
      obtain rfl := Option.some.inj hq
      exact ⟨hrec, hback rfl⟩

/-- The rollback, well or in part. -/
theorem Inv.rollBack (coherent : Installed β → Bool) (harmed : Armed w r added) (removal install : Outcome) :
    Inv (runStep coherent w (.failed r added) (.rollBack removal install)) := by
  rw [runStep]
  refine inv_of_rolledBack ?_ (fun ps hrec => ?_) fun hok n => ?_
  · rw [harmed.record]
    exact Option.some_ne_none _
  · have heq := Option.some.inj (harmed.record.symm.trans hrec)
    obtain ⟨hadded, hps, -⟩ := snapshotRecovery_eq heq
    rw [hadded]
    exact (harmed.restorable hrec).rolledBack hps
  · rw [harmed.adds] at hok ⊢
    exact (harmed.changed.rolledBack harmed.fits harmed.cached hok n).trans (harmed.base n)

/-- A run that stops leaves what it has. -/
theorem Inv.leave (h : Inv w) : Inv { w with run := none } where
  vouched := h.vouched
  offered := h.offered
  phase _ hphase := absurd hphase.symm (Option.some_ne_none _)

/-- What a run does keeps the invariant. -/
theorem runStep_inv {phase : Phase β} {event : Event β} (h : Inv w)
    (hrun : w.run = some phase) (hf : Fair w event) : Inv (runStep coherent w phase event) := by
  have hp := h.phase phase hrun
  rw [runStep.eq_def]
  split
  · exact h.leave
  · exact h.arm coherent hp (hf _ hrun)
  · exact Inv.install coherent hp _
  · exact Inv.verify coherent hp
  · exact Inv.rollBack coherent hp _ _
  · exact inv_of_none rfl rfl hp.2
  · obtain ⟨suite, hrec⟩ := hp
    split
    · exact inv_of_none rfl rfl (Same.refl _)
    · exact inv_of_sync hrec fun q hq => absurd hq.symm (Option.some_ne_none q)
  · exact h

/-- An answer to a record keeps the invariant. -/
theorem recoverStep_inv {recovery : Recovery} {event : Event β} (h : Inv w)
    (hrun : w.run = none) (hrec : w.record = some recovery) :
    Inv (recoverStep w recovery event) := by
  have hno : ∀ q, w.run = some q → False := fun q hq =>
    absurd (hrun.symm.trans hq).symm (Option.some_ne_none q)
  rw [recoverStep.eq_def]
  split
  case h_1 ps o =>
    split
    · have hrest := h.offered ps hrec
      cases o with
      | ok => exact inv_of_none rfl hrun hrest.restored
      | failed done =>
        refine ⟨fun hnone => ?_, fun qs hqs => ?_, fun q hq => (hno q hq).elim⟩
        · exact absurd (hnone.symm.trans hrec).symm (Option.some_ne_none _)
        · obtain rfl := Recovery.pacmanUpgrade.inj (Option.some.inj (hrec.symm.trans hqs))
          exact hrest.pacmanU (fun q hq => hq) (.failed done)
    · exact h
  · split
    · exact inv_of_none rfl hrun (Same.refl _)
    · exact inv_of_sync hrec fun q hq => (hno q hq).elim
  · exact inv_of_none rfl hrun (Same.refl _)
  · exact h

theorem startStep_inv {event : Event β} (h : Inv w) (hrec : w.record = none)
    (hf : Fair w event) : Inv (startStep w event) := by
  rw [startStep.eq_def]
  split
  · refine ⟨h.vouched, h.offered, fun q hq => ?_⟩
    obtain rfl := Option.some.inj hq
    exact ⟨hrec, rfl, hf⟩
  · refine inv_of_sync rfl fun q hq => ?_
    obtain rfl := Option.some.inj hq
    exact ⟨_, rfl⟩
  · exact h

/-- Files come and go outside of the window. -/
theorem Inv.refiled (h : Inv w) (hwindow : w.inWindow = false)
    (hkept : ∀ p ∈ w.needed, files p = w.files p) : Inv { w with files := files } := by
  rw [World.inWindow] at hwindow
  rw [World.needed] at hkept
  cases hrun : w.run with
  | none =>
    refine ⟨h.vouched, fun ps hrec => ?_, fun q hq => ?_⟩
    · have hrec' : w.record = some (.pacmanUpgrade ps) := hrec
      rw [hrun, hrec'] at hkept
      exact (h.offered ps hrec').kept hkept
    · exact absurd hq.symm (Option.some_ne_none q)
  | some phase =>
    rw [hrun] at hwindow hkept
    cases phase with
    | building r =>
      obtain ⟨hrec, hbefore, hcached⟩ := h.phase _ hrun
      refine ⟨h.vouched, fun ps hoffer => ?_, fun q hq => ?_⟩
      · exact absurd (hrec.symm.trans hoffer).symm (Option.some_ne_none _)
      · obtain rfl := Option.some.inj hq
        refine ⟨hrec, hbefore, fun n p hp => ?_⟩
        obtain ⟨a, ha, hname, hbuild⟩ := hcached n p hp
        exact ⟨a, (hkept p (r.mem_archives hp)).trans ha, hname, hbuild⟩
    | _ => exact absurd hwindow.symm Bool.false_ne_true

/-- **One step**. -/
theorem step_inv (h : Inv w) (event : Event β) (hf : Fair w event) :
    Inv (step coherent w event) := by
  rw [step.eq_def]
  split
  · exact inv_of_none hf.2 hf.1 (Same.refl _)
  · exact h.refiled hf.1 hf.2
  · split
    case h_1 phase _ hrun => exact runStep_inv h hrun hf
    case h_2 recovery hrun hrec => exact recoverStep_inv h hrun hrec
    case h_3 hrun hrec => exact startStep_inv h hrec hf

/-- A run whose clang Gate 3 does not accept. -/
def refusedClang : List (Event Origin) :=
  [.prepare clangHost builtClang, .arm, .install .ok, .verify, .rollBack .ok .ok, .clear]

end Sysforge.Toolchain.Window
