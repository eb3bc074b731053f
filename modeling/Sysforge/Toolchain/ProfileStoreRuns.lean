import Sysforge.Toolchain.ProfileStore

/-!
# Profiles under concurrent runs

Who has the lock is alone with the store, but for two kinds of guest: programs that write raw
profiles, and package builds that found the lock free and purge what is older than themselves. What
such a build deletes was written before the lock was taken, so a training loses nothing.
-/

namespace Sysforge.Toolchain.ProfileStore

open Text
open ProfrawMerge (PgoStore mergeBatch batchMax batchMin isSettled settledFiles sweepResult)
open ProfdataReuse (FileText checkExistingProfdata targetMajor)
open Run (Each)

/-! ## The invariant -/

/-- The store while a run collects its training, which began with a purge. -/
structure Gathering (fs : Files) (started purged cleaned : ℕ) : Prop where
  started_le : started ≤ purged
  purged_le : purged ≤ cleaned
  cleaned_le : cleaned ≤ fs.clock
  sidecar : fs.sidecar = none
  since : ∀ f, f ∈ fs.store.raws ∨ f ∈ fs.store.counts → purged ≤ f.written
  spurious : ∀ f, f ∈ fs.store.raws ∨ f ∈ fs.store.counts → f.written < cleaned → f ∈ fs.undeleted
  counted : ∀ f ∈ fs.store.counts, f ∈ fs.written
  once : ∀ f ∉ fs.undeleted, fs.store.counts.count f ≤ 1 ∧
    (f ∈ fs.store.counts → f ∉ fs.store.raws)
  kept : ∀ f ∈ fs.written, cleaned < f.written → f ∈ fs.store.counts ∨ f ∈ fs.store.raws

/-- The store while the first pass is built. -/
structure Purged (fs : Files) (started purged : ℕ) : Prop where
  started_le : started ≤ purged
  purged_le : purged ≤ fs.clock
  sidecar : fs.sidecar = none
  profdata : fs.store.profdata = none
  since : ∀ f ∈ fs.store.raws, purged ≤ f.written

/-- The profile of a training is in its place. -/
structure Placed (fs : Files) (t : Training) : Prop where
  profdata : fs.store.profdata = some t.profile
  whole : t.Whole

/-- What a phase means for the files. -/
def PhaseInv (fs : Files) (started : ℕ) : Phase → Prop
  | .checking => True
  | .instrument purged => Purged fs started purged
  | .bootstrap purged cleaned => Gathering fs started purged cleaned
  | .train purged cleaned merge =>
    Gathering fs started purged cleaned ∧ ∀ m ∈ merge, m.left.Nodup
  | .sweep purged cleaned before m =>
    Gathering fs started purged cleaned ∧ m.left.Nodup ∧
      (before.profdata.isSome ∨ m.deleted ≠ 0 → fs.store.profdata.isSome)
  | .merged t => Placed fs t ∧ fs.sidecar = none
  | .optimize t => Placed fs t
  | .reuse target s => Placed fs s.training ∧ strip s.label = target

/-- A build that began at `start` found the lock free after that. -/
def Free (clock start : ℕ) (run : Option PgoRun) : Prop :=
  start ≤ clock ∧ ∀ r, run = some r → start ≤ r.started

/-- What a package build may still delete is older than itself. -/
def BuildInv (clock : ℕ) (run : Option PgoRun) : Build → Prop
  | .idle => True
  | .building start => start ≤ clock
  | .probed start => Free clock start run
  | .purging start left => Free clock start run ∧ ∀ f ∈ left, f.written < start

/-- What holds of the files, whoever is at them. -/
structure FilesInv (fs : Files) : Prop where
  past : ∀ f ∈ fs.written, f.written ≤ fs.clock
  numbered : ∀ f ∈ fs.written, f.id < fs.written.length
  known : ∀ f ∈ fs.store.raws, f ∈ fs.written
  nodup : fs.store.raws.Nodup
  ready : ∀ p s, fs.store.profdata = some p → fs.sidecar = some s →
    s.training.profile = p ∧ s.training.Whole

variable {β : Type*}

/-- **The invariant.** -/
structure Inv (w : World β) : Prop where
  files : FilesInv w.files
  run : ∀ r, w.run = some r → r.started ≤ w.files.clock ∧ PhaseInv w.files r.started r.phase
  builds : ∀ b, BuildInv w.files.clock w.run (w.builds b)

/-! ## Guests -/

/-- What happens to the store beside the run that has the lock since `started`: raw profiles come,
and others that are older than the lock go. -/
structure Beside (started : ℕ) (fs fs' : Files) : Prop where
  clock : fs.clock ≤ fs'.clock
  sidecar : fs'.sidecar = fs.sidecar
  profdata : fs'.store.profdata = fs.store.profdata
  undeleted : fs'.undeleted = fs.undeleted
  old : ∀ f ∈ fs'.store.raws, f ∈ fs.store.raws ∨ f ∉ fs.written ∧ fs.clock ≤ f.written
  gone : ∀ f ∈ fs.store.raws, f ∈ fs'.store.raws ∨ f.written < started
  written : ∀ f ∈ fs'.written, f ∈ fs.written ∨ f ∈ fs'.store.raws
  stays : ∀ f ∈ fs.written, f ∈ fs'.written

variable {started purged cleaned clock : ℕ} {fs fs' : Files}

theorem Beside.counts (h : Beside started fs fs') : fs'.store.counts = fs.store.counts := by
  rw [PgoStore.counts, PgoStore.counts, h.profdata]

theorem Purged.beside (hp : Purged fs started purged) (h : Beside started fs fs') :
    Purged fs' started purged where
  started_le := hp.started_le
  purged_le := Nat.le_trans hp.purged_le h.clock
  sidecar := h.sidecar.trans hp.sidecar
  profdata := h.profdata.trans hp.profdata
  since f hf := by
    obtain hf | ⟨-, hf⟩ := h.old f hf
    · exact hp.since f hf
    · exact Nat.le_trans hp.purged_le hf

theorem Gathering.beside (hg : Gathering fs started purged cleaned) (h : Beside started fs fs') :
    Gathering fs' started purged cleaned := by
  have hcounts := h.counts
  -- what came is younger than everything the training goes by
  have hwhere : ∀ f, f ∈ fs'.store.raws ∨ f ∈ fs'.store.counts →
      (f ∈ fs.store.raws ∨ f ∈ fs.store.counts) ∨ fs.clock ≤ f.written := by
    intro f hf
    rw [hcounts] at hf
    obtain hf | hf := hf
    · exact (h.old f hf).imp .inl And.right
    · exact .inl (.inr hf)
  have hpurged := Nat.le_trans hg.purged_le hg.cleaned_le
  refine ⟨hg.started_le, hg.purged_le, Nat.le_trans hg.cleaned_le h.clock,
    h.sidecar.trans hg.sidecar, fun f hf => ?_, fun f hf hlt => ?_, fun f hf => ?_,
    fun f hf => ?_, fun f hf hlt => ?_⟩
  · exact (hwhere f hf).elim (hg.since f) (Nat.le_trans hpurged)
  · obtain hf | hf := hwhere f hf
    · rw [h.undeleted]
      exact hg.spurious f hf hlt
    · exact absurd (Nat.lt_of_lt_of_le hlt hg.cleaned_le) (Nat.not_lt.mpr hf)
  · rw [hcounts] at hf
    exact h.stays f (hg.counted f hf)
  · rw [h.undeleted] at hf
    rw [hcounts]
    refine ⟨(hg.once f hf).1, fun hc hraw => ?_⟩
    obtain hold | ⟨hnew, -⟩ := h.old f hraw
    · exact (hg.once f hf).2 hc hold
    · exact hnew (hg.counted f hc)
  · rw [hcounts]
    obtain hf | hf := h.written f hf
    · refine (hg.kept f hf hlt).imp_right fun hraw => (h.gone f hraw).resolve_right ?_
      have hstarted := Nat.le_trans hg.started_le hg.purged_le
      omega
    · exact .inr hf

theorem Placed.beside {t : Training} (hp : Placed fs t) (h : Beside started fs fs') :
    Placed fs' t := ⟨h.profdata.trans hp.profdata, hp.whole⟩

theorem PhaseInv.beside {phase : Phase} (hp : PhaseInv fs started phase)
    (h : Beside started fs fs') : PhaseInv fs' started phase := by
  cases phase with
  | checking => trivial
  | instrument => exact Purged.beside hp h
  | bootstrap => exact Gathering.beside hp h
  | train => exact ⟨hp.1.beside h, hp.2⟩
  | sweep =>
    refine ⟨hp.1.beside h, hp.2.1, fun hs => ?_⟩
    rw [h.profdata]
    exact hp.2.2 hs
  | merged => exact ⟨hp.1.beside h, h.sidecar.trans hp.2⟩
  | optimize => exact Placed.beside hp h
  | reuse => exact ⟨hp.1.beside h, hp.2⟩

/-- Time passes. -/
theorem beside_tick (elapsed : ℕ) :
    Beside started fs { fs with clock := fs.clock + elapsed } where
  clock := Nat.le_add_right ..
  sidecar := rfl
  profdata := rfl
  undeleted := rfl
  old _ hf := .inl hf
  gone _ hf := .inl hf
  written _ hf := .inl hf
  stays _ hf := hf

/-- A raw profile has a number that no other has. -/
theorem FilesInv.new_notMem (h : FilesInv fs) : ⟨fs.written.length, fs.clock⟩ ∉ fs.written :=
  fun hmem => Nat.lt_irrefl _ (h.numbered _ hmem)

theorem beside_write (h : FilesInv fs) : Beside started fs fs.write where
  clock := Nat.le_refl _
  sidecar := rfl
  profdata := rfl
  undeleted := rfl
  old f hf := by
    obtain hf | hf := List.mem_append.mp hf
    · exact .inl hf
    · obtain rfl := List.mem_singleton.mp hf
      exact .inr ⟨h.new_notMem, Nat.le_refl _⟩
  gone f hf := .inl (List.mem_append_left _ hf)
  written f hf := by
    obtain rfl | hf := List.mem_cons.mp hf
    · exact .inr (List.mem_append_right _ (List.mem_singleton_self _))
    · exact .inl hf
  stays f hf := List.mem_cons_of_mem _ hf

/-- What a package build deletes is older than the lock. -/
theorem beside_unlink {f : Raw} {ok : Bool} (hf : f.written < started) :
    Beside started fs (fs.unlink f ok) := by
  rw [Files.unlink]
  split
  · refine ⟨Nat.le_refl _, rfl, rfl, rfl, fun g hg => .inl (List.mem_of_mem_filter hg),
      fun g hg => ?_, fun g hg => .inl hg, fun g hg => hg⟩
    by_cases hgf : g = f
    · exact .inr (hgf ▸ hf)
    · exact .inl (List.mem_filter.mpr ⟨hg, decide_eq_true hgf⟩)
  · exact ⟨Nat.le_refl _, rfl, rfl, rfl, fun g hg => .inl hg, fun g hg => .inl hg,
      fun g hg => .inl hg, fun g hg => hg⟩

/-! ## The files -/

/-- Fewer files, and nothing new. -/
structure Fewer (fs fs' : Files) : Prop where
  clock : fs'.clock = fs.clock
  written : fs'.written = fs.written
  raws : fs'.store.raws.Sublist fs.store.raws

theorem FilesInv.fewer (h : FilesInv fs) (hf : Fewer fs fs')
    (hready : ∀ p s, fs'.store.profdata = some p → fs'.sidecar = some s →
      s.training.profile = p ∧ s.training.Whole) : FilesInv fs' where
  past := by
    rw [hf.written, hf.clock]
    exact h.past
  numbered := by
    rw [hf.written]
    exact h.numbered
  known f hmem := by
    rw [hf.written]
    exact h.known f (hf.raws.subset hmem)
  nodup := h.nodup.sublist hf.raws
  ready := hready

theorem fewer_keep (keep : Raw → Bool) (profdata sidecar : Bool) :
    Fewer fs (fs.keep keep profdata sidecar) := ⟨rfl, rfl, List.filter_sublist⟩

theorem FilesInv.keep (h : FilesInv fs) (keep : Raw → Bool) (profdata sidecar : Bool) :
    FilesInv (fs.keep keep profdata sidecar) := by
  refine h.fewer (fewer_keep ..) fun p s hp hs => ?_
  rw [Files.keep] at hp hs
  dsimp only at hp hs
  split at hp
  · split at hs
    · exact h.ready p s hp hs
    · exact absurd hs.symm (Option.some_ne_none s)
  · exact absurd hp.symm (Option.some_ne_none p)

theorem FilesInv.unlink (h : FilesInv fs) (f : Raw) (ok : Bool) : FilesInv (fs.unlink f ok) := by
  rw [Files.unlink]
  split
  · exact h.fewer ⟨rfl, rfl, List.filter_sublist⟩ h.ready
  · exact h

theorem FilesInv.write (h : FilesInv fs) : FilesInv fs.write where
  past f hf := by
    obtain rfl | hf := List.mem_cons.mp hf
    · exact Nat.le_refl _
    · exact h.past f hf
  numbered f hf := by
    obtain rfl | hf := List.mem_cons.mp hf
    · exact Nat.lt_succ_self _
    · exact Nat.lt_succ_of_lt (h.numbered f hf)
  known f hf := by
    obtain hf | hf := List.mem_append.mp hf
    · exact List.mem_cons_of_mem _ (h.known f hf)
    · exact List.mem_cons.mpr (.inl (List.mem_singleton.mp hf))
  nodup := by
    refine List.nodup_append.mpr ⟨h.nodup, List.nodup_singleton _, fun f hf g hg hfg => ?_⟩
    rw [List.mem_singleton.mp hg] at hfg
    exact h.new_notMem (hfg ▸ h.known f hf)
  ready := h.ready

theorem FilesInv.tick (h : FilesInv fs) (elapsed : ℕ) :
    FilesInv { fs with clock := fs.clock + elapsed } where
  past f hf := Nat.le_add_right_of_le (h.past f hf)
  numbered := h.numbered
  known := h.known
  nodup := h.nodup
  ready := h.ready

/-! ## The run -/

variable {m : Merge} {ok : Bool} {unlink : Raw → Bool} {alnum : Char → Bool}

theorem keep_none : (fs.keep (fun _ => false) false false).store = ⟨[], none⟩ := by
  rw [Files.keep, List.filter_false]
  rfl

/-- The purge of the store. -/
theorem purged_keep (hs : started ≤ fs.clock) :
    Purged (fs.keep (fun _ => false) false false) started fs.clock where
  started_le := hs
  purged_le := Nat.le_refl _
  sidecar := rfl
  profdata := rfl
  since f hf := by
    rw [keep_none] at hf
    exact absurd hf List.not_mem_nil

/-- The purge of what the first pass wrote. -/
theorem Purged.purgeSpurious (hp : Purged fs started purged) (h : FilesInv fs) :
    Gathering (fs.purgeSpurious unlink) started purged fs.clock := by
  have hnone : (fs.purgeSpurious unlink).store.counts = 0 := by
    rw [PgoStore.counts, Files.purgeSpurious, hp.profdata]
    rfl
  have hraw : ∀ f, f ∈ (fs.purgeSpurious unlink).store.raws ∨
      f ∈ (fs.purgeSpurious unlink).store.counts → f ∈ fs.store.raws.filter (!unlink ·) := by
    intro f hf
    rw [hnone] at hf
    exact hf.resolve_right (Multiset.notMem_zero f)
  refine ⟨hp.started_le, hp.purged_le, Nat.le_refl _, hp.sidecar, fun f hf => ?_,
    fun f hf _ => ?_, fun f hf => ?_, fun f _ => ?_, fun f hf hlt => ?_⟩
  · exact hp.since f (List.mem_of_mem_filter (hraw f hf))
  · exact List.mem_append_left _ (hraw f hf)
  · rw [hnone] at hf
    exact absurd hf (Multiset.notMem_zero f)
  · rw [hnone]
    exact ⟨Nat.zero_le _, fun hf => absurd hf (Multiset.notMem_zero f)⟩
  · exact absurd (h.past f hf) (Nat.not_le.mpr hlt)

/-- A batch that is merged. -/
theorem merge_ok : fs.merge m true unlink =
    { fs with
      store :=
        { raws := fs.store.raws.filter fun f => !(f ∈ m.batch && unlink f)
          profdata := some (fs.store.counts + Multiset.ofList m.batch) }
      undeleted := m.batch.filter (!unlink ·) ++ fs.undeleted } := rfl

theorem merge_failed : fs.merge m false unlink = fs := rfl

/-- A batch of raw files that are there is merged. -/
theorem Gathering.merge (hg : Gathering fs started purged cleaned) (hnodup : m.batch.Nodup)
    (hraws : ∀ f ∈ m.batch, f ∈ fs.store.raws) (h : FilesInv fs) :
    Gathering (fs.merge m true unlink) started purged cleaned := by
  rw [merge_ok]
  have hcount : ∀ f, (fs.store.counts + Multiset.ofList m.batch).count f =
      fs.store.counts.count f + m.batch.count f := fun f => by
    rw [Multiset.count_add, Multiset.coe_count]
  have hmem : ∀ f, f ∈ fs.store.counts + Multiset.ofList m.batch ↔
      f ∈ fs.store.counts ∨ f ∈ m.batch := fun f => by
    rw [Multiset.mem_add, Multiset.mem_coe]
  have hwhere : ∀ f, f ∈ (fs.store.raws.filter fun f => !(f ∈ m.batch && unlink f)) ∨
      f ∈ fs.store.counts + Multiset.ofList m.batch →
      f ∈ fs.store.raws ∨ f ∈ fs.store.counts := by
    rintro f (hf | hf)
    · exact .inl (List.mem_of_mem_filter hf)
    · exact ((hmem f).mp hf).symm.imp_left (hraws f)
  refine ⟨hg.started_le, hg.purged_le, hg.cleaned_le, hg.sidecar, fun f hf => ?_,
    fun f hf hlt => ?_, fun f hf => ?_, fun f hf => ?_, fun f hf hlt => ?_⟩
  · exact hg.since f (hwhere f hf)
  · exact List.mem_append_right _ (hg.spurious f (hwhere f hf) hlt)
  · exact ((hmem f).mp hf).elim (hg.counted f) fun hb => h.known f (hraws f hb)
  · obtain ⟨hdeleted, hundeleted⟩ := not_or.mp (fun hor => hf (List.mem_append.mpr hor))
    obtain ⟨hle, hnot⟩ := hg.once f hundeleted
    show (fs.store.counts + Multiset.ofList m.batch).count f ≤ 1 ∧
      (f ∈ fs.store.counts + Multiset.ofList m.batch →
        f ∉ fs.store.raws.filter fun f => !(f ∈ m.batch && unlink f))
    rw [hcount]
    by_cases hb : f ∈ m.batch
    · have hzero : fs.store.counts.count f = 0 :=
        Multiset.count_eq_zero.mpr fun hc => hnot hc (hraws f hb)
      have hunlink : unlink f = true := by
        by_contra hu
        refine hdeleted (List.mem_filter.mpr ⟨hb, ?_⟩)
        rw [Bool.eq_false_of_not_eq_true hu]
        rfl
      rw [hzero, Nat.zero_add]
      refine ⟨List.nodup_iff_count_le_one.mp hnodup f, fun _ hraw => ?_⟩
      have hkept := (List.mem_filter.mp hraw).2
      rw [hunlink, decide_eq_true hb] at hkept
      exact absurd hkept Bool.false_ne_true
    · rw [List.count_eq_zero_of_not_mem hb, Nat.add_zero]
      refine ⟨hle, fun hc hraw => ?_⟩
      exact hnot (((hmem f).mp hc).resolve_right hb) (List.mem_of_mem_filter hraw)
  · show f ∈ fs.store.counts + Multiset.ofList m.batch ∨
      f ∈ fs.store.raws.filter fun f => !(f ∈ m.batch && unlink f)
    rw [hmem]
    by_cases hb : f ∈ m.batch
    · exact .inl (.inr hb)
    · refine (hg.kept f hf hlt).imp .inl fun hraw => List.mem_filter.mpr ⟨hraw, ?_⟩
      rw [decide_eq_false hb]
      rfl

theorem succeeds_iff : m.succeeds fs ok = true ↔ ok = true ∧ ∀ f ∈ m.batch, f ∈ fs.store.raws := by
  rw [Merge.succeeds, Bool.and_eq_true, List.all_eq_true]
  simp only [decide_eq_true_eq]

/-- One turn of the loop of `do_profraw_merge`. -/
theorem Gathering.attempt (hg : Gathering fs started purged cleaned) (hnodup : m.left.Nodup)
    (h : FilesInv fs) :
    Gathering (fs.merge m (m.succeeds fs ok) unlink) started purged cleaned := by
  cases hok : m.succeeds fs ok with
  | false => exact hg
  | true =>
    exact hg.merge (hnodup.sublist (List.take_sublist ..)) (succeeds_iff.mp hok).2 h

theorem FilesInv.attempt (h : FilesInv fs) (hsidecar : fs.sidecar = none) :
    FilesInv (fs.merge m ok unlink) := by
  cases ok with
  | false => exact h
  | true =>
    refine h.fewer ⟨rfl, rfl, List.filter_sublist⟩ fun p s _ hs => ?_
    exact absurd (hsidecar.symm.trans hs) (Option.some_ne_none s).symm

theorem nodup_next (hnodup : m.left.Nodup) : (m.next ok unlink).left.Nodup := by
  rw [Merge.next]
  split
  · exact hnodup.sublist (List.drop_sublist ..)
  · split
    · exact hnodup
    · exact List.nodup_nil

/-- A loop that has deleted something has made a profile. -/
theorem isSome_attempt {p : Prop}
    (hs : p ∨ m.deleted ≠ 0 → fs.store.profdata.isSome) :
    p ∨ (m.next ok unlink).deleted ≠ 0 → (fs.merge m ok unlink).store.profdata.isSome := by
  cases ok with
  | true => exact fun _ => rfl
  | false =>
    have hdeleted : (m.next false unlink).deleted = m.deleted := by
      rw [Merge.next, if_neg Bool.false_ne_true]
      split
      · rfl
      · rfl
    rw [hdeleted, merge_failed]
    exact hs

/-- A store whose training is over. -/
theorem Gathering.placed (hg : Gathering fs started purged cleaned)
    (hs : fs.store.profdata.isSome) : Placed fs (fs.training purged cleaned) := by
  obtain ⟨p, hp⟩ := Option.isSome_iff_exists.mp hs
  have hcounts : fs.store.counts = p := by
    rw [PgoStore.counts, hp]
    rfl
  refine ⟨hp.trans (congrArg some hcounts.symm), ?_⟩
  exact ⟨fun f hf => ⟨hg.counted f hf, hg.since f (.inr hf)⟩, fun f hf => hg.spurious f (.inr hf),
    fun f hf => (hg.once f hf).1, hg.kept⟩

/-- What the check says of a saved profile that it lets through. -/
theorem saved_of_ready {pgoMap : List (Text × FileText)} {s : Sidecar} {target : Text}
    (hk : (checkExistingProfdata alnum fs.saved pgoMap).kind = .ready)
    (hs : fs.sidecar = some s) (hm : major alnum pgoMap = some target) :
    fs.store.profdata.isSome ∧ strip s.label = target := by
  rw [checkExistingProfdata, ProfdataReuse.withSaved, Files.saved, hs] at hk
  dsimp only [Option.map_some] at hk
  split at hk
  · cases hk
  case isFalse hsome =>
    rw [Bool.not_eq_true, Bool.not_eq_false'] at hsome
    refine ⟨hsome, ?_⟩
    rw [major] at hm
    rw [hm, ProfdataReuse.compareTarget, ProfdataReuse.compareMajor] at hk
    split at hk
    · cases hk
    case isFalse hne => exact not_not.mp hne

/-! ## Merges that are left alone -/

/-- Turns of the loop of `do_profraw_merge`, from an attempt on, with nobody else at the store. -/
def turns (ok : ℕ → Bool) (unlink : Raw → Bool) : ℕ → ℕ → Files → Merge → Files × Merge
  | 0, _, fs, m => (fs, m)
  | n + 1, k, fs, m =>
    if m.left.isEmpty then (fs, m)
    else
      turns ok unlink n (k + 1) (fs.merge m (m.succeeds fs (ok k)) unlink)
        (m.next (m.succeeds fs (ok k)) unlink)

theorem turns_of_isEmpty {ok : ℕ → Bool} {n k : ℕ} (h : m.left.isEmpty = true) :
    turns ok unlink n k fs m = (fs, m) := by
  cases n with
  | zero => rfl
  | succ => rw [turns, if_pos h]

/-- What is left of a merge is still there when a batch has been merged. -/
theorem mem_raws_merge (hnodup : m.left.Nodup) (hraws : ∀ f ∈ m.left, f ∈ fs.store.raws)
    {f : Raw} (hf : f ∈ m.left.drop m.batchSize) :
    f ∈ (fs.merge m true unlink).store.raws := by
  rw [merge_ok]
  refine List.mem_filter.mpr ⟨hraws f (List.mem_of_mem_drop hf), ?_⟩
  have hb : f ∉ m.batch := by
    intro hb
    rw [← List.take_append_drop m.batchSize m.left] at hnodup
    exact (List.nodup_append.mp hnodup).2.2 f hb f hf rfl
  rw [decide_eq_false hb]
  rfl

/-- The turns are those of the loop. -/
theorem turns_loop {ok : ℕ → Bool} {n k : ℕ} {p p' : ProfrawMerge.Progress Raw}
    (hloop : Batches.loop ok batchMin (mergeBatch unlink) n k m.batchSize m.left p = some p')
    (hstore : p.store = fs.store) (hdeleted : p.deleted = m.deleted) (hnodup : m.left.Nodup)
    (hraws : ∀ f ∈ m.left, f ∈ fs.store.raws) :
    (turns ok unlink n k fs m).1.store = p'.store ∧
      (turns ok unlink n k fs m).2.deleted = p'.deleted := by
  induction n generalizing k fs m p with
  | zero => exact absurd hloop.symm (Option.some_ne_none p')
  | succ n ih =>
    rw [Batches.loop] at hloop
    rw [turns]
    split at hloop
    case isTrue hnil =>
      obtain rfl := Option.some.inj hloop
      rw [if_pos hnil]
      exact ⟨hstore.symm, hdeleted.symm⟩
    case isFalse hnil =>
      rw [if_neg hnil]
      split at hloop
      case isTrue hok =>
        have hs : m.succeeds fs (ok k) = true :=
          succeeds_iff.mpr ⟨hok, fun f hf => hraws f (List.mem_of_mem_take hf)⟩
        rw [hs]
        refine ih hloop ?_ ?_ (nodup_next hnodup) fun f hf => mem_raws_merge hnodup hraws hf
        · show (mergeBatch unlink p m.batch).store = _
          rw [mergeBatch, hstore]
          rfl
        · show p.deleted + (m.batch.filter unlink).length = _
          rw [hdeleted]
          rfl
      case isFalse hok =>
        have hs : m.succeeds fs (ok k) = false := by
          rw [Merge.succeeds, Bool.eq_false_of_not_eq_true hok, Bool.false_and]
        rw [hs, merge_failed]
        split at hloop
        case isTrue hlt =>
          have hnext : m.next false unlink = { m with batchSize := m.batchSize / 2 } := by
            rw [Merge.next, if_neg Bool.false_ne_true, if_pos hlt]
          rw [hnext]
          exact ih hloop hstore hdeleted hnodup hraws
        case isFalse hlt =>
          obtain rfl := Option.some.inj hloop
          have hnext : m.next false unlink = { m with left := [] } := by
            rw [Merge.next, if_neg Bool.false_ne_true, if_neg hlt]
          rw [hnext, turns_of_isEmpty rfl]
          exact ⟨hstore.symm, hdeleted.symm⟩

/-- **A merge that is left alone** is `do_profraw_merge`. -/
theorem turns_doProfrawMerge {ok : ℕ → Bool} {n : ℕ} {p : ProfrawMerge.Progress Raw}
    (h : FilesInv fs) (hmerge : ProfrawMerge.doProfrawMerge unlink Raw.mtime fs.clock ok n fs.store =
      some p) :
    let s := turns ok unlink n 0 fs { left := settledFiles Raw.mtime fs.clock fs.store }
    s.1.store = p.store ∧ s.2.deleted = p.deleted := by
  rw [ProfrawMerge.doProfrawMerge] at hmerge
  split at hmerge
  case isTrue hnil =>
    obtain rfl := Option.some.inj hmerge
    have hturns : turns ok unlink n 0 fs
        { left := settledFiles Raw.mtime fs.clock fs.store } = (fs, _) := turns_of_isEmpty hnil
    rw [hturns]
    exact ⟨rfl, rfl⟩
  case isFalse =>
    exact turns_loop hmerge rfl rfl (h.nodup.sublist List.filter_sublist)
      fun f hf => List.mem_of_mem_filter hf

/-! ## Steps -/

section Steps

variable {w : World β} {r : PgoRun} {phase : Phase}

theorem BuildInv.enter {r' : PgoRun} (hs : r'.started = r.started) {b : Build}
    (h : BuildInv clock (some r) b) : BuildInv clock (some r') b := by
  have hfree : ∀ start, Free clock start (some r) → Free clock start (some r') := by
    rintro start ⟨hle, hrun⟩
    refine ⟨hle, fun q hq => ?_⟩
    obtain rfl := Option.some.inj hq
    exact hs ▸ hrun r rfl
  cases b with
  | idle => trivial
  | building => exact h
  | probed => exact hfree _ h
  | purging => exact ⟨hfree _ h.1, h.2⟩

/-- Nothing is asked of a build when the lock is free, and later. -/
theorem BuildInv.free {run : Option PgoRun} {b : Build} (h : BuildInv clock run b) :
    BuildInv clock none b := by
  have hfree : ∀ start, Free clock start run → Free clock start none := fun start hfree =>
    ⟨hfree.1, fun q hq => absurd hq.symm (Option.some_ne_none q)⟩
  cases b with
  | idle => trivial
  | building => exact h
  | probed => exact hfree _ h
  | purging => exact ⟨hfree _ h.1, h.2⟩

theorem BuildInv.later {run : Option PgoRun} {b : Build} (h : BuildInv clock run b)
    (elapsed : ℕ) : BuildInv (clock + elapsed) run b := by
  have hfree : ∀ start, Free clock start run → Free (clock + elapsed) start run :=
    fun start hfree => ⟨Nat.le_add_right_of_le hfree.1, hfree.2⟩
  cases b with
  | idle => trivial
  | building => exact Nat.le_add_right_of_le h
  | probed => exact hfree _ h
  | purging => exact ⟨hfree _ h.1, h.2⟩

/-- Who takes the lock takes it after the builds that found it free began. -/
theorem BuildInv.lock {b : Build} (h : BuildInv clock none b) :
    BuildInv clock (some { started := clock }) b := by
  have hfree : ∀ start, Free clock start none → Free clock start (some { started := clock }) := by
    rintro start ⟨hle, -⟩
    refine ⟨hle, fun q hq => ?_⟩
    obtain rfl := Option.some.inj hq
    exact hle
  cases b with
  | idle => trivial
  | building => exact h
  | probed => exact hfree _ h
  | purging => exact ⟨hfree _ h.1, h.2⟩

theorem Inv.enter (h : Inv w) (hr : w.run = some r) (hclock : fs.clock = w.files.clock)
    (hfiles : FilesInv fs) (hp : PhaseInv fs r.started phase) : Inv (w.enter r fs phase) where
  files := hfiles
  run q hq := by
    obtain rfl := Option.some.inj hq
    exact ⟨hclock ▸ (h.run r hr).1, hp⟩
  builds b := by
    have hb := h.builds b
    rw [hr] at hb
    show BuildInv fs.clock (some { r with phase := phase }) (w.builds b)
    rw [hclock]
    refine BuildInv.enter ?_ hb
    rfl

theorem Inv.leave (h : Inv w) (hclock : fs.clock = w.files.clock) (hfiles : FilesInv fs) :
    Inv (w.leave fs) where
  files := hfiles
  run q hq := absurd hq.symm (Option.some_ne_none q)
  builds b := by
    show BuildInv fs.clock none (w.builds b)
    rw [hclock]
    exact (h.builds b).free

/-- The end of the last sweep. -/
theorem Inv.conclude (h : Inv w) (hr : w.run = some r) (hclock : fs.clock = w.files.clock)
    (hfiles : FilesInv fs) (hg : Gathering fs r.started purged cleaned) {before : PgoStore Raw}
    {deleted : ℕ} (hs : before.profdata.isSome ∨ deleted ≠ 0 → fs.store.profdata.isSome) :
    Inv (w.conclude r fs purged cleaned before deleted) := by
  rw [World.conclude]
  split
  case h_1 path hok =>
    refine h.enter hr hclock hfiles ⟨hg.placed (hs ?_), hg.sidecar⟩
    have hback := ProfrawMerge.sweepResult_ok.mp ⟨path, hok⟩
    by_cases hdeleted : deleted = 0
    · exact .inl (hback hdeleted).1
    · exact .inr hdeleted
  case h_2 => exact h.leave hclock hfiles

theorem Inv.startSweep (h : Inv w) (hr : w.run = some r)
    (hg : Gathering w.files r.started purged cleaned) : Inv (w.startSweep r purged cleaned) := by
  rw [World.startSweep]
  split
  · split
    · exact h.leave rfl h.files
    case isFalse hsome =>
      refine h.enter hr rfl h.files ⟨hg.placed ?_, hg.sidecar⟩
      rw [← Option.not_isNone, Bool.eq_false_of_not_eq_true hsome]
      rfl
  · split
    · exact h.conclude hr rfl h.files hg fun hs => hs.resolve_right fun hne => hne rfl
    · refine h.enter hr rfl h.files ⟨hg, h.files.nodup.sublist List.filter_sublist, fun hs => ?_⟩
      exact hs.resolve_right fun hne => hne rfl

theorem Inv.afterAttempt (h : Inv w) (hr : w.run = some r) (hclock : fs.clock = w.files.clock)
    (hfiles : FilesInv fs) (hg : Gathering fs r.started purged cleaned) {before : PgoStore Raw}
    (hnodup : m.left.Nodup)
    (hs : before.profdata.isSome ∨ m.deleted ≠ 0 → fs.store.profdata.isSome) :
    Inv (w.afterAttempt r fs purged cleaned before m) := by
  rw [World.afterAttempt]
  split
  · exact h.conclude hr hclock hfiles hg hs
  · exact h.enter hr hclock hfiles ⟨hg, hnodup, hs⟩

theorem clock_merge : (fs.merge m ok unlink).clock = fs.clock := by
  cases ok <;> rfl

theorem phaseInv_train (hg : Gathering fs started purged cleaned) (hnodup : m.left.Nodup) :
    PhaseInv fs started (trainPhase purged cleaned m) := by
  refine ⟨hg, fun q hq => ?_⟩
  split at hq
  · exact absurd hq (Option.not_mem_none q)
  · obtain rfl := Option.some.inj hq
    exact hnodup

theorem Inv.reuse (h : Inv w) (hr : w.run = some r) (pgoMap : List (Text × FileText)) :
    Inv (w.reuse alnum r pgoMap) := by
  rw [World.reuse]
  split
  case isTrue hk =>
    split
    case h_1 s target hs hm =>
      obtain ⟨hsome, hlabel⟩ := saved_of_ready hk hs hm
      obtain ⟨p, hp⟩ := Option.isSome_iff_exists.mp hsome
      obtain ⟨hprofile, hwhole⟩ := h.files.ready p s hp hs
      refine h.enter hr rfl h.files ⟨⟨?_, hwhole⟩, hlabel⟩
      rw [hp, hprofile]
    case h_2 => exact h
  case isFalse => exact h

/-- What the run that has the lock does keeps the invariant. -/
theorem runStep_inv (h : Inv w) (hr : w.run = some r) (event : Event β) :
    Inv (runStep alnum w r event) := by
  obtain ⟨hstarted, hp⟩ := h.run r hr
  rw [runStep.eq_def]
  split
  case h_1 => exact h.leave rfl h.files
  case h_2 => exact h.reuse hr _
  case h_3 => exact h.enter hr rfl (h.files.keep ..) (purged_keep hstarted)
  case h_4 => exact h.leave rfl (h.files.keep ..)
  case h_5 unlink hphase =>
    rw [hphase] at hp
    have hg : Gathering (w.files.purgeSpurious unlink) _ _ _ := Purged.purgeSpurious hp h.files
    refine h.enter hr rfl (h.files.fewer ⟨rfl, rfl, List.filter_sublist⟩ fun p s _ hs => ?_) hg
    exact absurd (hg.sidecar.symm.trans hs) (Option.some_ne_none s).symm
  case h_6 hphase =>
    rw [hphase] at hp
    exact h.enter hr rfl h.files ⟨hp, fun m hm => absurd hm (Option.not_mem_none m)⟩
  case h_7 hphase =>
    rw [hphase] at hp
    exact h.enter hr rfl h.files
      (phaseInv_train hp.1 (h.files.nodup.sublist List.filter_sublist))
  case h_8 m ok unlink hphase =>
    rw [hphase] at hp
    have hnodup := hp.2 m rfl
    exact h.enter hr clock_merge (h.files.attempt hp.1.sidecar)
      (phaseInv_train (hp.1.attempt hnodup h.files) (nodup_next hnodup))
  case h_9 hphase =>
    rw [hphase] at hp
    exact h.startSweep hr hp.1
  case h_10 hphase =>
    rw [hphase] at hp
    obtain ⟨hg, hnodup, hs⟩ := hp
    exact h.afterAttempt hr clock_merge (h.files.attempt hg.sidecar) (hg.attempt hnodup h.files)
      (nodup_next hnodup) (isSome_attempt hs)
  case h_11 t pgoMap ok hphase =>
    rw [hphase] at hp
    obtain ⟨hplaced, -⟩ := hp
    split
    · refine h.enter hr rfl ⟨h.files.past, h.files.numbered, h.files.known, h.files.nodup,
        fun p s hp hs => ?_⟩ ⟨hplaced.profdata, hplaced.whole⟩
      obtain rfl := Option.some.inj hs
      exact ⟨Option.some.inj (hplaced.profdata.symm.trans hp), hplaced.whole⟩
    · exact h.enter hr rfl h.files hplaced
  case h_12 => exact h

variable [DecidableEq β]

theorem Inv.build (h : Inv w) (hclock : fs.clock = w.files.clock) (hfiles : FilesInv fs)
    (hrun : ∀ r, w.run = some r → PhaseInv fs r.started r.phase) {b : β} {next : Build}
    (hb : BuildInv fs.clock w.run next) : Inv (w.build b fs next) where
  files := hfiles
  run r hr := ⟨hclock ▸ (h.run r hr).1, hrun r hr⟩
  builds b' := by
    show BuildInv fs.clock w.run (Function.update w.builds b next b')
    by_cases hbb : b' = b
    · subst hbb
      rw [Function.update_self]
      exact hb
    · rw [Function.update_of_ne hbb, hclock]
      exact h.builds b'

/-- What a package build does keeps the invariant. -/
theorem buildStep_inv (h : Inv w) (b : β) (event : Event β) :
    Inv (buildStep w b (w.builds b) event) := by
  have hb := h.builds b
  have hrun : ∀ r, w.run = some r → PhaseInv w.files r.started r.phase := fun r hr =>
    (h.run r hr).2
  generalize hbuild : w.builds b = build at hb
  rw [buildStep.eq_def]
  split
  · exact h.build rfl h.files hrun (Nat.le_refl _)
  · exact h.build rfl h.files hrun trivial
  · split
    · exact h.build rfl h.files hrun trivial
    case isFalse hfree =>
      rw [Bool.not_eq_true, Option.isSome_eq_false_iff, Option.isNone_iff_eq_none] at hfree
      refine h.build rfl h.files hrun ⟨hb, fun r hr => ?_⟩
      exact absurd (hfree.symm.trans hr).symm (Option.some_ne_none r)
  · split
    · exact h.build rfl h.files hrun trivial
    case isFalse hfresh =>
      refine h.build rfl h.files hrun ⟨hb, fun f hf => ?_⟩
      by_contra hlt
      refine hfresh (List.any_eq_true.mpr ⟨f, hf, decide_eq_true ?_⟩)
      omega
  case h_5 start f left _ ok =>
    obtain ⟨hfree, hold⟩ := hb
    have hf := hold f List.mem_cons_self
    refine h.build ?_ (h.files.unlink f ok) (fun r hr => ?_) ⟨?_, fun g hg => ?_⟩
    · cases ok <;> rfl
    · exact (hrun r hr).beside (beside_unlink (Nat.lt_of_lt_of_le hf (hfree.2 r hr)))
    · cases ok <;> exact hfree
    · exact hold g (List.mem_cons_of_mem _ hg)
  · exact h

theorem partyStep_inv (h : Inv w) (event : Event β) : Inv (partyStep alnum w event) := by
  rw [partyStep]
  split
  · exact buildStep_inv h _ event
  case h_2 r _ hr => exact runStep_inv h hr event
  · exact h

omit [DecidableEq β] in
/-- What happens beside everything that is going on. -/
theorem Inv.beside (h : Inv w) (hfiles : FilesInv fs)
    (hbeside : ∀ started, Beside started w.files fs) {elapsed : ℕ}
    (hclock : fs.clock = w.files.clock + elapsed) : Inv { w with files := fs } where
  files := hfiles
  run r hr := by
    obtain ⟨hle, hp⟩ := h.run r hr
    exact ⟨Nat.le_trans hle (hbeside 0).clock, hp.beside (hbeside _)⟩
  builds b := by
    show BuildInv fs.clock w.run (w.builds b)
    rw [hclock]
    exact (h.builds b).later elapsed

/-- **One step**. -/
theorem step_inv (h : Inv w) (event : Event β) (hc : Calm w event) : Inv (step alnum w event) := by
  cases event with
  | tick elapsed =>
    exact h.beside (h.files.tick elapsed) (fun _ => beside_tick elapsed) rfl
  | raw => exact h.beside h.files.write (fun _ => beside_write h.files) (Nat.add_zero _).symm
  | delete keep profdata sidecar =>
    refine ⟨h.files.keep .., fun r hr => ?_, fun b => h.builds b⟩
    exact absurd (hc.symm.trans hr).symm (Option.some_ne_none r)
  | lock =>
    rw [step]
    split
    · exact h
    case isFalse hfree =>
      rw [Bool.not_eq_true, Option.isSome_eq_false_iff, Option.isNone_iff_eq_none] at hfree
      refine ⟨h.files, fun r hr => ?_, fun b => ?_⟩
      · obtain rfl := Option.some.inj hr
        exact ⟨Nat.le_refl _, trivial⟩
      · have hb := h.builds b
        rw [hfree] at hb
        exact hb.lock
  | _ =>
    rw [step.eq_def]
    exact partyStep_inv h _

omit [DecidableEq β] in
theorem inv_init : Inv ({} : World β) where
  files :=
    ⟨fun _ hf => absurd hf List.not_mem_nil, fun _ hf => absurd hf List.not_mem_nil,
      fun _ hf => absurd hf List.not_mem_nil, List.nodup_nil,
      fun p _ hp => absurd hp.symm (Option.some_ne_none p)⟩
  run r hr := absurd hr.symm (Option.some_ne_none r)
  builds _ := trivial

/-- A training that is merged while it goes on: one raw profile of the first pass, and one more. -/
def oneTraining : List (Event Unit) :=
  [.lock, .purge, .raw, .instrumented fun _ => true, .bootstrapped, .tick second, .raw,
    .tick (10 * second), .wake, .attempt true fun _ => true, .trained, .label [] true]

end Steps

end Sysforge.Toolchain.ProfileStore
