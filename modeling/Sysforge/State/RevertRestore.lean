import Sysforge.State.BuildStateRuns
import Sysforge.State.BuildStateShared

/-!
# Undoing a record and restoring it

A build records its package; when pacman refuses the artifact the record is undone, as often as the
artifact is refused again, and when the artifact is installed at last the undone record is
reinstated. In between the state is saved and reloaded. `reinstated_of_readable` is the law: what the
build recorded stands in the end, in every run that reloads only what the file can carry.
-/

namespace Sysforge.BuildState

open Toml

/-! ## Reading a clean state -/

section Read

variable {s s' : BuildState} {e : Entry} {k n : String} {o : Option String} {b : Option Bool}

theorem lookup_values_items (hk : e.fields.lookup k = some (o.map Scalar.str)) :
    (values e.items).lookup k = o.map Value.str := by
  have hnodup : (Assoc.keys e.fields).Nodup := (by decide : (Assoc.keys (Entry.fields {})).Nodup)
  have hlookup := Assoc.lookup_filterMap id hnodup k
  rw [hk, Option.join_some, Option.map_id] at hlookup
  rw [values, Assoc.lookup_map fun _ => Scalar.value]
  refine (congrArg _ hlookup).trans ?_
  cases o <;> rfl

theorem strField_items (hk : e.fields.lookup k = some (o.map Scalar.str)) :
    strField (values e.items) k = o := by
  rw [strField, lookup_values_items hk]
  cases o <;> rfl

theorem boolField_items (hk : e.fields.lookup k = some (b.map Scalar.bool)) :
    boolField (values e.items) k = b := by
  have hnodup : (Assoc.keys e.fields).Nodup := (by decide : (Assoc.keys (Entry.fields {})).Nodup)
  have hlookup := Assoc.lookup_filterMap id hnodup k
  rw [hk, Option.join_some, Option.map_id] at hlookup
  rw [boolField, values, Assoc.lookup_map fun _ => Scalar.value]
  rw [show e.items.lookup k = b.map Scalar.bool from hlookup]
  cases b <;> rfl

theorem readEntry_values (e : Entry) : readEntry (values e.items) = e := by
  unfold readEntry
  rw [@strField_items e _ e.pkgver rfl, @strField_items e _ e.pkgrel rfl,
    @strField_items e _ e.epoch rfl, @strField_items e _ e.pkgbase rfl,
    @strField_items e _ e.pkgbuildDir rfl, @strField_items e _ e.buildMode rfl,
    @strField_items e _ e.flagsString rfl, @strField_items e _ e.builtAt rfl,
    @strField_items e _ e.builtUpstreamCommit rfl, @strField_items e _ e.source rfl,
    @strField_items e _ e.ownerStage rfl, @strField_items e _ e.toolchainVariant rfl,
    @strField_items e _ e.toolchainFingerprint rfl, @strField_items e _ e.reviewedCommit rfl,
    @strField_items e _ e.originPkgbase rfl, @strField_items e _ e.buildSeconds rfl,
    @boolField_items e _ e.sandboxed rfl, @strField_items e _ e.buildInputs rfl,
    @boolField_items e _ e.compiles rfl]

theorem readStash_values (e : Stash) : readStash (values e.items) = e := by
  have hentry : readEntry (values e.items) = readEntry (values e.entry.items) := rfl
  rw [readStash, hentry, readEntry_values]
  rfl

/-- Tables that are read back one by one give the dictionary they were written from. -/
theorem get_readTables {α : Type*} {read : Table → α} {items : α → List (String × Scalar)}
    (d : Dict String α) (h : ∀ a, read (values (items a)) = a) (k : String) :
    (readTables read ((d.sorted.map fun p => (p.1, values (items p.2))).map entry)).get k =
      d.get k := by
  have hl : readTables read ((d.sorted.map fun p => (p.1, values (items p.2))).map entry) =
      .ofItems d.sorted := by
    unfold readTables
    rw [List.map_map, List.filterMap_map]
    refine congrArg _ ((List.filterMap_congr fun p _ => ?_).trans List.filterMap_some)
    exact congrArg (fun a => some (p.1, a)) (h p.2)
  rw [hl, @Dict.get_ofItems _ _ _ d.get _ fun p hp => Dict.mem_sorted.mp hp]
  refine ite_eq_left_iff.mpr fun hk => (Dict.get_eq_none.mpr fun hm => hk ?_).symm
  exact (d.sorted_perm.map Prod.fst).mem_iff.mpr hm

/-- A clean state is read back as it was saved. -/
theorem readState_serialize (h : Clean s) : ∃ s', readState s.serialize = some s' ∧
    (∀ n, s'.data.get n = s.data.get n) ∧ ∀ a, s'.reverted.get a = s.reverted.get a := by
  refine ⟨_, by rw [readState, load_serialize h]; rfl, fun n => ?_, fun a => ?_⟩
  · have hdata := get_readTables s.data readEntry_values n
    rwa [← dataEntries, ← split_data h] at hdata
  · have hreverted := get_readTables s.reverted readStash_values a
    rwa [← revertedEntries, ← split_reverted h] at hreverted

end Read

/-! ## Between the record and the restore -/

/-- The state in memory and the file. `refused` says whether the artifact was refused before, and
`saved` is what no code keeps: the state of the last save since the record. -/
structure Refusals where
  state : BuildState
  file : Option Text
  refused : Bool := false
  saved : Option BuildState := none

/-- What happens to the recorded build. -/
inductive Refusals.Act
  /-- pacman refuses the artifact, and the record is undone -/
  | refuse
  | save
  | reload

/-- The build has just recorded its package. -/
def Refusals.start (s : BuildState) (a : RecordArgs) (now : String) (file : Option Text) :
    Refusals := { state := s.record a now, file := file }

/-- One action; `prior` is the entry that stood before the build. A file that cannot be read raises,
and an absent one is an empty state. -/
def Refusals.step (pkg artifact : String) (prior : Option Entry) (w : Refusals) :
    Refusals.Act → Option Refusals
  | .refuse =>
    let prior := if w.refused then w.state.data.get pkg else prior
    some { w with state := w.state.revertRecord pkg prior (some artifact), refused := true }
  | .save => some { w with file := some w.state.serialize, saved := some w.state }
  | .reload => match w.file with
    | none => some { w with state := .empty }
    | some txt => (readState txt).map fun s => { w with state := s }

/-- A run, until an action raises. -/
def Refusals.run (pkg artifact : String) (prior : Option Entry) (w : Refusals)
    (acts : List Refusals.Act) : Option Refusals :=
  Run.run (fun w act => w.bind fun w => w.step pkg artifact prior act) (some w) acts

/-- A reload comes after a save of the run, and of a clean state. -/
def Refusals.Readable (w : Option Refusals) : Refusals.Act → Prop
  | .reload => ∀ w' ∈ w, ∃ s, w'.saved = some s ∧ Clean s
  | _ => True

/-- What the record, the refusals and one restore leave of the state before the record. `R` is the
entry that the build recorded and `t` the state before the restore. -/
structure Reinstated (s : BuildState) (pkg artifact : String) (R : Entry) (t : BuildState) :
    Prop where
  entry : (t.restoreReverted artifact).data.get pkg = some R
  others : ∀ n, n ≠ pkg → (t.restoreReverted artifact).data.get n = s.data.get n
  /-- a later record makes a further restore a no-op, and a first one too -/
  again : ∀ a now, a.pkgname = pkg →
    ((t.restoreReverted artifact).record a now).restoreReverted artifact =
      (t.restoreReverted artifact).record a now
  superseded : ∀ a now, a.pkgname = pkg →
    (t.record a now).restoreReverted artifact = t.record a now

section Law

variable {s t t' : BuildState} {a : RecordArgs} {now pkg artifact : String} {R : Entry}
  {P : Option Entry} {w : Refusals} {act : Refusals.Act} {acts : List Refusals.Act}
  {file : Option Text}

/-- The record stands, and nothing of the package is stashed. -/
structure Recorded (pkg : String) (R : Entry) (t : BuildState) : Prop where
  entry : t.data.get pkg = some R
  unstashed : ∀ a e, t.reverted.get a = some e → e.pkgname ≠ pkg

/-- The record is undone, and stashed under the artifact. -/
structure Undone (pkg artifact : String) (R : Entry) (t : BuildState) : Prop where
  stash : t.reverted.get artifact = some ⟨pkg, R⟩

/-- What holds of every state: it is one of the two, and the other entries are those of before. -/
structure Stands (s : BuildState) (pkg artifact : String) (R : Entry) (t : BuildState) : Prop where
  others : ∀ n, n ≠ pkg → t.data.get n = s.data.get n
  phase : Recorded pkg R t ∨ Undone pkg artifact R t

/-- The entry before has build durations only if the record has. -/
def Carries (R : Entry) (P : Option Entry) : Prop :=
  ∀ p ∈ P, R.sansBuildFacts = p.sansBuildFacts → R.buildSeconds = none → p.buildSeconds = none

theorem carries_none (R : Entry) : Carries R none :=
  fun _ hp => absurd hp (Option.not_mem_none _)

theorem recorded_record : Recorded a.pkgname
    (recordEntry a ((s.data.get a.pkgname).getD {}) now) (s.record a now) := by
  refine ⟨?_, fun b e he => ?_⟩
  · rw [record, dropReverted]
    dsimp only
    rw [Dict.get_set, if_pos rfl]
  · rw [record, dropReverted] at he
    dsimp only at he
    rw [Dict.get_filter] at he
    exact of_decide_eq_true (Option.filter_eq_some_iff.mp he).2

theorem get_record_of_ne {n : String} (hn : n ≠ a.pkgname) :
    (s.record a now).data.get n = s.data.get n := by
  rw [record, dropReverted]
  dsimp only
  rw [Dict.get_set, if_neg hn]

theorem data_addStash (o : Option (String × Stash)) : (addStash t o).data = t.data := by
  cases o <;> rfl

theorem get_revertRecord (n : String) : (t.revertRecord pkg P (some artifact)).data.get n =
    if n = pkg then P.map (carried ((t.data.get pkg).getD {})) else t.data.get n := by
  cases P with
  | none =>
    rw [revertRecord]
    dsimp only
    rw [data_addStash, Dict.get_erase]
    rfl
  | some p =>
    rw [revertRecord]
    dsimp only
    rw [data_addStash, Dict.get_set]
    rfl

theorem reverted_revertRecord : (t.revertRecord pkg P (some artifact)).reverted =
    (addStash t (stashed t pkg P (some artifact))).reverted := by
  cases P <;> rfl

theorem carried_self (e : Entry) : carried e e = e := by
  rw [carried, Option.or_self, Option.or_self]

/-- A refusal whose prior is the current entry changes nothing. -/
theorem get_revertRecord_current (n : String) :
    (t.revertRecord pkg (t.data.get pkg) (some artifact)).data.get n = t.data.get n := by
  rw [get_revertRecord]
  by_cases hn : n = pkg
  · rw [if_pos hn, hn]
    cases t.data.get pkg with
    | none => rfl
    | some p => exact congrArg some (carried_self p)
  · rw [if_neg hn]

theorem reverted_revertRecord_current :
    (t.revertRecord pkg (t.data.get pkg) (some artifact)).reverted = t.reverted := by
  rw [reverted_revertRecord, stashed, if_neg fun h => h.2.2 rfl]
  rfl

theorem isEmpty_of_pkgver (h : R.pkgver ≠ none) : R.isEmpty = false :=
  decide_eq_false fun he => h (congrArg Entry.pkgver he)

/-- Entries that agree but for what an undo carries are the same once it has carried it. -/
theorem carried_of_sansBuildFacts {p : Entry} (h : R.sansBuildFacts = p.sansBuildFacts)
    (hseconds : R.buildSeconds = none → p.buildSeconds = none)
    (hreviewed : R.reviewedCommit = none → p.reviewedCommit = none) : carried R p = R := by
  have hs : R.buildSeconds.or p.buildSeconds = R.buildSeconds := by
    cases hr : R.buildSeconds with
    | none => exact hseconds hr
    | some v => rfl
  have hc : R.reviewedCommit.or p.reviewedCommit = R.reviewedCommit := by
    cases hr : R.reviewedCommit with
    | none => exact hreviewed hr
    | some v => rfl
  rw [carried, hs, hc]
  exact (congrArg (fun e : Entry =>
    { e with buildSeconds := R.buildSeconds, reviewedCommit := R.reviewedCommit }) h).symm

/-- A refusal with the entry from before stashes the record, unless the two agree on what an undo
does not carry. -/
theorem undone_revertRecord (hart : artifact ≠ "") (hver : R.pkgver ≠ none)
    (hcarries : Carries R P) (hfresh : ∀ p ∈ P, R.reviewedCommit = none → p.reviewedCommit = none)
    (h : Recorded pkg R t) :
    Recorded pkg R (t.revertRecord pkg P (some artifact)) ∨
      Undone pkg artifact R (t.revertRecord pkg P (some artifact)) := by
  by_cases hsans : R.sansBuildFacts = (P.getD {}).sansBuildFacts
  · have hrev : (t.revertRecord pkg P (some artifact)).reverted = t.reverted := by
      rw [reverted_revertRecord, stashed, h.entry, Option.getD_some, if_neg fun hst => hst.2.2 hsans]
      rfl
    refine .inl ⟨?_, fun b e he => h.unstashed b e (hrev ▸ he)⟩
    rw [get_revertRecord, if_pos rfl, h.entry, Option.getD_some]
    cases P with
    | none => exact absurd (congrArg Entry.pkgver hsans) hver
    | some p =>
      exact congrArg some (carried_of_sansBuildFacts hsans (hcarries p rfl hsans) (hfresh p rfl))
  · refine .inr ⟨?_⟩
    rw [reverted_revertRecord, stashed, h.entry, Option.getD_some,
      if_pos ⟨hart, by rw [isEmpty_of_pkgver hver]; rfl, hsans⟩, addStash, Dict.get_set, if_pos rfl]

theorem Recorded.congr (h : Recorded pkg R t) (hdata : t'.data.get pkg = t.data.get pkg)
    (hrev : ∀ a, t'.reverted.get a = t.reverted.get a) : Recorded pkg R t' :=
  ⟨hdata.trans h.entry, fun a e he => h.unstashed a e ((hrev a).symm.trans he)⟩

theorem Stands.congr (h : Stands s pkg artifact R t) (hdata : ∀ n, t'.data.get n = t.data.get n)
    (hrev : ∀ a, t'.reverted.get a = t.reverted.get a) : Stands s pkg artifact R t' := by
  refine ⟨fun n hn => (hdata n).trans (h.others n hn), ?_⟩
  rcases h.phase with hrec | hund
  · exact .inl (hrec.congr (hdata pkg) hrev)
  · exact .inr ⟨(hrev artifact).trans hund.stash⟩

/-- The invariant of a run. Until the first refusal the record stands, also in what is saved. -/
structure Refusals.Inv (s : BuildState) (pkg artifact : String) (R : Entry) (w : Refusals) :
    Prop where
  stands : Stands s pkg artifact R w.state
  fresh : w.refused = false → Recorded pkg R w.state
  file : ∀ t ∈ w.saved, w.file = some t.serialize
  saved : ∀ t ∈ w.saved, Stands s pkg artifact R t
  savedFresh : w.refused = false → ∀ t ∈ w.saved, Recorded pkg R t

/-- **The step**: an action keeps the invariant, and a reload of a clean save does not raise. -/
theorem Refusals.inv_step (hart : artifact ≠ "") (hver : R.pkgver ≠ none) (hcarries : Carries R P)
    (hfresh : ∀ p ∈ P, R.reviewedCommit = none → p.reviewedCommit = none)
    (h : w.Inv s pkg artifact R) (hread : Refusals.Readable (some w) act) :
    ∃ w', w.step pkg artifact P act = some w' ∧ w'.Inv s pkg artifact R := by
  cases act with
  | refuse =>
    refine ⟨_, rfl, ?_, nofun, h.file, h.saved, nofun⟩
    dsimp only
    cases hr : w.refused with
    | true =>
      rw [if_pos rfl]
      exact h.stands.congr get_revertRecord_current fun _ => by rw [reverted_revertRecord_current]
    | false =>
      rw [if_neg Bool.false_ne_true]
      refine ⟨fun n hn => ?_, undone_revertRecord hart hver hcarries hfresh (h.fresh hr)⟩
      rw [get_revertRecord, if_neg hn]
      exact h.stands.others n hn
  | save =>
    refine ⟨_, rfl, h.stands, h.fresh, ?_, ?_, fun hr => ?_⟩
    · rintro t ⟨⟩
      rfl
    · rintro t ⟨⟩
      exact h.stands
    · rintro t ⟨⟩
      exact h.fresh hr
  | reload =>
    obtain ⟨t, ht, hclean⟩ := hread w rfl
    obtain ⟨t', hload, hdata, hrev⟩ := readState_serialize hclean
    refine ⟨{ w with state := t' }, ?_, (h.saved t ht).congr hdata hrev, fun hr => ?_, h.file,
      h.saved, h.savedFresh⟩
    · rw [step, h.file t ht]
      dsimp only
      rw [hload]
      rfl
    · exact (h.savedFresh hr t ht).congr (hdata pkg) hrev

/-- Every run of readable reloads ends, in a state of the invariant. -/
theorem Refusals.inv_run (hart : artifact ≠ "") (hver : R.pkgver ≠ none) (hcarries : Carries R P)
    (hfresh : ∀ p ∈ P, R.reviewedCommit = none → p.reviewedCommit = none)
    (h : w.Inv s pkg artifact R)
    (hread : Run.Each (fun w act => w.bind fun w => w.step pkg artifact P act) Refusals.Readable
      (some w) acts) :
    ∃ w', w.run pkg artifact P acts = some w' ∧ w'.Inv s pkg artifact R := by
  refine hread.invariant (I := fun o => ∃ w', o = some w' ∧ w'.Inv s pkg artifact R) ⟨w, rfl, h⟩ ?_
  rintro _ act - ⟨w', rfl, hinv⟩ hact
  exact inv_step hart hver hcarries hfresh hinv hact

/-- One restore from a state of a run reinstates the record. -/
theorem reinstated_of_stands (hpkg : pkg ≠ "") (h : Stands s pkg artifact R t)
    (hown : ∀ e, t.reverted.get artifact = some e → e.pkgname = pkg) :
    Reinstated s pkg artifact R t := by
  have hnone : ∀ {t' : BuildState}, t'.reverted.get artifact = none →
      t'.restoreReverted artifact = t' := fun hget => by rw [restoreReverted, hget]
  have hdrop : ∀ {t' : BuildState} (a : RecordArgs) (now : String), a.pkgname = pkg →
      (∀ e, t'.reverted.get artifact = some e → e.pkgname = pkg) →
      (t'.record a now).reverted.get artifact = none := by
    intro t' a now ha hown
    cases hget : (t'.record a now).reverted.get artifact with
    | none => rfl
    | some e =>
      refine absurd ?_ (recorded_record.unstashed artifact e hget)
      rw [record, dropReverted] at hget
      dsimp only at hget
      rw [Dict.get_filter] at hget
      exact (hown e (Option.filter_eq_some_iff.mp hget).1).trans ha.symm
  rcases h.phase with hrec | hund
  · have hget : t.reverted.get artifact = none := by
      cases hget : t.reverted.get artifact with
      | none => rfl
      | some e => exact absurd (hown e hget) (hrec.unstashed artifact e hget)
    refine ⟨?_, ?_, ?_, fun a now ha => hnone (hdrop a now ha hown)⟩
    · rw [hnone hget]
      exact hrec.entry
    · rw [hnone hget]
      exact h.others
    · rw [hnone hget]
      exact fun a now ha => hnone (hdrop a now ha hown)
  · have hrestore : t.restoreReverted artifact =
        { t with reverted := t.reverted.erase artifact, data := t.data.set pkg R } := by
      rw [restoreReverted, hund.stash]
      exact if_neg hpkg
    have hget : (t.restoreReverted artifact).reverted.get artifact = none := by
      rw [hrestore]
      dsimp only
      rw [Dict.get_erase, if_pos rfl]
    refine ⟨?_, fun n hn => ?_, fun a now ha => hnone (hdrop a now ha ?_),
      fun a now ha => hnone (hdrop a now ha hown)⟩
    · rw [hrestore]
      dsimp only
      rw [Dict.get_set, if_pos rfl]
    · rw [hrestore]
      dsimp only
      rw [Dict.get_set, if_neg hn]
      exact h.others n hn
    · intro e he
      rw [hget] at he
      cases he

end Law

/-- The entry that a record stores. -/
def recordedEntry (s : BuildState) (a : RecordArgs) (now : String) : Entry :=
  recordEntry a ((s.data.get a.pkgname).getD {}) now

/-- **What a build recorded stands after its refusals and one restore**, in every run that reloads
only saves of clean states, for every state, record, artifact and file. -/
theorem reinstated_of_readable {s : BuildState} {a : RecordArgs} {now artifact : String}
    {file : Option Text} {acts : List Refusals.Act} (hpkg : a.pkgname ≠ "") (hart : artifact ≠ "")
    (hcarries : Carries (recordedEntry s a now) (s.data.get a.pkgname))
    (hread : Run.Each
      (fun w act => w.bind fun w => w.step a.pkgname artifact (s.data.get a.pkgname) act)
      Refusals.Readable (some (.start s a now file)) acts)
    (hown : ∀ w, (Refusals.start s a now file).run a.pkgname artifact (s.data.get a.pkgname) acts =
      some w → ∀ e, w.state.reverted.get artifact = some e → e.pkgname = a.pkgname) :
    ∃ w, (Refusals.start s a now file).run a.pkgname artifact (s.data.get a.pkgname) acts =
        some w ∧
      Reinstated s a.pkgname artifact (recordedEntry s a now) w.state := by
  have hstart : (Refusals.start s a now file).Inv s a.pkgname artifact (recordedEntry s a now) :=
    ⟨⟨fun _ hn => get_record_of_ne hn, .inl recorded_record⟩, fun _ => recorded_record, nofun,
      nofun, fun _ => nofun⟩
  have hfresh : ∀ p ∈ s.data.get a.pkgname,
      (recordedEntry s a now).reviewedCommit = none → p.reviewedCommit = none := by
    intro p hp hnone
    rw [recordedEntry, hp] at hnone
    exact (Option.or_eq_none_iff.mp hnone).2
  obtain ⟨w, hw, hinv⟩ := Refusals.inv_run hart (Option.some_ne_none _) hcarries hfresh hstart hread
  exact ⟨w, hw, reinstated_of_stands hpkg hinv.stands (hown w hw)⟩

/-! ## Two refused builds -/

/-- A build outside the container, whose record has no boolean. -/
def plainBuild : RecordArgs :=
  { sandboxedBuild with sandboxed := none }

/-- The artifact of both builds. -/
def mesaArtifact : String := "mesa-25.1-1-x86_64.pkg.tar.zst"

/-- The artifact is refused, a later run reads the state, and the artifact is refused again. -/
def refusedTwice : List Refusals.Act := [.refuse, .save, .reload, .refuse]

/-- The undone record of a package that was new is clean when it has no boolean. -/
theorem clean_undone {t : BuildState} {pkg artifact : String} (h : Clean t)
    (hpkg : pkg ∉ reservedKeys) (hart : NameOk artifact)
    (hbools : ∀ e, t.data.get pkg = some e → e.sandboxed = none ∧ e.compiles = none) :
    Clean (t.revertRecord pkg none (some artifact)) := by
  refine clean_revertRecord h hpkg ⟨fun p hp => (by cases hp), fun _ => ⟨fun a ha => ?_, hbools⟩⟩
  rw [← Option.some.inj ha]
  exact hart

theorem each_refusedTwice {f : Option Refusals → Refusals.Act → Option Refusals}
    {w : Option Refusals} (h : Refusals.Readable (f (f w .refuse) .save) .reload) :
    Run.Each f Refusals.Readable w refusedTwice :=
  ⟨trivial, trivial, h, trivial, trivial⟩

theorem reinstated_refusedTwice :
    ∃ w, (Refusals.start empty plainBuild "2026-01-02T03:04:05Z" none).run "mesa" mesaArtifact none
        refusedTwice = some w ∧
      Reinstated empty "mesa" mesaArtifact
        (recordedEntry empty plainBuild "2026-01-02T03:04:05Z") w.state := by
  have hrecord : Clean (empty.record plainBuild "2026-01-02T03:04:05Z") :=
    clean_record clean_empty (by decide) ⟨by decide, by decide⟩
  have hbools : ∀ e, (empty.record plainBuild "2026-01-02T03:04:05Z").data.get "mesa" = some e →
      e.sandboxed = none ∧ e.compiles = none := by
    intro e he
    have hentry := (@recorded_record empty plainBuild _).entry.symm.trans he
    rw [← Option.some.inj hentry]
    exact ⟨rfl, rfl⟩
  have hclean : Clean ((empty.record plainBuild "2026-01-02T03:04:05Z").revertRecord "mesa" none
      (some mesaArtifact)) :=
    clean_undone hrecord (by decide) (by decide) hbools
  refine @reinstated_of_readable empty plainBuild _ mesaArtifact none refusedTwice (by decide)
    (by decide) (carries_none _) (each_refusedTwice ?_) ?_
  · intro w hw
    rw [← Option.some.inj hw]
    exact ⟨_, rfl, hclean⟩
  · intro w hw e he
    have hall : (((Refusals.start empty plainBuild "2026-01-02T03:04:05Z" none).run "mesa"
        mesaArtifact none refusedTwice).bind fun w => w.state.reverted.get mesaArtifact).all
        (fun e => e.pkgname = "mesa") = true := by
      decide +kernel
    have hrun : (Refusals.start empty plainBuild "2026-01-02T03:04:05Z" none).run "mesa"
        mesaArtifact none refusedTwice = some w := hw
    rw [hrun, Option.bind_some, he] at hall
    exact of_decide_eq_true hall

/-- The stash of a sandboxed build comes back with a text in place of its boolean. -/
theorem not_reinstated_sandboxed :
    ∃ w, (Refusals.start empty sandboxedBuild "2026-01-02T03:04:05Z" none).run "mesa" mesaArtifact
        none [.refuse, .save, .reload] = some w ∧
      readAs "True" ((w.file.bind load).bind (revertedField mesaArtifact "sandboxed")) = true ∧
      ¬ Reinstated empty "mesa" mesaArtifact
        (recordedEntry empty sandboxedBuild "2026-01-02T03:04:05Z") w.state := by
  have hfile : ((Refusals.start empty sandboxedBuild "2026-01-02T03:04:05Z" none).run "mesa"
      mesaArtifact none [.refuse, .save, .reload]).any (fun w => readAs "True"
        ((w.file.bind load).bind (revertedField mesaArtifact "sandboxed"))) = true := by
    decide +kernel
  have hlost : ((Refusals.start empty sandboxedBuild "2026-01-02T03:04:05Z" none).run "mesa"
      mesaArtifact none [.refuse, .save, .reload]).all (fun w =>
        ((w.state.restoreReverted mesaArtifact).data.get "mesa").all fun e =>
          e.sandboxed = none) = true := by
    decide +kernel
  cases hw : (Refusals.start empty sandboxedBuild "2026-01-02T03:04:05Z" none).run "mesa"
      mesaArtifact none [.refuse, .save, .reload] with
  | none =>
    rw [hw] at hfile
    cases hfile
  | some w =>
    rw [hw, Option.any_some] at hfile
    rw [hw, Option.all_some] at hlost
    refine ⟨w, rfl, hfile, fun h => ?_⟩
    rw [h.entry, Option.all_some] at hlost
    exact absurd (of_decide_eq_true hlost) (by decide)

end Sysforge.BuildState
