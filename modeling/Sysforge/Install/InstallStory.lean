import Sysforge.Install.InstallEffects

/-!
# One package file in a run

A run of `build_and_install` is followed for one file at a time. The build of the file is still to
come, or the file waits for its install, or it is settled. Every step of the run that has nothing
to do with the file leaves it where it is (`Quiet.story`); its own build and its own install move it
on (`story_buildTarget`, `story_dep`, `story_install`).
-/

namespace Sysforge.Install

open BuildState

/-! ## What a build adds -/

/-- What a build adds to a run: the names it records and the files it leaves. -/
structure Effect where
  records : List String := []
  artifacts : List Artifact := []

/-- What the build of a dependency adds. -/
def depEffect (d : DepBuild) : Effect :=
  match d.outcome with
  | .built records => { records := records.map fun r => r.1.pkgname, artifacts := d.artifacts }
  | .alreadyBuilt => { artifacts := d.artifacts }
  | .failed | .raised => {}

/-- What the build of a target adds. -/
def jobEffect (j : Job) : Effect :=
  match j.outcome with
  | .built records newPkgs _ =>
    { records := records.map fun r => r.1.pkgname, artifacts := newPkgs }
  | .alreadyBuilt existing _ => { artifacts := existing }
  | .pgoSkipped | .failed _ | .raised => {}

/-- What the builds of a batch add, dependencies first. -/
def effects (b : Batch) : List Effect := b.deps.map depEffect ++ b.jobs.map jobEffect

/-- The names of an effect. -/
def Effect.names (sys : System) (e : Effect) : List String :=
  e.records ++ e.artifacts.filterMap sys.readPkgname

/-! ## One file in a run -/

section Story

variable (stateDir : Bool) (before : BuildState) (recorded : List String)
  (depFiles : List Artifact) (p : String) (f : Artifact)

/-- The build of the file is still to come. -/
structure Future (s : Session) : Prop where
  log : Silent s.host.log f
  notInstalled : s.notInstalled.get f = none
  files : f ∉ s.builtPkgFiles
  made : ∀ e, (f, e) ∉ s.made
  untouched : Untouched p f before s.host.state

/-- The file waits for its install. -/
structure Waiting (s : Session) : Prop where
  log : Silent s.host.log f
  notInstalled : s.notInstalled.get f = none
  made : ∀ e, (f, e) ∈ s.made → Available stateDir s.host.state p f e
  data : p ∉ recorded → s.host.state.data.get p = before.data.get p

/-- What holds of the file before the revert. -/
structure Done (s : Session) : Prop where
  refused : Refused s.host.log f →
    (p ∈ recorded → f ∈ depFiles ∨ s.notInstalled.get f ≠ none) ∧
      (p ∉ recorded → s.host.state.data.get p = before.data.get p)
  installed : InstalledIn s.host.log f →
    s.notInstalled.get f = none ∧ ∀ e, (f, e) ∈ s.made → s.host.state.data.get p = some e

/-- The file is not handed over any more. -/
structure Settled (s : Session) : Prop where
  done : Done before recorded depFiles p f s
  handled : f ∈ s.builtPkgFiles → f ∈ s.jitHandled

/-- Where the file is in the run; `rest` are the builds to come. -/
def Story (sys : System) (rest : List Effect) (s : Session) : Prop :=
  Future before p f s ∨ (∀ a ∈ rest, p ∉ a.names sys) ∧
    (Waiting stateDir before recorded p f s ∨ Settled before recorded depFiles p f s)

end Story

/-- The files of a run are those of its builds, and their stashes belong to them. -/
structure Sane (sys : System) (all : List Artifact) (s : Session) : Prop where
  built : ∀ f ∈ s.builtPkgFiles, f ∈ all
  byPkgbase : ∀ base files, s.builtFilesByPkgbase.get base = some files →
    ∀ f ∈ files, f ∈ s.builtPkgFiles
  notInstalled : ∀ f, s.notInstalled.get f ≠ none → f ∈ all
  log : ∀ t ∈ s.host.log, ∀ f ∈ t.files, f ∈ all
  owned : Owned sys all s.host.state

variable {sys : System} {stateDir : Bool} {earlier : Artifact → Option Entry}
  {before : BuildState} {recorded : List String} {depFiles all : List Artifact} {p : String}
  {f : Artifact} {s s' : Session} {rest : List Effect}

theorem done_of_silent (h : Silent s.host.log f) : Done before recorded depFiles p f s :=
  ⟨fun h' => absurd h' (not_refused_of_silent h), fun h' => absurd h' (not_installed_of_silent h)⟩

theorem Story.done (h : Story stateDir before recorded depFiles p f sys rest s) :
    Done before recorded depFiles p f s := by
  rcases h with h | ⟨-, h | h⟩
  · exact done_of_silent h.log
  · exact done_of_silent h.log
  · exact h.done

/-- A step that has nothing to do with the file. -/
structure Quiet (p : String) (f : Artifact) (s s' : Session) : Prop where
  untouched : Untouched p f s.host.state s'.host.state
  log : ∃ new, s'.host.log = s.host.log ++ new ∧ Silent new f
  notInstalled : s'.notInstalled.get f = s.notInstalled.get f
  files : f ∈ s'.builtPkgFiles → f ∈ s.builtPkgFiles
  handled : f ∈ s.jitHandled → f ∈ s'.jitHandled
  made : ∀ e, (f, e) ∈ s'.made → (f, e) ∈ s.made

theorem Quiet.trans {s'' : Session} (h : Quiet p f s s') (h' : Quiet p f s' s'') :
    Quiet p f s s'' := by
  obtain ⟨new, hlog, hnew⟩ := h.log
  obtain ⟨new', hlog', hnew'⟩ := h'.log
  refine ⟨h.untouched.trans h'.untouched, ⟨new ++ new', ?_, hnew.append hnew'⟩,
    h'.notInstalled.trans h.notInstalled, fun hf => h.files (h'.files hf),
    fun hf => h'.handled (h.handled hf), fun e he => h.made e (h'.made e he)⟩
  rw [hlog', hlog, List.append_assoc]

section Quiet

variable (h : Quiet p f s s')
include h

theorem Quiet.silent (hs : Silent s.host.log f) : Silent s'.host.log f := by
  obtain ⟨new, hlog, hnew⟩ := h.log
  rw [hlog]
  exact hs.append hnew

theorem Quiet.future (hs : Future before p f s) : Future before p f s' :=
  ⟨h.silent hs.log, h.notInstalled.trans hs.notInstalled, fun hf => hs.files (h.files hf),
    fun e he => hs.made e (h.made e he), hs.untouched.trans h.untouched⟩

theorem Quiet.waiting (hs : Waiting stateDir before recorded p f s) :
    Waiting stateDir before recorded p f s' :=
  ⟨h.silent hs.log, h.notInstalled.trans hs.notInstalled,
    fun e he => (hs.made e (h.made e he)).of_untouched h.untouched,
    fun hp => h.untouched.data.trans (hs.data hp)⟩

theorem Quiet.done (hs : Done before recorded depFiles p f s) :
    Done before recorded depFiles p f s' := by
  obtain ⟨new, hlog, hnew⟩ := h.log
  refine ⟨fun hr => ?_, fun hi => ?_⟩
  · rw [hlog, refused_append_silent hnew] at hr
    rw [h.notInstalled, h.untouched.data]
    exact hs.refused hr
  · rw [hlog, installed_append_silent hnew] at hi
    rw [h.notInstalled, h.untouched.data]
    obtain ⟨hnone, hmade⟩ := hs.installed hi
    exact ⟨hnone, fun e he => hmade e (h.made e he)⟩

theorem Quiet.story (hs : Story stateDir before recorded depFiles p f sys rest s) :
    Story stateDir before recorded depFiles p f sys rest s' := by
  refine hs.imp h.future (And.imp_right (Or.imp h.waiting fun hs => ?_))
  exact ⟨h.done hs.done, fun hf => h.handled (hs.handled (h.files hf))⟩

end Quiet

/-! ## An install -/

/-- A run after an install of some files. -/
def afterInstall (s : Session) (files : List Artifact) (r : Installed) : Session :=
  { s with
    host := r.host
    jitHandled := s.jitHandled ++ files
    jitFiles := s.jitFiles ++ r.installed
    notInstalled := s.notInstalled.update r.notInstalled }

variable {always : List String} {files : List Artifact}

theorem sane_install (hs : Sane sys all s) (hfiles : files ⊆ s.builtPkgFiles) :
    Sane sys all (afterInstall s files (installBuilt sys stateDir always s.host files)) := by
  obtain ⟨⟨new, hlog, hnew⟩, hfew⟩ := @installBuilt_log sys stateDir always s.host files
  refine ⟨hs.built, hs.byPkgbase, fun g hg => ?_, fun t ht g hg => ?_, hs.owned.mono hfew⟩
  · by_contra hall
    have hskip := @installBuilt_skips sys stateDir g files always s.host fun hmem =>
      hall (hs.built g (hfiles hmem))
    refine hg ((Dict.get_update ..).trans ?_)
    rw [hskip.notInstalled, Option.none_or]
    exact not_not.mp fun h => hall (hs.notInstalled g h)
  change t ∈ (installBuilt sys stateDir always s.host files).host.log at ht
  rw [hlog] at ht
  rcases List.mem_append.mp ht with ht | ht
  · exact hs.log t ht g hg
  · exact hs.built g (hfiles (hnew t ht hg))

section File

variable (hread : sys.readPkgname f = some p) (hf : f ∈ all) (honly : Only sys p f all)
include hread hf honly

theorem quiet_install (hs : Sane sys all s) (hfiles : files ⊆ s.builtPkgFiles)
    (hmem : f ∉ files) :
    Quiet p f s (afterInstall s files (installBuilt sys stateDir always s.host files)) := by
  have hall : files ⊆ all := fun g hg => hs.built g (hfiles hg)
  have hun := @untouched_installBuilt sys stateDir f p files always hread s.host hmem
    (fun g hg => hs.owned g (hall hg)) (honly.mono hall) (Owned.stash hread hs.owned hf)
  have hskip := @installBuilt_skips sys stateDir f files always s.host hmem
  refine ⟨hun, hskip.log, ?_, id, fun h => List.mem_append_left _ h, fun e he => he⟩
  exact (Dict.get_update ..).trans (by rw [hskip.notInstalled, Option.none_or])

omit hf in
/-- A waiting file that is handed over is settled. -/
theorem settled_install (hs : Sane sys all s) (hfiles : files ⊆ s.builtPkgFiles)
    (hmem : f ∈ files) (hw : Waiting stateDir before recorded p f s) :
    Settled before recorded depFiles p f
      (afterInstall s files (installBuilt sys stateDir always s.host files)) := by
  have hall : files ⊆ all := fun g hg => hs.built g (hfiles hg)
  refine ⟨?_, fun _ => List.mem_append_right _ hmem⟩
  have hget : (s.notInstalled.update
      (installBuilt sys stateDir always s.host files).notInstalled).get f =
        (installBuilt sys stateDir always s.host files).notInstalled.get f := by
    rw [Dict.get_update, hw.notInstalled, Option.or_none]
  rcases @installBuilt_settles sys stateDir f p files always hread s.host hmem
    (fun g hg => hs.owned g (hall hg)) (honly.mono hall) with h | h | h
  · obtain ⟨new, hlog, hnew⟩ := h.log
    refine done_of_silent ?_
    change Silent (installBuilt sys stateDir always s.host files).host.log f
    rw [hlog]
    exact hw.log.append hnew
  · obtain ⟨new, t, hlog, hacc, hft⟩ := h.log
    refine ⟨fun hr => ?_, fun _ => ⟨hget.trans h.notInstalled, fun e he => h.data e (hw.made e he)⟩⟩
    change Refused (installBuilt sys stateDir always s.host files).host.log f at hr
    rw [hlog] at hr
    exact absurd hr (not_refused_of_last hacc hft)
  · refine ⟨fun _ => ⟨fun _ => .inr ?_, fun hp => h.data.trans (hw.data hp)⟩, fun hi => ?_⟩
    · exact fun hnone => h.notInstalled (hget.symm.trans hnone)
    · obtain ⟨new, hlog, hnew⟩ := h.log
      obtain ⟨t, ht, hacc, hft⟩ := hi
      change t ∈ (installBuilt sys stateDir always s.host files).host.log at ht
      rw [hlog] at ht
      rcases List.mem_append.mp ht with ht | ht
      · exact absurd hft (hw.log t ht)
      · exact absurd hft (hnew t ht hacc)

theorem story_install (hs : Sane sys all s)
    (hfiles : ∀ g ∈ files, g ∈ s.builtPkgFiles ∧ g ∉ s.jitHandled)
    (h : Story stateDir before recorded depFiles p f sys rest s) :
    Story stateDir before recorded depFiles p f sys rest
      (afterInstall s files (installBuilt sys stateDir always s.host files)) := by
  have hsub : files ⊆ s.builtPkgFiles := fun g hg => (hfiles g hg).1
  by_cases hmem : f ∈ files
  · rcases h with h | ⟨hrest, h | h⟩
    · exact absurd (hsub hmem) h.files
    · exact .inr ⟨hrest, .inr (settled_install hread honly hs hsub hmem h)⟩
    · exact absurd (h.handled (hsub hmem)) (hfiles f hmem).2
  · exact (quiet_install hread hf honly hs hsub hmem).story h

end File

theorem pendingDeps_mem (hs : Sane sys all s) {intraDeps : String → List String} {t : Target}
    {g : Artifact} (hg : g ∈ pendingDeps intraDeps s t) :
    g ∈ s.builtPkgFiles ∧ g ∉ s.jitHandled := by
  obtain ⟨dep, -, hg⟩ := List.mem_flatMap.mp hg
  obtain ⟨hmem, hnot⟩ := List.mem_filter.mp hg
  refine ⟨?_, of_decide_eq_true hnot⟩
  dsimp only at hmem
  cases hget : s.builtFilesByPkgbase.get dep with
  | none =>
    rw [hget] at hmem
    exact absurd hmem List.not_mem_nil
  | some files =>
    rw [hget] at hmem
    exact hs.byPkgbase dep files hget g hmem

theorem installDeps_eq {intraDeps : String → List String} {t : Target} :
    installDeps sys stateDir intraDeps always s t =
      if pendingDeps intraDeps s t = [] then s
      else afterInstall s (pendingDeps intraDeps s t)
        (installBuilt sys stateDir always s.host (pendingDeps intraDeps s t)) := rfl

/-! ## A build -/

theorem mem_names_of_artifact {a : Effect} (hread : sys.readPkgname f = some p)
    (hf : f ∈ a.artifacts) : p ∈ a.names sys :=
  List.mem_append_right _ (List.mem_filterMap.mpr ⟨f, hf, hread⟩)

theorem mem_names_of_record {a : Effect} (hp : p ∈ a.records) : p ∈ a.names sys :=
  List.mem_append_left _ hp

theorem mem_madeBy {state : BuildState} {records : List (RecordArgs × String)} {e : Entry}
    (hread : sys.readPkgname f = some p) (h : (f, e) ∈ madeBy sys state records files) :
    f ∈ files ∧ p ∈ (records.map fun r => r.1.pkgname) ∧ state.data.get p = some e := by
  obtain ⟨g, hg, hbind⟩ := List.mem_filterMap.mp h
  obtain ⟨pn, hpn, hif⟩ := Option.bind_eq_some_iff.mp hbind
  split_ifs at hif with hrec
  obtain ⟨e', he', hpair⟩ := Option.map_eq_some_iff.mp hif
  cases hpair
  rw [hread, Option.some.injEq] at hpn
  subst hpn
  exact ⟨hg, hrec, he'⟩

theorem mem_madeEarlier {e : Entry} (h : (f, e) ∈ madeEarlier earlier files) :
    f ∈ files ∧ earlier f = some e := by
  obtain ⟨g, hg, hmap⟩ := List.mem_filterMap.mp h
  obtain ⟨e', he', hpair⟩ := Option.map_eq_some_iff.mp hmap
  cases hpair
  exact ⟨hg, he'⟩

theorem sane_withState {state : BuildState} (hs : Sane sys all s) (hfew : Fewer s.host.state state) :
    Sane sys all (s.withState state) :=
  ⟨hs.built, hs.byPkgbase, hs.notInstalled, hs.log, hs.owned.mono hfew⟩

theorem sane_recordBuildFailure (hs : Sane sys all s) (t : Target) (e : BuildError)
    (now : String) : Sane sys all (recordBuildFailure s t e now) :=
  ⟨hs.built, hs.byPkgbase, hs.notInstalled, hs.log, hs.owned⟩

theorem quiet_recordBuildFailure (t : Target) (e : BuildError) (now : String) :
    Quiet p f s (recordBuildFailure s t e now) :=
  ⟨⟨rfl, rfl⟩, ⟨[], (List.append_nil _).symm, nofun⟩, rfl, id, id, fun _ h => h⟩

theorem sane_handOver {t : Target} {made : List (Artifact × Entry)} (hs : Sane sys all s)
    (hfiles : files ⊆ all) : Sane sys all (handOver s t files made) := by
  refine ⟨fun g hg => ?_, fun base fs hget g hg => ?_, hs.notInstalled, hs.log, hs.owned⟩
  · exact (List.mem_append.mp hg).elim (hs.built g) fun hg => hfiles hg
  · change (s.builtFilesByPkgbase.set t.pkgbase files).get base = some fs at hget
    rw [Dict.get_set] at hget
    split_ifs at hget
    · cases hget
      exact List.mem_append_right _ hg
    · exact List.mem_append_left _ (hs.byPkgbase base fs hget g hg)

theorem quiet_handOver {t : Target} {made : List (Artifact × Entry)} (hf : f ∉ files)
    (hmade : ∀ e, (f, e) ∉ made) : Quiet p f s (handOver s t files made) := by
  refine ⟨⟨rfl, rfl⟩, ⟨[], (List.append_nil _).symm, nofun⟩, rfl, fun h => ?_, id, fun e h => ?_⟩
  · exact (List.mem_append.mp h).resolve_right hf
  · exact (List.mem_append.mp h).resolve_right (hmade e)

theorem quiet_recordAll {records : List (RecordArgs × String)}
    (hp : p ∉ records.map fun r => r.1.pkgname)
    (hf : ∀ e, s.host.state.reverted.get f.name = some e → e.pkgname = p) :
    Quiet p f s (s.withState (recordAll s.host.state records)) :=
  ⟨untouched_recordAll hp hf, ⟨[], (List.append_nil _).symm, nofun⟩, rfl, id, id, fun _ h => h⟩

theorem sane_buildTarget (hs : Sane sys all s) {j : Job}
    (hfiles : (jobEffect j).artifacts ⊆ all) : Sane sys all (buildTarget sys earlier s j) := by
  rw [buildTarget]
  rw [jobEffect] at hfiles
  cases ho : j.outcome with
  | built records newPkgs skew =>
    rw [ho] at hfiles
    have hrec := sane_withState hs (fewer_recordAll records s.host.state)
    cases skew with
    | some e => exact sane_recordBuildFailure hrec _ _ _
    | none => exact sane_handOver hrec hfiles
  | pgoSkipped => exact ⟨hs.built, hs.byPkgbase, hs.notInstalled, hs.log, hs.owned⟩
  | alreadyBuilt existing skew =>
    rw [ho] at hfiles
    dsimp only
    split
    · exact sane_recordBuildFailure hs _ _ _
    · cases skew with
      | some e => exact sane_recordBuildFailure hs _ _ _
      | none =>
        dsimp only
        split
        · exact sane_recordBuildFailure hs _ _ _
        · exact sane_handOver hs hfiles
  | failed e => exact sane_recordBuildFailure hs _ _ _
  | raised => exact hs

section Build

variable (hread : sys.readPkgname f = some p)
include hread

/-- A build of other names leaves the file alone. -/
theorem quiet_buildTarget {j : Job} (hp : p ∉ (jobEffect j).names sys)
    (hf : ∀ e, s.host.state.reverted.get f.name = some e → e.pkgname = p) :
    Quiet p f s (buildTarget sys earlier s j) := by
  have hart : f ∉ (jobEffect j).artifacts := fun h => hp (mem_names_of_artifact hread h)
  have hrec : p ∉ (jobEffect j).records := fun h => hp (mem_names_of_record h)
  rw [buildTarget]
  rw [jobEffect] at hart hrec
  cases ho : j.outcome with
  | built records newPkgs skew =>
    rw [ho] at hart hrec
    refine (quiet_recordAll hrec hf).trans ?_
    cases skew with
    | some e => exact quiet_recordBuildFailure _ _ _
    | none => exact quiet_handOver hart fun e he => hart (mem_madeBy hread he).1
  | pgoSkipped => exact ⟨⟨rfl, rfl⟩, ⟨[], (List.append_nil _).symm, nofun⟩, rfl, id, id, fun _ h => h⟩
  | alreadyBuilt existing skew =>
    rw [ho] at hart
    dsimp only
    split
    · exact quiet_recordBuildFailure _ _ _
    · cases skew with
      | some e => exact quiet_recordBuildFailure _ _ _
      | none =>
        dsimp only
        split
        · exact quiet_recordBuildFailure _ _ _
        · exact quiet_handOver hart fun e he => hart (mem_madeEarlier he).1
  | failed e => exact quiet_recordBuildFailure _ _ _
  | raised => exact ⟨⟨rfl, rfl⟩, ⟨[], (List.append_nil _).symm, nofun⟩, rfl, id, id, fun _ h => h⟩

omit hread in
/-- A file that no build hands over is settled. -/
theorem Future.settled (h : Future before p f s) (hlog : s'.host.log = s.host.log)
    (hbuilt : f ∈ s'.builtPkgFiles → f ∈ s.builtPkgFiles) :
    Settled before recorded depFiles p f s' := by
  refine ⟨done_of_silent ?_, fun hf => absurd (hbuilt hf) h.files⟩
  rw [hlog]
  exact h.log

/-- The build of the file hands it over, with its record, or it is not handed over at all. -/
theorem Future.buildTarget (h : Future before p f s) {j : Job}
    (hf : ∀ e, s.host.state.reverted.get f.name = some e → e.pkgname = p)
    (hrec : (jobEffect j).records ⊆ recorded)
    (hreused : ∀ existing skew, j.outcome = .alreadyBuilt existing skew → f ∈ existing →
      ∀ e, earlier f = some e → Available stateDir before p f e) :
    Waiting stateDir before recorded p f (buildTarget sys earlier s j) ∨
      Settled before recorded depFiles p f (buildTarget sys earlier s j) := by
  rw [Install.buildTarget]
  rw [jobEffect] at hrec
  cases ho : j.outcome with
  | built records newPkgs skew =>
    rw [ho] at hrec
    cases skew with
    | some e => exact .inr (h.settled rfl id)
    | none =>
      by_cases hmem : f ∈ newPkgs
      · refine .inl ⟨h.log, h.notInstalled, fun e he => ?_, fun hp => ?_⟩
        · obtain ⟨-, hp, hdata⟩ := mem_madeBy hread
            ((List.mem_append.mp he).resolve_left (h.made e))
          exact .inr ⟨.inr (stash_recordAll hp hf), hdata⟩
        · exact (untouched_recordAll (fun hmem => hp (hrec hmem)) hf).data.trans h.untouched.data
      · exact .inr (h.settled rfl fun hf => (List.mem_append.mp hf).resolve_right hmem)
  | pgoSkipped => exact .inr (h.settled rfl id)
  | alreadyBuilt existing skew =>
    dsimp only
    split
    · exact .inr (h.settled rfl id)
    · cases skew with
      | some e => exact .inr (h.settled rfl id)
      | none =>
        dsimp only
        split
        · exact .inr (h.settled rfl id)
        · by_cases hmem : f ∈ existing
          · refine .inl ⟨h.log, h.notInstalled, fun e he => ?_, fun _ => h.untouched.data⟩
            have hearlier := (mem_madeEarlier
              ((List.mem_append.mp he).resolve_left (h.made e))).2
            exact (hreused existing none ho hmem e hearlier).of_untouched h.untouched
          · exact .inr (h.settled rfl fun hf => (List.mem_append.mp hf).resolve_right hmem)
  | failed e => exact .inr (h.settled rfl id)
  | raised => exact .inr (h.settled rfl id)

/-- One build, for a file of the run. -/
theorem story_buildTarget {j : Job}
    (hf : ∀ e, s.host.state.reverted.get f.name = some e → e.pkgname = p)
    (hrec : (jobEffect j).records ⊆ recorded)
    (hreused : ∀ existing skew, j.outcome = .alreadyBuilt existing skew → f ∈ existing →
      ∀ e, earlier f = some e → Available stateDir before p f e)
    (hsep : ∀ a ∈ rest, p ∈ (jobEffect j).names sys → p ∉ a.names sys)
    (h : Story stateDir before recorded depFiles p f sys (jobEffect j :: rest) s) :
    Story stateDir before recorded depFiles p f sys rest (buildTarget sys earlier s j) := by
  by_cases hp : p ∈ (jobEffect j).names sys
  · rcases h with h | ⟨hrest, -⟩
    · exact .inr ⟨fun a ha => hsep a ha hp, h.buildTarget hread hf hrec hreused⟩
    · exact absurd hp (hrest _ List.mem_cons_self)
  · refine (quiet_buildTarget hread hp hf).story ?_
    exact h.imp_right (And.imp_left fun h a ha => h a (List.mem_cons_of_mem _ ha))

end Build

/-! ## The dependency arm -/

/-- The run before the install of a dependency. -/
def depBuilt (sys : System) (earlier : Artifact → Option Entry) (s : Session) (d : DepBuild) :
    Session :=
  match d.outcome with
  | .built records => buildDep sys s d records
  | .alreadyBuilt => { s with made := s.made ++ madeEarlier earlier d.artifacts }
  | .failed | .raised => s

/-- What the install of a dependency leaves of the run. -/
theorem installBuiltPackages_fst (s : Session) (files : List Artifact) :
    (installBuiltPackages sys s files).1 = s ∨ ∃ accepted,
      (installBuiltPackages sys s files).1 = { s with host := s.host.tried files accepted } := by
  rw [installBuiltPackages]
  split
  · exact .inl rfl
  · split
    · exact .inr ⟨true, rfl⟩
    · exact .inr ⟨false, rfl⟩

theorem sane_depBuilt (hs : Sane sys all s) (d : DepBuild) :
    Sane sys all (depBuilt sys earlier s d) := by
  rw [depBuilt]
  cases d.outcome with
  | built records =>
    have h := sane_withState hs (fewer_recordAll records s.host.state)
    exact ⟨h.built, h.byPkgbase, h.notInstalled, h.log, h.owned⟩
  | alreadyBuilt => exact ⟨hs.built, hs.byPkgbase, hs.notInstalled, hs.log, hs.owned⟩
  | failed => exact hs
  | raised => exact hs

theorem sane_installBuiltPackages (hs : Sane sys all s) (hfiles : files ⊆ all) :
    Sane sys all (installBuiltPackages sys s files).1 := by
  rcases @installBuiltPackages_fst sys s files with h | ⟨_, h⟩
  · rw [h]
    exact hs
  · rw [h]
    refine ⟨hs.built, hs.byPkgbase, hs.notInstalled, fun t ht g hg => ?_, hs.owned⟩
    rcases List.mem_append.mp ht with ht | ht
    · exact hs.log t ht g hg
    · rw [List.mem_singleton] at ht
      subst ht
      exact hfiles hg

theorem quiet_installBuiltPackages (hf : f ∉ files) :
    Quiet p f s (installBuiltPackages sys s files).1 := by
  rcases @installBuiltPackages_fst sys s files with h | ⟨accepted, h⟩
  · rw [h]
    exact ⟨⟨rfl, rfl⟩, ⟨[], (List.append_nil _).symm, nofun⟩, rfl, id, id, fun _ h => h⟩
  · rw [h]
    refine ⟨⟨rfl, rfl⟩, ⟨[⟨files, accepted⟩], rfl, fun t ht => ?_⟩, rfl, id, id, fun _ h => h⟩
    rw [List.mem_singleton] at ht
    rw [ht]
    exact hf

section Dep

variable {d : DepBuild} (hread : sys.readPkgname f = some p)
include hread

theorem quiet_depBuilt (hp : p ∉ (depEffect d).names sys)
    (hf : ∀ e, s.host.state.reverted.get f.name = some e → e.pkgname = p) :
    Quiet p f s (depBuilt sys earlier s d) := by
  have hart : f ∉ (depEffect d).artifacts := fun h => hp (mem_names_of_artifact hread h)
  have hrec : p ∉ (depEffect d).records := fun h => hp (mem_names_of_record h)
  rw [depBuilt]
  rw [depEffect] at hart hrec
  cases ho : d.outcome with
  | built records =>
    rw [ho] at hart hrec
    refine (quiet_recordAll hrec hf).trans ⟨⟨rfl, rfl⟩, ⟨[], (List.append_nil _).symm, nofun⟩, rfl,
      id, id, fun e he => ?_⟩
    exact (List.mem_append.mp he).resolve_right fun he => hart (mem_madeBy hread he).1
  | alreadyBuilt =>
    rw [ho] at hart
    refine ⟨⟨rfl, rfl⟩, ⟨[], (List.append_nil _).symm, nofun⟩, rfl, id, id, fun e he => ?_⟩
    exact (List.mem_append.mp he).resolve_right fun he => hart (mem_madeEarlier he).1
  | failed => exact ⟨⟨rfl, rfl⟩, ⟨[], (List.append_nil _).symm, nofun⟩, rfl, id, id, fun _ h => h⟩
  | raised => exact ⟨⟨rfl, rfl⟩, ⟨[], (List.append_nil _).symm, nofun⟩, rfl, id, id, fun _ h => h⟩

/-- The build of a dependency leaves its record as the entry. -/
theorem Future.depBuilt (h : Future before p f s)
    (hf : ∀ e, s.host.state.reverted.get f.name = some e → e.pkgname = p)
    (hrec : (depEffect d).records ⊆ recorded)
    (hreused : d.outcome = .alreadyBuilt → f ∈ d.artifacts → ∀ e, earlier f = some e →
      before.data.get p = some e) :
    (∀ e, (f, e) ∈ (depBuilt sys earlier s d).made →
      (Install.depBuilt sys earlier s d).host.state.data.get p = some e) ∧
    (p ∉ recorded → (Install.depBuilt sys earlier s d).host.state.data.get p = before.data.get p) ∧
    (Install.depBuilt sys earlier s d).host.log = s.host.log ∧
    (Install.depBuilt sys earlier s d).builtPkgFiles = s.builtPkgFiles ∧
    (Install.depBuilt sys earlier s d).notInstalled = s.notInstalled := by
  rw [Install.depBuilt]
  rw [depEffect] at hrec
  cases ho : d.outcome with
  | built records =>
    rw [ho] at hrec
    refine ⟨fun e he => ?_, fun hp => ?_, rfl, rfl, rfl⟩
    · exact (mem_madeBy hread ((List.mem_append.mp he).resolve_left (h.made e))).2.2
    · exact (untouched_recordAll (fun hmem => hp (hrec hmem)) hf).data.trans h.untouched.data
  | alreadyBuilt =>
    refine ⟨fun e he => ?_, fun _ => h.untouched.data, rfl, rfl, rfl⟩
    obtain ⟨hmem, hearlier⟩ := mem_madeEarlier ((List.mem_append.mp he).resolve_left (h.made e))
    exact h.untouched.data.trans (hreused ho hmem e hearlier)
  | failed => exact ⟨fun e he => absurd he (h.made e), fun _ => h.untouched.data, rfl, rfl, rfl⟩
  | raised => exact ⟨fun e he => absurd he (h.made e), fun _ => h.untouched.data, rfl, rfl, rfl⟩

/-- One dependency, for a file of the run. -/
theorem story_dep
    (hf : ∀ e, s.host.state.reverted.get f.name = some e → e.pkgname = p)
    (hrec : (depEffect d).records ⊆ recorded) (hdep : f ∈ d.artifacts → f ∈ depFiles)
    (hart : (depEffect d).artifacts = d.artifacts)
    (hreused : d.outcome = .alreadyBuilt → f ∈ d.artifacts → ∀ e, earlier f = some e →
      before.data.get p = some e)
    (hsep : ∀ a ∈ rest, p ∈ (depEffect d).names sys → p ∉ a.names sys)
    (h : Story stateDir before recorded depFiles p f sys (depEffect d :: rest) s) :
    Story stateDir before recorded depFiles p f sys rest
      (installBuiltPackages sys (depBuilt sys earlier s d) d.artifacts).1 := by
  by_cases hp : p ∈ (depEffect d).names sys
  · rcases h with h | ⟨hrest, -⟩
    · refine .inr ⟨fun a ha => hsep a ha hp, .inr ?_⟩
      obtain ⟨hmade, hdata, hlog, hbuilt, hnone⟩ := h.depBuilt hread hf hrec hreused
      have hsilent : Silent (depBuilt sys earlier s d).host.log f := by
        rw [hlog]
        exact h.log
      have hfiles : f ∉ (depBuilt sys earlier s d).builtPkgFiles := by
        rw [hbuilt]
        exact h.files
      have hnone' : (depBuilt sys earlier s d).notInstalled.get f = none := by
        rw [hnone]
        exact h.notInstalled
      rw [installBuiltPackages]
      split
      · exact ⟨done_of_silent hsilent, fun hf => absurd hf hfiles⟩
      · by_cases hmem : f ∈ d.artifacts
        · split
          · refine ⟨⟨fun hr => ?_, fun _ => ⟨hnone', hmade⟩⟩, fun hf => absurd hf hfiles⟩
            exact absurd hr (not_refused_of_last rfl hmem)
          · refine ⟨⟨fun _ => ⟨fun _ => .inl (hdep hmem), hdata⟩, fun hi => ?_⟩,
              fun hf => absurd hf hfiles⟩
            obtain ⟨t, ht, hacc, hft⟩ := hi
            rcases List.mem_append.mp ht with ht | ht
            · exact absurd hft (hsilent t ht)
            · rw [List.mem_singleton] at ht
              rw [ht] at hacc
              cases hacc
        · have hnew : ∀ accepted, Silent [⟨d.artifacts, accepted⟩] f := by
            intro accepted t ht
            rw [List.mem_singleton] at ht
            rw [ht]
            exact hmem
          split
          · exact ⟨done_of_silent (hsilent.append (hnew true)), fun hf => absurd hf hfiles⟩
          · exact ⟨done_of_silent (hsilent.append (hnew false)), fun hf => absurd hf hfiles⟩
    · exact absurd hp (hrest _ List.mem_cons_self)
  · have hmem : f ∉ d.artifacts := fun hm => hp (mem_names_of_artifact hread (hart ▸ hm))
    refine ((quiet_depBuilt hread hp hf).trans (quiet_installBuiltPackages hmem)).story ?_
    exact h.imp_right (And.imp_left fun h a ha => h a (List.mem_cons_of_mem _ ha))

end Dep

end Sysforge.Install
