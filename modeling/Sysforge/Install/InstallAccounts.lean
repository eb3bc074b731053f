import Sysforge.Install.InstallCalls

/-!
# Where the artifacts of a batch end

`not_installed_by_pkgbase` folds the reasons of the refused files into one text for each pkgbase.
A run that returns has handed every package file of a built target to one call of `install_built`,
and the file is installed, refused with its reason under a pkgbase of its own, or dropped.
-/

namespace Sysforge.Install

open BuildState

/-! ## Folding the reasons -/

/-- `text.split("; ")`. -/
def splitReasons (text : String) : List String :=
  (Text.splitSep "; ".toList text.toList).map String.ofList

/-- The reasons of one more file. -/
def foldReason (pkgbaseOf : Artifact → Option String) (out : Dict String String)
    (p : Artifact × String) : Dict String String :=
  let base := (pkgbaseOf p.1).getD p.1.name
  let reasons := ((out.get base).map splitReasons).getD []
  if p.2 ∈ reasons then out else out.set base ("; ".intercalate (reasons ++ [p.2]))

/-- `not_installed_by_pkgbase`. -/
def notInstalledByPkgbase (refused : Dict Artifact String)
    (pkgbaseOf : Artifact → Option String) : Dict String String :=
  refused.items.foldl (foldReason pkgbaseOf) .empty

/-- The pkgbase of each built file. -/
def pkgbaseOf (s : Session) : Dict Artifact String :=
  .ofItems (s.builtFilesByPkgbase.items.flatMap fun p => p.2.map fun f => (f, p.1))

/-- `BuildOutcome.not_installed` of a run. -/
def outcomeNotInstalled (s : Session) : Dict String String :=
  notInstalledByPkgbase s.notInstalled (pkgbaseOf s).get

/-- A text is the join of some reasons, a given one among them. -/
def Folded (reason text : String) : Prop := ∃ l, reason ∈ l ∧ text = "; ".intercalate l

section Fold

variable {base : Artifact → Option String} {out : Dict String String} {p : Artifact × String}
  {reason text b : String}

theorem intercalate_splitReasons (text : String) : "; ".intercalate (splitReasons text) = text := by
  refine String.toList_inj.mp ?_
  rw [String.toList_intercalate, splitReasons, List.map_map]
  have hid : (fun s : List Char => (String.ofList s).toList) = id :=
    funext fun s => String.toList_ofList
  change List.intercalate "; ".toList (List.map (fun s => (String.ofList s).toList) _) = _
  rw [hid, List.map_id]
  exact @Text.intercalate_splitSep ';' [' '] text.toList

theorem splitReasons_ne_nil (text : String) : splitReasons text ≠ [] := by
  rw [splitReasons, Ne, List.map_eq_nil_iff]
  exact Text.splitFrom_ne_nil _ _ _

theorem Folded.append (h : Folded reason text) (reason' : String) :
    Folded reason ("; ".intercalate (splitReasons text ++ [reason'])) := by
  obtain ⟨l, hl, rfl⟩ := h
  refine ⟨l ++ [reason'], List.mem_append_left _ hl, ?_⟩
  rw [String.intercalate_append_of_ne_nil (splitReasons_ne_nil _) (List.cons_ne_nil _ _),
    intercalate_splitReasons,
    String.intercalate_append_of_ne_nil (List.ne_nil_of_mem hl) (List.cons_ne_nil _ _)]

/-- The reason of a file is folded under its pkgbase. -/
theorem foldReason_self : ∃ text,
    (foldReason base out p).get ((base p.1).getD p.1.name) = some text ∧ Folded p.2 text := by
  rw [foldReason]
  split
  next hmem =>
    cases hget : out.get ((base p.1).getD p.1.name) with
    | none =>
      rw [hget] at hmem
      exact absurd hmem List.not_mem_nil
    | some text =>
      rw [hget] at hmem
      exact ⟨text, rfl, splitReasons text, hmem, (intercalate_splitReasons text).symm⟩
  · exact ⟨_, (Dict.get_set ..).trans (if_pos rfl), _, by simp, rfl⟩

/-- Another file leaves the folded reasons in place. -/
theorem foldReason_mono (h : ∃ text, out.get b = some text ∧ Folded reason text) :
    ∃ text, (foldReason base out p).get b = some text ∧ Folded reason text := by
  obtain ⟨text, hget, hfold⟩ := h
  rw [foldReason]
  split
  · exact ⟨text, hget, hfold⟩
  · rw [Dict.get_set]
    split
    next hb =>
      subst hb
      rw [hget]
      exact ⟨_, rfl, hfold.append p.2⟩
    · exact ⟨text, hget, hfold⟩

/-- Every reason is folded under the pkgbase of its file. -/
theorem folded_notInstalledByPkgbase {refused : Dict Artifact String} {f : Artifact}
    (h : refused.get f = some reason) : ∃ text,
      (notInstalledByPkgbase refused base).get ((base f).getD f.name) = some text ∧
        Folded reason text := by
  have hkeep : ∀ (l : List (Artifact × String)) (out : Dict String String),
      (∃ text, out.get ((base f).getD f.name) = some text ∧ Folded reason text) →
      ∃ text, (l.foldl (foldReason base) out).get ((base f).getD f.name) = some text ∧
        Folded reason text := by
    intro l
    induction l with
    | nil => exact fun _ h => h
    | cons p l ih => exact fun out h => ih _ (foldReason_mono h)
  obtain ⟨l₁, l₂, hl⟩ := List.append_of_mem (Dict.mem_items.mpr h)
  rw [notInstalledByPkgbase, hl, List.foldl_append, List.foldl_cons]
  exact hkeep l₂ _ (@foldReason_self base _ (f, reason))

end Fold

/-! ## The run -/

section Run

variable {sys : System} {stateDir : Bool} {earlier : Artifact → Option Entry}
  {requested : List String} {s : Session} {f : Artifact} {b : Batch} {before : BuildState}

/-- What the dependency arm does not touch. -/
theorem buildResolvedDeps_field {α : Type} {get : Session → α}
    (hget : ∀ s h m, get { s with host := h, made := m } = get s) (ds : List DepBuild)
    (s : Session) : get (buildResolvedDeps sys earlier ds s).1 = get s := by
  have hinst : ∀ s files, get (installBuiltPackages sys s files).1 = get s := by
    intro s files
    rcases @installBuiltPackages_fst sys s files with h | ⟨accepted, h⟩
    · rw [h]
    · rw [h]
      exact hget s (s.host.tried files accepted) s.made
  induction ds generalizing s with
  | nil => rfl
  | cons d ds ih =>
    rw [buildResolvedDeps]
    cases d.outcome with
    | built records =>
      have hbuild : get (buildDep sys s d records) = get s := hget s _ _
      dsimp only
      split
      · exact (ih _).trans ((hinst _ _).trans hbuild)
      · exact (hinst _ _).trans hbuild
    | alreadyBuilt =>
      have hbuild : get { s with made := s.made ++ madeEarlier earlier d.artifacts } = get s :=
        hget s s.host _
      dsimp only
      split
      · exact (ih _).trans ((hinst _ _).trans hbuild)
      · exact (hinst _ _).trans hbuild
    | failed => rfl
    | raised => rfl

theorem loopStart_field {α : Type} {get : Session → α}
    (hget : ∀ s h m, get { s with host := h, made := m } = get s) :
    get (loopStart sys earlier b before) = get { host := { state := before } } := by
  have hrefuse : ∀ (l : List (Job × String)) (s : Session), get (l.foldl
      (fun s p => recordReviewRefusal s p.1.target.pkgbase p.2 b.now) s) = get s := by
    intro l
    induction l with
    | nil => exact fun _ => rfl
    | cons p l ih => exact fun s => (ih _).trans (hget s _ s.made)
  exact (hrefuse _ _).trans (buildResolvedDeps_field hget _ _)

theorem progress_loopStart : Progress [] (loopStart sys earlier b before) :=
  ⟨loopStart_field fun _ _ _ => rfl, nofun, fun base _ => by
    rw [@loopStart_field sys earlier b before _ Session.builtFilesByPkgbase fun _ _ _ => rfl]
    rfl⟩

theorem untried_loopStart : Untried f (loopStart sys earlier b before) := by
  refine ⟨?_, ?_, ?_⟩
  · rw [@loopStart_field sys earlier b before _ Session.jitHandled fun _ _ _ => rfl]
    exact List.not_mem_nil
  · rw [@loopStart_field sys earlier b before _ Session.jitFiles fun _ _ _ => rfl]
    exact List.not_mem_nil
  · rw [@loopStart_field sys earlier b before _ Session.notInstalled fun _ _ _ => rfl]
    rfl

/-- The final install adds its own files to those of the loop. -/
theorem installAndRevert_fields (prior : Dict String (Option Entry)) (s : Session) :
    (installAndRevert sys stateDir requested prior s).builtPkgFiles =
      s.jitFiles ++ (installBuilt sys stateDir requested s.host (remaining s)).installed ∧
    (installAndRevert sys stateDir requested prior s).notInstalled = s.notInstalled.update
      (installBuilt sys stateDir requested s.host (remaining s)).notInstalled ∧
    (installAndRevert sys stateDir requested prior s).builtFilesByPkgbase =
      s.builtFilesByPkgbase := by
  rw [installAndRevert]
  dsimp only
  split
  · exact ⟨rfl, rfl, rfl⟩
  · exact ⟨rfl, rfl, rfl⟩

/-- The run in its parts. -/
theorem buildAndInstall_eq : buildAndInstall sys stateDir earlier b before =
    if (buildResolvedDeps sys earlier b.deps { host := { state := before } }).2 then
      if keptJobs b = [] then (loopStart sys earlier b before, true)
      else
        let loop := buildLoop sys stateDir earlier (keptDeps b) (declaredNames (keptJobs b))
          (keptJobs b) (loopStart sys earlier b before)
        if loop.2 then
          (installAndRevert sys stateDir (declaredNames (keptJobs b))
            (snapshotState before (declaredNames b.jobs)) loop.1, true)
        else loop
    else buildResolvedDeps sys earlier b.deps { host := { state := before } } := rfl

section Calls

variable {intraDeps : String → List String} {prior : Dict String (Option Entry)} {js : List Job}

/-- A run through the targets, from a state in which nothing was built. -/
structure Ran (sys : System) (stateDir : Bool) (earlier : Artifact → Option Entry)
    (intraDeps : String → List String) (requested : List String) (js : List Job) (s : Session) :
    Prop where
  ended : (buildLoop sys stateDir earlier intraDeps requested js s).2 = true
  start : Progress [] s
  bases : (js.map fun j => j.target.pkgbase).Nodup

variable (hr : Ran sys stateDir earlier intraDeps requested js s)
include hr

theorem Ran.mem_remaining (hu : f ∉
    (buildLoop sys stateDir earlier intraDeps requested js s).1.jitHandled) :
    f ∈ remaining (buildLoop sys stateDir earlier intraDeps requested js s).1 ↔
      f ∈ js.flatMap Job.artifacts := by
  have hp := progress_loop hr.ended hr.start hr.bases
  rw [remaining, List.mem_filter, hp.files, List.nil_append]
  exact and_iff_left (decide_eq_true hu)

/-- Every file of a built target is handed to one call, and the run keeps what the call returned. -/
theorem Ran.once (hu : Untried f s) (hf : f ∈ js.flatMap Job.artifacts) :
    ∃ c, (callsFrom sys stateDir earlier intraDeps requested 0 js s).filter
        (fun c => f ∈ c.files) = [c] ∧ f ∈ c.files ∧ Due intraDeps js f 0 c.before ∧
      (f ∈ (installAndRevert sys stateDir requested prior
          (buildLoop sys stateDir earlier intraDeps requested js s).1).builtPkgFiles ↔
        f ∈ (installBuilt sys stateDir requested c.host c.files).installed) ∧
      (installAndRevert sys stateDir requested prior
          (buildLoop sys stateDir earlier intraDeps requested js s).1).notInstalled.get f =
        (installBuilt sys stateDir requested c.host c.files).notInstalled.get f := by
  obtain ⟨hbuilt, hnot, -⟩ := @installAndRevert_fields sys stateDir requested prior
    (buildLoop sys stateDir earlier intraDeps requested js s).1
  rw [callsFrom, if_pos hr.ended, List.filter_append, hbuilt, hnot, Dict.get_update,
    List.mem_append]
  rcases loop_once hr.ended hr.start hr.bases hu with
    ⟨c, hcalls, hmem, ⟨m, hbefore, hdue⟩, hset⟩ | ⟨hnone, hdue, hun⟩
  · -- a call of the loop has the file, and the final call does not
    have hout : f ∉ remaining (buildLoop sys stateDir earlier intraDeps requested js s).1 :=
      fun h => (Install.mem_remaining h).2 hset.handled
    obtain ⟨hi, hn⟩ := @installBuilt_other sys stateDir requested _ _
      (buildLoop sys stateDir earlier intraDeps requested js s).1.host hout
    refine ⟨c, ?_, hmem, by rw [hbefore]; exact hdue, ?_, ?_⟩
    · rw [List.length_nil] at hcalls
      rw [hcalls, List.filter_cons_of_neg (by simpa using hout), List.filter_nil, List.append_nil]
    · exact (or_iff_left hi).trans hset.installed
    · rw [hn, Option.none_or, hset.notInstalled]
  · -- the final call has the file
    have hin := (hr.mem_remaining hun.handled).mpr hf
    refine ⟨⟨none, (buildLoop sys stateDir earlier intraDeps requested js s).1.host,
      remaining (buildLoop sys stateDir earlier intraDeps requested js s).1⟩, ?_, hin, hdue,
      or_iff_right hun.installed, ?_⟩
    · rw [List.length_nil] at hnone
      rw [List.filter_eq_nil_iff.mpr fun c hc => by simpa using hnone c hc, List.nil_append,
        List.filter_cons_of_pos (by simpa using hin), List.filter_nil]
    · rw [hun.notInstalled, Option.or_none]

/-- Other files have no reason. -/
theorem Ran.other (hu : Untried f s) (hf : f ∉ js.flatMap Job.artifacts) :
    (installAndRevert sys stateDir requested prior
      (buildLoop sys stateDir earlier intraDeps requested js s).1).notInstalled.get f = none := by
  rcases loop_once hr.ended hr.start hr.bases hu with
    ⟨c, -, -, ⟨m, -, -, ⟨j, -, k, hk, -, hfile⟩, -⟩, -⟩ | ⟨-, -, hun⟩
  · exact absurd (List.mem_flatMap.mpr ⟨k, List.mem_of_mem_take hk, hfile⟩) hf
  · have hout := mt (hr.mem_remaining hun.handled).mp hf
    rw [(installAndRevert_fields prior _).2.1, Dict.get_update, hun.notInstalled, Option.or_none]
    exact (installBuilt_other hout).2

/-- A built file has the pkgbase of a target with the file. -/
theorem Ran.pkgbaseOf (hf : f ∈ js.flatMap Job.artifacts) : ∃ j ∈ js, f ∈ j.artifacts ∧
    (pkgbaseOf (installAndRevert sys stateDir requested prior
      (buildLoop sys stateDir earlier intraDeps requested js s).1)).get f =
        some j.target.pkgbase := by
  have hp := progress_loop hr.ended hr.start hr.bases
  rw [List.nil_append] at hp
  rw [Install.pkgbaseOf, (installAndRevert_fields prior _).2.2]
  obtain ⟨j, hj, hfile⟩ := List.mem_flatMap.mp hf
  have hsome : ∃ base, (Dict.ofItems ((buildLoop sys stateDir earlier intraDeps requested js
      s).1.builtFilesByPkgbase.items.flatMap fun p => p.2.map fun f => (f, p.1))).get f =
        some base := by
    rw [← Option.ne_none_iff_exists', Ne, Dict.get_eq_none, not_not, Dict.mem_keys_ofItems]
    have hfiles := hp.byBase j hj
    cases hget : (buildLoop sys stateDir earlier intraDeps requested js
        s).1.builtFilesByPkgbase.get j.target.pkgbase with
    | none =>
      rw [hget] at hfiles
      exact absurd (hfiles ▸ hfile) List.not_mem_nil
    | some files =>
      rw [hget, Option.getD_some] at hfiles
      refine List.mem_map.mpr ⟨(f, j.target.pkgbase), ?_, rfl⟩
      refine List.mem_flatMap.mpr ⟨_, Dict.mem_items.mpr hget, ?_⟩
      exact List.mem_map_of_mem (hfiles ▸ hfile)
  obtain ⟨base, hbase⟩ := hsome
  obtain ⟨p, hmem, hpair⟩ := List.mem_flatMap.mp (Dict.mem_of_get_ofItems hbase)
  obtain ⟨g, hg, he⟩ := List.mem_map.mp hpair
  rw [Prod.mk.injEq] at he
  obtain ⟨rfl, rfl⟩ := he
  have hget := Dict.mem_items.mp (show (p.1, p.2) ∈ _ from hmem)
  by_cases hk : p.1 ∈ js.map fun j => j.target.pkgbase
  · obtain ⟨k, hk, hpk⟩ := List.mem_map.mp hk
    have := hp.byBase k hk
    rw [hpk, hget] at this
    exact ⟨k, hk, this ▸ hg, by rw [hbase, hpk]⟩
  · rw [hp.fresh _ hk] at hget
    cases hget

end Calls

/-- A run that returns had no target to build, or came to the end of its build loop. -/
theorem run_cases (hb : (b.jobs.map fun j => j.target.pkgbase).Nodup)
    (hr : (buildAndInstall sys stateDir earlier b before).2 = true) :
    keptJobs b = [] ∧
      (buildAndInstall sys stateDir earlier b before).1 = loopStart sys earlier b before ∨
    Ran sys stateDir earlier (keptDeps b) (declaredNames (keptJobs b)) (keptJobs b)
      (loopStart sys earlier b before) ∧
    (buildAndInstall sys stateDir earlier b before).1 =
      installAndRevert sys stateDir (declaredNames (keptJobs b))
        (snapshotState before (declaredNames b.jobs))
        (buildLoop sys stateDir earlier (keptDeps b) (declaredNames (keptJobs b)) (keptJobs b)
          (loopStart sys earlier b before)).1 ∧
    installCalls sys stateDir earlier b before =
      callsFrom sys stateDir earlier (keptDeps b) (declaredNames (keptJobs b)) 0 (keptJobs b)
        (loopStart sys earlier b before) := by
  rw [buildAndInstall_eq] at hr ⊢
  dsimp only at hr ⊢
  by_cases hdeps : (buildResolvedDeps sys earlier b.deps { host := { state := before } }).2 = true
  · rw [if_pos hdeps] at hr ⊢
    by_cases hkept : keptJobs b = []
    · rw [if_pos hkept]
      exact .inl ⟨hkept, rfl⟩
    · rw [if_neg hkept] at hr ⊢
      split at hr
      next hend =>
        rw [if_pos hend, installCalls, if_pos ⟨hdeps, hkept⟩]
        have hbases := hb.sublist
          ((List.filter_sublist (p := fun j => refusalOf b.depRefused j = none)).map
            fun j : Job => j.target.pkgbase)
        exact .inr ⟨⟨hend, progress_loopStart, hbases⟩, rfl, rfl⟩
      next hend => exact absurd hr hend
  · rw [if_neg hdeps] at hr
    exact absurd hr hdeps

/-! ## The accounts -/

/-- One of three statements holds, and the others do not. -/
def ExactlyOne (p q r : Prop) : Prop := p ∧ ¬ q ∧ ¬ r ∨ ¬ p ∧ q ∧ ¬ r ∨ ¬ p ∧ ¬ q ∧ r

/-- A call sorts each of its files in one of three ways. -/
theorem exactlyOne_of_call {h : Host} {files : List Artifact} (hf : f ∈ files) :
    ExactlyOne (f ∈ (installBuilt sys stateDir requested h files).installed)
      ((installBuilt sys stateDir requested h files).notInstalled.get f ≠ none)
      (Drops sys requested h f) := by
  obtain ⟨hi, hd⟩ := @installBuilt_sorts sys stateDir requested _ _ h hf
  by_cases hdrop : Drops sys requested h f
  · exact .inr (.inr ⟨fun h => (hi.mp h).1 hdrop, fun h => h (hd hdrop), hdrop⟩)
  · by_cases hn : (installBuilt sys stateDir requested h files).notInstalled.get f = none
    · exact .inl ⟨hi.mpr ⟨hdrop, hn⟩, fun h => h hn, hdrop⟩
    · exact .inr (.inl ⟨fun h => hn (hi.mp h).2, hn, hdrop⟩)

/-- The accounts of a batch. Every call of `install_built` ends after few transactions with ever
fewer files. Each package file of a built target is handed to one call, when it is due, and is then
installed, refused or dropped by the filter of that call. A refused file has its reason folded
under the pkgbase of a target with the file. -/
structure Accounts (sys : System) (stateDir : Bool) (earlier : Artifact → Option Entry)
    (b : Batch) (before : BuildState) : Prop where
  attempts : ∀ c ∈ installCalls sys stateDir earlier b before,
    Attempts sys stateDir (declaredNames (keptJobs b)) c.host c.files
  once : ∀ f ∈ (keptJobs b).flatMap Job.artifacts, ∃ c,
    (installCalls sys stateDir earlier b before).filter (fun c => f ∈ c.files) = [c] ∧
    Due (keptDeps b) (keptJobs b) f 0 c.before ∧
    ExactlyOne (f ∈ (buildAndInstall sys stateDir earlier b before).1.builtPkgFiles)
      ((buildAndInstall sys stateDir earlier b before).1.notInstalled.get f ≠ none)
      (Drops sys (declaredNames (keptJobs b)) c.host f)
  folded : ∀ f reason,
    (buildAndInstall sys stateDir earlier b before).1.notInstalled.get f = some reason →
    ∃ j ∈ keptJobs b, f ∈ j.artifacts ∧ ∃ text,
      (outcomeNotInstalled (buildAndInstall sys stateDir earlier b before).1).get
        j.target.pkgbase = some text ∧ Folded reason text

/-- **Every artifact is accounted for**, in every run that returns, whatever the targets, their
dependencies, their builds and the answers of pacman. -/
theorem accounts_of_returned (hb : (b.jobs.map fun j => j.target.pkgbase).Nodup)
    (hr : (buildAndInstall sys stateDir earlier b before).2 = true) :
    Accounts sys stateDir earlier b before := by
  refine ⟨fun c _ => attempts_installBuilt sys stateDir _ c.host c.files, fun f hf => ?_,
    fun f reason hn => ?_⟩
  · rcases run_cases hb hr with ⟨hnil, -⟩ | ⟨hran, hend, hcalls⟩
    · rw [hnil] at hf
      exact absurd hf List.not_mem_nil
    · obtain ⟨c, hc, hmem, hdue, hbuilt, hnot⟩ := hran.once untried_loopStart hf
      refine ⟨c, by rw [hcalls, hc], hdue, ?_⟩
      rw [hend, hbuilt, hnot]
      exact exactlyOne_of_call hmem
  · rcases run_cases hb hr with ⟨-, hend⟩ | ⟨hran, hend, -⟩
    · rw [hend, untried_loopStart.notInstalled] at hn
      cases hn
    · rw [hend] at hn ⊢
      have hf : f ∈ (keptJobs b).flatMap Job.artifacts := by
        by_contra hf
        rw [hran.other untried_loopStart hf] at hn
        cases hn
      obtain ⟨j, hj, hfile, hbase⟩ := hran.pkgbaseOf hf
      obtain ⟨text, htext, hfold⟩ := @folded_notInstalledByPkgbase (pkgbaseOf _).get _ _ _ hn
      rw [hbase, Option.getD_some] at htext
      exact ⟨j, hj, hfile, text, htext, hfold⟩

/-- A batch whose second target needs the first. -/
def dependentBatch : Batch where
  jobs := [buildOf "glslang" (recordOf "glslang" "16.0" "glslang") glslangFile,
    buildOf "mesa" (recordOf "mesa" "26.1" "mesa") mesaFile]
  intraDeps := fun base => if base = "mesa" then ["glslang"] else []
  deps := []
  depRefused := .empty
  now := "2026-01-02T00:00:00Z"

/-- It is accounted for where pacman refuses the just-in-time install and the final one. -/
theorem accounts_dependentBatch :
    Accounts refusing true (fun _ => none) dependentBatch .empty :=
  accounts_of_returned (by decide) (by decide)

end Run

end Sysforge.Install
