import Sysforge.Install.InstallStory

/-!
# The records after a run

`build_state` after `build_and_install`, for every batch, every outcome of its builds and every
answer of pacman: `leavesState_of_covered` says in which runs the entries of refused artifacts are
as they were, and those of installed artifacts as their builds recorded them.
-/

namespace Sysforge.Install

open BuildState

/-! ## The law -/

section Law

variable (sys : System) (stateDir : Bool) (earlier : Artifact → Option Entry) (b : Batch)
  (before : BuildState)

/-- The run leaves the entries of refused artifacts as they were, up to the facts of the build, and
those of installed artifacts as their builds recorded them. -/
structure LeavesState : Prop where
  refused : ∀ f p, sys.readPkgname f = some p →
    Refused (buildAndInstall sys stateDir earlier b before).1.host.log f →
    SameFacts ((buildAndInstall sys stateDir earlier b before).1.host.state.data.get p)
      (before.data.get p)
  installed : ∀ f p e, sys.readPkgname f = some p →
    InstalledIn (buildAndInstall sys stateDir earlier b before).1.host.log f →
    (f, e) ∈ (buildAndInstall sys stateDir earlier b before).1.made →
    (buildAndInstall sys stateDir earlier b before).1.host.state.data.get p = some e

/-- The runs for which it does. -/
structure Covered : Prop where
  /-- Different builds record and leave different names. -/
  separate : (effects b).Pairwise fun a a' => ∀ p ∈ a.names sys, p ∉ a'.names sys
  /-- A build leaves one file of a name. -/
  single : ∀ a ∈ effects b, ∀ f ∈ a.artifacts, ∀ p, sys.readPkgname f = some p →
    Only sys p f a.artifacts
  /-- A record that a refusal took is kept under the file of its package. -/
  stashes : ∀ a ∈ effects b, Owned sys a.artifacts before
  /-- What was recorded for a file that is used again is still there. -/
  reused : ∀ j ∈ b.jobs, ∀ existing skew, j.outcome = .alreadyBuilt existing skew →
    ∀ f ∈ existing, ∀ p e, sys.readPkgname f = some p → earlier f = some e →
      Available stateDir before p f e
  /-- The dependency arm does not restore what a refusal took. -/
  depReused : ∀ d ∈ b.deps, d.outcome = .alreadyBuilt → ∀ f ∈ d.artifacts, ∀ p e,
    sys.readPkgname f = some p → earlier f = some e → before.data.get p = some e
  /-- A refused artifact whose name was recorded is that of a target, which declares the name, and
  the run comes to its end. -/
  declared : ∀ f p, sys.readPkgname f = some p →
    Refused (buildAndInstall sys stateDir earlier b before).1.host.log f →
    p ∈ (effects b).flatMap Effect.records →
      p ∈ declaredNames b.jobs ∧ f ∉ (b.deps.map depEffect).flatMap Effect.artifacts ∧
        (buildAndInstall sys stateDir earlier b before).2 = true

end Law

variable {sys : System} {stateDir : Bool} {earlier : Artifact → Option Entry}
  {before : BuildState} {recorded : List String} {depFiles all : List Artifact} {p : String}
  {f : Artifact} {s : Session} {rest : List Effect} {always : List String} {files : List Artifact}

/-! ## The run -/

theorem Story.mono {rest' : List Effect} (hsub : rest' ⊆ rest)
    (h : Story stateDir before recorded depFiles p f sys rest s) :
    Story stateDir before recorded depFiles p f sys rest' s :=
  h.imp_right (And.imp_left fun h a ha => h a (hsub ha))

section Run

variable (sys stateDir before recorded depFiles all)

/-- What holds all along the run. -/
structure Inv (rest : List Effect) (s : Session) : Prop where
  sane : Sane sys all s
  story : ∀ f p, sys.readPkgname f = some p → f ∈ all →
    Story stateDir before recorded depFiles p f sys rest s

end Run

theorem Inv.mono {rest' : List Effect} (hsub : rest' ⊆ rest)
    (h : Inv sys stateDir before recorded depFiles all rest s) :
    Inv sys stateDir before recorded depFiles all rest' s :=
  ⟨h.sane, fun f p hread hf => (h.story f p hread hf).mono hsub⟩

theorem inv_buildResolvedDeps {ds : List DepBuild}
    (hall : ∀ d ∈ ds, (depEffect d).artifacts ⊆ all)
    (hrec : ∀ d ∈ ds, (depEffect d).records ⊆ recorded)
    (hdep : ∀ d ∈ ds, (depEffect d).artifacts ⊆ depFiles)
    (hreused : ∀ d ∈ ds, d.outcome = .alreadyBuilt → ∀ f ∈ d.artifacts, ∀ p e,
      sys.readPkgname f = some p → earlier f = some e → before.data.get p = some e)
    (hsep : (ds.map depEffect ++ rest).Pairwise fun a a' => ∀ p ∈ a.names sys, p ∉ a'.names sys)
    (h : Inv sys stateDir before recorded depFiles all (ds.map depEffect ++ rest) s) :
    Inv sys stateDir before recorded depFiles all rest
      (buildResolvedDeps sys earlier ds s).1 := by
  induction ds generalizing s with
  | nil => exact h
  | cons d ds ih =>
    rw [List.map_cons, List.cons_append] at hsep h
    obtain ⟨hd, hds⟩ := List.pairwise_cons.mp hsep
    have hsub : rest ⊆ ds.map depEffect ++ rest := fun a ha => List.mem_append_right _ ha
    have hstep : (depEffect d).artifacts = d.artifacts →
        Inv sys stateDir before recorded depFiles all (ds.map depEffect ++ rest)
          (installBuiltPackages sys (depBuilt sys earlier s d) d.artifacts).1 := by
      intro hart
      have hd' := hall d List.mem_cons_self
      rw [hart] at hd'
      have hdep' := hdep d List.mem_cons_self
      rw [hart] at hdep'
      refine ⟨sane_installBuiltPackages (sane_depBuilt h.sane d) hd', fun f p hread hf => ?_⟩
      exact story_dep hread (Owned.stash hread h.sane.owned hf) (hrec d List.mem_cons_self)
        (fun hmem => hdep' hmem) hart
        (fun ho hmem e he => hreused d List.mem_cons_self ho f hmem p e hread he)
        (fun a ha hp => hd a ha p hp) (h.story f p hread hf)
    have hnext := fun {s'} hs' => @ih s' (fun d hd => hall d (List.mem_cons_of_mem _ hd))
      (fun d hd => hrec d (List.mem_cons_of_mem _ hd))
      (fun d hd => hdep d (List.mem_cons_of_mem _ hd))
      (fun d hd => hreused d (List.mem_cons_of_mem _ hd)) hds hs'
    rw [buildResolvedDeps]
    cases ho : d.outcome with
    | built records =>
      have hinv := hstep (by rw [depEffect, ho])
      rw [depBuilt, ho] at hinv
      dsimp only at hinv ⊢
      split
      · exact hnext hinv
      · exact hinv.mono hsub
    | alreadyBuilt =>
      have hinv := hstep (by rw [depEffect, ho])
      rw [depBuilt, ho] at hinv
      dsimp only at hinv ⊢
      split
      · exact hnext hinv
      · exact hinv.mono hsub
    | failed => exact h.mono fun a ha => List.mem_cons_of_mem _ (hsub ha)
    | raised => exact h.mono fun a ha => List.mem_cons_of_mem _ (hsub ha)

section Loop

variable (honly : ∀ f ∈ all, ∀ p, sys.readPkgname f = some p → Only sys p f all)
include honly

theorem inv_install (hfiles : ∀ g ∈ files, g ∈ s.builtPkgFiles ∧ g ∉ s.jitHandled)
    (h : Inv sys stateDir before recorded depFiles all rest s) :
    Inv sys stateDir before recorded depFiles all rest
      (afterInstall s files (installBuilt sys stateDir always s.host files)) :=
  ⟨sane_install h.sane fun g hg => (hfiles g hg).1, fun f p hread hf =>
    story_install hread hf (honly f hf p hread) h.sane hfiles (h.story f p hread hf)⟩

theorem inv_buildLoop {intraDeps : String → List String} {js : List Job}
    (hall : ∀ j ∈ js, (jobEffect j).artifacts ⊆ all)
    (hrec : ∀ j ∈ js, (jobEffect j).records ⊆ recorded)
    (hreused : ∀ j ∈ js, ∀ existing skew, j.outcome = .alreadyBuilt existing skew →
      ∀ f ∈ existing, ∀ p e, sys.readPkgname f = some p → earlier f = some e →
        Available stateDir before p f e)
    (hsep : (js.map jobEffect).Pairwise fun a a' => ∀ p ∈ a.names sys, p ∉ a'.names sys)
    (h : Inv sys stateDir before recorded depFiles all (js.map jobEffect) s) :
    Inv sys stateDir before recorded depFiles all []
      (buildLoop sys stateDir earlier intraDeps always js s).1 := by
  induction js generalizing s with
  | nil => exact h
  | cons j js ih =>
    rw [List.map_cons] at hsep h
    obtain ⟨hj, hjs⟩ := List.pairwise_cons.mp hsep
    have hinstall : Inv sys stateDir before recorded depFiles all (jobEffect j :: js.map jobEffect)
        (installDeps sys stateDir intraDeps always s j.target) := by
      rw [installDeps_eq]
      split
      · exact h
      · exact inv_install honly (fun g hg => pendingDeps_mem h.sane hg) h
    have hbuild : Inv sys stateDir before recorded depFiles all (js.map jobEffect)
        (buildTarget sys earlier (installDeps sys stateDir intraDeps always s j.target) j) := by
      refine ⟨sane_buildTarget hinstall.sane (hall j List.mem_cons_self), fun f p hread hf => ?_⟩
      exact story_buildTarget hread (Owned.stash hread hinstall.sane.owned hf)
        (hrec j List.mem_cons_self)
        (fun existing skew ho hmem e he =>
          hreused j List.mem_cons_self existing skew ho f hmem p e hread he)
        (fun a ha hp => hj a ha p hp) (hinstall.story f p hread hf)
    have hnext := @ih _ (fun j hj => hall j (List.mem_cons_of_mem _ hj))
      (fun j hj => hrec j (List.mem_cons_of_mem _ hj))
      (fun j hj => hreused j (List.mem_cons_of_mem _ hj)) hjs hbuild
    rw [buildLoop]
    split
    · exact h.mono (List.nil_subset _)
    · cases ho : j.outcome with
      | raised => exact hinstall.mono (List.nil_subset _)
      | built _ _ _ => exact hnext
      | pgoSkipped => exact hnext
      | alreadyBuilt _ _ => exact hnext
      | failed _ => exact hnext

end Loop

theorem inv_recordReviewRefusals {refused : List (Job × String)} {now : String}
    (h : Inv sys stateDir before recorded depFiles all rest s) :
    Inv sys stateDir before recorded depFiles all rest
      (refused.foldl (fun s r => recordReviewRefusal s r.1.target.pkgbase r.2 now) s) := by
  induction refused generalizing s with
  | nil => exact h
  | cons r rs ih =>
    refine ih ⟨sane_withState h.sane (.refl _), fun f p hread hf => ?_⟩
    have hquiet : Quiet p f s (recordReviewRefusal s r.1.target.pkgbase r.2 now) :=
      ⟨⟨rfl, rfl⟩, ⟨[], (List.append_nil _).symm, nofun⟩, rfl, id, id, fun _ h => h⟩
    exact hquiet.story (h.story f p hread hf)

/-! ## The end of the run -/

/-- The files the final install is handed. -/
def remaining (s : Session) : List Artifact := s.builtPkgFiles.filter fun f => f ∉ s.jitHandled

theorem mem_remaining {g : Artifact} (h : g ∈ remaining s) :
    g ∈ s.builtPkgFiles ∧ g ∉ s.jitHandled :=
  ⟨(List.mem_filter.mp h).1, of_decide_eq_true (List.mem_filter.mp h).2⟩

/-- What the final install and the revert leave of an entry, in a run that has come to its end. -/
theorem data_installAndRevert {prior : Dict String (Option Entry)} :
    let s' := afterInstall s (remaining s) (installBuilt sys stateDir always s.host (remaining s))
    (installAndRevert sys stateDir always prior s).host.log = s'.host.log ∧
    (installAndRevert sys stateDir always prior s).made = s'.made ∧
    (installAndRevert sys stateDir always prior s).host.state =
      if s'.notInstalled.items = [] then s'.host.state
      else revertUninstalledState sys s'.host.state s'.notInstalled.keys prior := by
  rw [installAndRevert]
  dsimp only
  refine ⟨?_, ?_, ?_⟩
  · split <;> rfl
  · split <;> rfl
  · split
    next h => exact (if_pos h).symm
    next h => exact (if_neg h).symm

section End

variable {prior : Dict String (Option Entry)} {l : Session}

/-- The revert leaves the entry of an installed file. -/
theorem data_revert_installed (honly : Only sys p f all) (hs : Sane sys all l) (hnone : l.notInstalled.get f = none) :
    (if l.notInstalled.items = [] then l.host.state
      else revertUninstalledState sys l.host.state l.notInstalled.keys prior).data.get p =
        l.host.state.data.get p := by
  split
  · rfl
  · refine data_revertUninstalledState_of_notMem (.inr fun g hg hp => ?_) _
    have hget : l.notInstalled.get g ≠ none := fun h => Dict.get_eq_none.mp h hg
    rw [honly g (hs.notInstalled g hget) hp] at hget
    exact hget hnone

/-- The revert gives a refused file the entry of the snapshot, or leaves it. -/
theorem data_revert_refused (hread : sys.readPkgname f = some p) {e : Option Entry}
    (hprior : prior.get p = some e) (hnot : l.notInstalled.get f ≠ none) :
    SameFacts ((if l.notInstalled.items = [] then l.host.state
      else revertUninstalledState sys l.host.state l.notInstalled.keys prior).data.get p) e := by
  rw [if_neg]
  · refine data_revertUninstalledState_of_mem hprior ⟨f, ?_, hread⟩ _
    by_contra h
    exact hnot (Dict.get_eq_none.mpr h)
  · intro hnil
    rw [Dict.get, hnil] at hnot
    exact hnot rfl

/-- The revert keeps an entry that is still that of the snapshot. -/
theorem data_revert_same (before : BuildState) {names : List String}
    (h : l.host.state.data.get p = before.data.get p) :
    SameFacts ((if l.notInstalled.items = [] then l.host.state
      else revertUninstalledState sys l.host.state l.notInstalled.keys
        (snapshotState before names)).data.get p) (before.data.get p) := by
  split
  · exact congrArg _ h
  · by_cases hp : p ∈ names ∧ ∃ g ∈ l.notInstalled.keys, sys.readPkgname g = some p
    · refine data_revertUninstalledState_of_mem ?_ hp.2 _
      rw [get_snapshotState, if_pos hp.1]
    · refine congrArg _ ((data_revertUninstalledState_of_notMem ?_ _).trans h)
      rw [get_snapshotState]
      by_cases hn : p ∈ names
      · exact .inr fun g hg hr => hp ⟨hn, g, hg, hr⟩
      · exact .inl (if_neg hn)

end End

/-- A file is the only one of its name in the whole run. -/
theorem only_of_pairwise {es : List Effect}
    (hsep : es.Pairwise fun a a' => ∀ p ∈ a.names sys, p ∉ a'.names sys)
    (hsingle : ∀ a ∈ es, ∀ f ∈ a.artifacts, ∀ p, sys.readPkgname f = some p →
      Only sys p f a.artifacts) :
    ∀ f ∈ es.flatMap Effect.artifacts, ∀ p, sys.readPkgname f = some p →
      Only sys p f (es.flatMap Effect.artifacts) := by
  induction es with
  | nil => exact fun f hf => absurd hf List.not_mem_nil
  | cons a es ih =>
    obtain ⟨ha, hes⟩ := List.pairwise_cons.mp hsep
    have hrest := ih hes fun a' ha' => hsingle a' (List.mem_cons_of_mem _ ha')
    have hcross : ∀ g ∈ a.artifacts, ∀ g' ∈ es.flatMap Effect.artifacts, ∀ p,
        sys.readPkgname g = some p → sys.readPkgname g' ≠ some p := by
      intro g hg g' hg' p hgp hgp'
      obtain ⟨a', ha', hmem⟩ := List.mem_flatMap.mp hg'
      exact ha a' ha' p (mem_names_of_artifact hgp hg) (mem_names_of_artifact hgp' hmem)
    intro f hf p hread g hg hgp
    rw [List.flatMap_cons, List.mem_append] at hf hg
    rcases hf with hf | hf <;> rcases hg with hg | hg
    · exact hsingle a List.mem_cons_self f hf p hread g hg hgp
    · exact absurd hgp (hcross f hf g hg p hread)
    · exact absurd hread (hcross g hg f hf p hgp)
    · exact hrest f hf p hread g hg hgp

theorem notInstalled_buildResolvedDeps (ds : List DepBuild) (s : Session) :
    (buildResolvedDeps sys earlier ds s).1.notInstalled = s.notInstalled := by
  have hinst : ∀ s files, (installBuiltPackages sys s files).1.notInstalled = s.notInstalled := by
    intro s files
    rcases @installBuiltPackages_fst sys s files with h | ⟨_, h⟩ <;> rw [h]
  induction ds generalizing s with
  | nil => rfl
  | cons d ds ih =>
    rw [buildResolvedDeps]
    cases d.outcome with
    | built records =>
      dsimp only
      split
      · exact (ih _).trans (hinst _ _)
      · exact hinst _ _
    | alreadyBuilt =>
      dsimp only
      split
      · exact (ih _).trans (hinst _ _)
      · exact hinst _ _
    | failed => rfl
    | raised => rfl

theorem notInstalled_recordReviewRefusals (refused : List (Job × String)) (now : String)
    (s : Session) : (refused.foldl
      (fun s r => recordReviewRefusal s r.1.target.pkgbase r.2 now) s).notInstalled =
        s.notInstalled := by
  induction refused generalizing s with
  | nil => rfl
  | cons r rs ih => exact ih _

/-- What a run leaves. -/
structure Leaves (sys : System) (before : BuildState) (s : Session) : Prop where
  refused : ∀ f p, sys.readPkgname f = some p → Refused s.host.log f →
    SameFacts (s.host.state.data.get p) (before.data.get p)
  installed : ∀ f p e, sys.readPkgname f = some p → InstalledIn s.host.log f → (f, e) ∈ s.made →
    s.host.state.data.get p = some e

theorem mem_of_refused (hs : Sane sys all s) (h : Refused s.host.log f) : f ∈ all := by
  obtain ⟨l₁, t, l₂, hlog, -, hf, -⟩ := h
  exact hs.log t (by rw [hlog]; simp) f hf

theorem mem_of_installed (hs : Sane sys all s) (h : InstalledIn s.host.log f) : f ∈ all := by
  obtain ⟨t, ht, -, hf⟩ := h
  exact hs.log t ht f hf

/-- Without a revert, no refused artifact may have been recorded. -/
theorem leaves_of_inv (h : Inv sys stateDir before recorded depFiles all rest s)
    (hdecl : ∀ f p, sys.readPkgname f = some p → Refused s.host.log f → p ∉ recorded) :
    Leaves sys before s := by
  refine ⟨fun f p hread hr => ?_, fun f p e hread hi hmade => ?_⟩
  · have hdone := (h.story f p hread (mem_of_refused h.sane hr)).done
    exact congrArg _ ((hdone.refused hr).2 (hdecl f p hread hr))
  · have hdone := (h.story f p hread (mem_of_installed h.sane hi)).done
    exact (hdone.installed hi).2 e hmade

/-- With the revert, the recorded ones must be declared. -/
theorem leaves_installAndRevert {names : List String}
    (honly : ∀ f ∈ all, ∀ p, sys.readPkgname f = some p → Only sys p f all)
    (h : Inv sys stateDir before recorded depFiles all rest s)
    (hdecl : ∀ f p, sys.readPkgname f = some p →
      Refused (installAndRevert sys stateDir always (snapshotState before names) s).host.log f →
        p ∈ recorded → p ∈ names ∧ f ∉ depFiles) :
    Leaves sys before (installAndRevert sys stateDir always (snapshotState before names) s) := by
  have hinv := @inv_install _ stateDir _ _ _ _ _ _ always _ honly (fun g hg => mem_remaining hg) h
  obtain ⟨hlog, hmade, hstate⟩ := @data_installAndRevert sys stateDir s always
    (snapshotState before names)
  rw [hlog] at hdecl
  refine ⟨fun f p hread hr => ?_, fun f p e hread hi he => ?_⟩
  · rw [hlog] at hr
    rw [hstate]
    have hdone := (hinv.story f p hread (mem_of_refused hinv.sane hr)).done
    by_cases hp : p ∈ recorded
    · obtain ⟨hn, hf⟩ := hdecl f p hread hr hp
      refine data_revert_refused hread ?_ (((hdone.refused hr).1 hp).resolve_left hf)
      rw [get_snapshotState, if_pos hn]
    · exact data_revert_same before ((hdone.refused hr).2 hp)
  · rw [hlog] at hi
    rw [hmade] at he
    have hf := mem_of_installed hinv.sane hi
    obtain ⟨hnone, hall⟩ := (hinv.story f p hread hf).done.installed hi
    rw [hstate, data_revert_installed (honly f hf p hread) hinv.sane hnone]
    exact hall e he

/-- **In every covered run, `build_and_install` leaves the entries of refused artifacts as they
were, and those of installed artifacts as their builds recorded them.** -/
theorem leavesState_of_covered {b : Batch} (hc : Covered sys stateDir earlier b before) :
    LeavesState sys stateDir earlier b before := by
  have hmem : ∀ a ∈ effects b, a.artifacts ⊆ (effects b).flatMap Effect.artifacts :=
    fun a ha f hf => List.mem_flatMap.mpr ⟨a, ha, hf⟩
  have hrec : ∀ a ∈ effects b, a.records ⊆ (effects b).flatMap Effect.records :=
    fun a ha f hf => List.mem_flatMap.mpr ⟨a, ha, hf⟩
  have hdepMem : ∀ d ∈ b.deps, depEffect d ∈ effects b := fun d hd =>
    List.mem_append_left _ (List.mem_map_of_mem hd)
  have hjobMem : ∀ j ∈ b.jobs, jobEffect j ∈ effects b := fun j hj =>
    List.mem_append_right _ (List.mem_map_of_mem hj)
  have honly := only_of_pairwise hc.separate hc.single
  have hstart : Inv sys stateDir before ((effects b).flatMap Effect.records)
      ((b.deps.map depEffect).flatMap Effect.artifacts) ((effects b).flatMap Effect.artifacts)
      (effects b) { host := { state := before } } := by
    refine ⟨⟨nofun, nofun, fun f hf => absurd rfl hf, nofun, fun f hf => ?_⟩, fun f p _ _ => ?_⟩
    · obtain ⟨a, ha, hmem⟩ := List.mem_flatMap.mp hf
      exact hc.stashes a ha f hmem
    · exact .inl ⟨nofun, rfl, List.not_mem_nil, fun _ => List.not_mem_nil, .refl _ _ _⟩
  have hdeps := @inv_buildResolvedDeps _ stateDir earlier _ _ _ _ _ _ _
    (fun d hd => hmem _ (hdepMem d hd)) (fun d hd => hrec _ (hdepMem d hd))
    (fun d hd f hf => List.mem_flatMap.mpr ⟨_, List.mem_map_of_mem hd, hf⟩) hc.depReused
    hc.separate hstart
  suffices h : Leaves sys before (buildAndInstall sys stateDir earlier b before).1 from
    ⟨h.refused, h.installed⟩
  have hdecl := hc.declared
  rw [buildAndInstall] at hdecl ⊢
  dsimp only at hdecl ⊢
  split at hdecl
  · rw [if_pos ‹_›]
    split at hdecl
    · -- no target is left: nothing has been handed to the final install
      rw [if_pos ‹_›]
      have hinv := @inv_recordReviewRefusals _ _ _ _ _ _ _ _
        (b.jobs.filterMap fun j => (refusalOf b.depRefused j).map fun why => (j, why)) b.now hdeps
      refine leaves_of_inv hinv fun f p hread hr hp => ?_
      obtain ⟨-, hf, -⟩ := hdecl f p hread hr hp
      have hdone := (hinv.story f p hread (mem_of_refused hinv.sane hr)).done
      refine ((hdone.refused hr).1 hp).resolve_left hf ?_
      rw [notInstalled_recordReviewRefusals, notInstalled_buildResolvedDeps]
      rfl
    · rw [if_neg ‹_›]
      have hkept : (b.jobs.filter fun j => refusalOf b.depRefused j = none) ⊆ b.jobs :=
        fun j hj => (List.mem_filter.mp hj).1
      have hloop := fun {intraDeps requested} => @inv_buildLoop sys stateDir earlier before _ _ _ _
        requested honly intraDeps (b.jobs.filter fun j => refusalOf b.depRefused j = none)
        (fun j hj => hmem _ (hjobMem j (hkept hj))) (fun j hj => hrec _ (hjobMem j (hkept hj)))
        (fun j hj => hc.reused j (hkept hj))
        (((List.pairwise_append.mp hc.separate).2.1).sublist (List.filter_sublist.map _))
        ((@inv_recordReviewRefusals _ _ _ _ _ _ _ _ (b.jobs.filterMap fun j =>
          (refusalOf b.depRefused j).map fun why => (j, why)) b.now hdeps).mono
            (List.map_subset _ hkept))
      split at hdecl
      · rw [if_pos ‹_›]
        refine leaves_installAndRevert honly hloop fun f p hread hr hp => ?_
        obtain ⟨hn, hf, -⟩ := hdecl f p hread hr hp
        exact ⟨hn, hf⟩
      · rw [if_neg ‹_›]
        refine leaves_of_inv hloop fun f p hread hr hp => ?_
        exact absurd (hdecl f p hread hr hp).2.2 ‹_›
  · rw [if_neg ‹_›]
    refine leaves_of_inv hdeps fun f p hread hr hp => ?_
    exact absurd (hdecl f p hread hr hp).2.2 ‹_›

/-! ## Runs that leave the record of a refused artifact -/

/-- A system on which pacman refuses everything. -/
def refusing : System where
  readPkgname := fun f =>
    if f.name = "mesa-sysforge-26.1-1-x86_64.pkg.tar.zst" then some "mesa-sysforge"
    else if f.name = "glslang-16.0-1-x86_64.pkg.tar.zst" then some "glslang"
    else none
  readReplaces := fun f =>
    if f.name = "mesa-sysforge-26.1-1-x86_64.pkg.tar.zst" then ["mesa"] else []
  allInstalled := fun _ => ["mesa", "glslang"]
  transact := fun _ _ => .refused .empty

/-- The file of a package that was renamed. -/
def mesaFile : Artifact := ⟨"/pkg", "mesa-sysforge-26.1-1-x86_64.pkg.tar.zst"⟩

/-- The file of a package that was not. -/
def glslangFile : Artifact := ⟨"/pkg", "glslang-16.0-1-x86_64.pkg.tar.zst"⟩

/-- What the build of a package records. -/
def recordOf (pkgname pkgver pkgbase : String) : RecordArgs × String :=
  ({ pkgname := pkgname, pkgver := pkgver, pkgrel := "1", epoch := "0", pkgbase := pkgbase,
     pkgbuildDir := "/src/" ++ pkgbase }, "2026-01-02T00:00:00Z")

/-- The build of a target. -/
def buildOf (pkgbase : String) (record : RecordArgs × String) (file : Artifact) : Job where
  target := { pkgbase := pkgbase, pkgnames := [pkgbase] }
  outcome := .built [record] [file] none
  searchDir := "/pkg"
  now := "2026-01-02T00:00:00Z"

/-- A batch of one target, whose build renames it. -/
def renamedBatch : Batch where
  jobs := [buildOf "mesa" (recordOf "mesa-sysforge" "26.1" "mesa-sysforge") mesaFile]
  intraDeps := fun _ => []
  deps := []
  depRefused := .empty
  now := "2026-01-02T00:00:00Z"

/-- A batch whose dependency is refused, before its only target fails. -/
def dependencyBatch : Batch where
  jobs := [{ buildOf "mesa" (recordOf "mesa" "26.1" "mesa") mesaFile with
    outcome := .failed { text := "makepkg failed" } }]
  intraDeps := fun _ => []
  deps := [⟨.built [recordOf "glslang" "16.0" "glslang"], [glslangFile]⟩]
  depRefused := .empty
  now := "2026-01-02T00:00:00Z"

/-- A batch that an exception ends after a just-in-time install was refused. -/
def endedBatch : Batch where
  jobs := [buildOf "glslang" (recordOf "glslang" "16.0" "glslang") glslangFile,
    { buildOf "mesa" (recordOf "mesa" "26.1" "mesa") mesaFile with outcome := .raised }]
  intraDeps := fun base => if base = "mesa" then ["glslang"] else []
  deps := []
  depRefused := .empty
  now := "2026-01-02T00:00:00Z"

/-- A refused artifact keeps its new record when it was renamed, when it is that of a dependency,
and when an exception ends the run. -/
theorem not_leavesState :
    ¬ LeavesState refusing true (fun _ => none) renamedBatch .empty ∧
      ¬ LeavesState refusing true (fun _ => none) dependencyBatch .empty ∧
      ¬ LeavesState refusing true (fun _ => none) endedBatch .empty := by
  refine ⟨fun h => ?_, fun h => ?_, fun h => ?_⟩
  · have := h.refused mesaFile "mesa-sysforge" (by decide) ⟨[], ⟨[mesaFile], false⟩, [],
      by decide, rfl, by decide, nofun⟩
    exact absurd this (by rw [SameFacts]; decide)
  · have := h.refused glslangFile "glslang" (by decide) ⟨[], ⟨[glslangFile], false⟩, [],
      by decide, rfl, by decide, nofun⟩
    exact absurd this (by rw [SameFacts]; decide)
  · have := h.refused glslangFile "glslang" (by decide) ⟨[], ⟨[glslangFile], false⟩, [],
      by decide, rfl, by decide, nofun⟩
    exact absurd this (by rw [SameFacts]; decide)

/-- A batch of one target under its own name. -/
def plainBatch : Batch where
  jobs := [buildOf "glslang" (recordOf "glslang" "16.0" "glslang") glslangFile]
  intraDeps := fun _ => []
  deps := []
  depRefused := .empty
  now := "2026-01-02T00:00:00Z"

/-- Its refused artifact leaves no record. -/
theorem leavesState_plainBatch : LeavesState refusing true (fun _ => none) plainBatch .empty := by
  refine leavesState_of_covered ⟨List.pairwise_singleton _ _, ?_, ?_, ?_, nofun, ?_⟩
  · intro a ha f hf p _ g hg _
    rw [List.mem_singleton.mp ha] at hf hg
    exact (List.mem_singleton.mp hg).trans (List.mem_singleton.mp hf).symm
  · exact fun a _ f _ e he => absurd he nofun
  · exact fun j _ existing skew _ f _ p e _ he => absurd he nofun
  · intro f p _ _ hp
    have hp' : p = "glslang" := List.mem_singleton.mp hp
    subst hp'
    exact ⟨by decide, List.not_mem_nil, by decide⟩

end Sysforge.Install
