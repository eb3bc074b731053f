import Sysforge.Foundations.Run
import Sysforge.Review.ReviewGate

/-!
# Runs of the review gate

A build is cleared when its source is trusted or the commit of its checkout is vouched for. The gate
clears every build it lets through, and only the sync of a build can move a checkout afterwards.
-/

namespace Sysforge.Review

open Git (Source)
open Run (Each)

variable {κ : Type*}

/-! ## What moves a checkout -/

section Moves

variable {w : World κ} {req : Request} {f : Fetched} {dir : Dir} {c : κ}

theorem headCommit_of_checkout {w' : World κ} (h : w'.checkout dir = w.checkout dir) :
    w'.headCommit dir = w.headCommit dir := by
  rw [World.headCommit, h, World.headCommit]

theorem fetch_headCommit (h : (w.fetch dir f).1.headCommit dir = some c) :
    w.headCommit dir = some c ∨ f = .advanced ∧ c = w.upstream dir := by
  cases f with
  | failed => exact .inl h
  | unchanged => exact .inl h
  | advanced =>
    rw [World.headCommit] at h
    have hself : (w.fetch dir .advanced).1.checkout dir =
        some (Checkout.advance (w.upstream dir) (w.checkout dir)) := if_pos rfl
    rw [hself] at h
    cases ho : w.checkout dir with
    | none =>
      rw [ho] at h
      exact .inr ⟨rfl, (Option.some.inj h).symm⟩
    | some o =>
      rw [ho] at h
      cases o with
      | plain => exact absurd h.symm (Option.some_ne_none c)
      | git head => exact .inr ⟨rfl, (Option.some.inj h).symm⟩

theorem fetch_checkout_of_ne {dir' : Dir} (h : dir' ≠ dir) :
    (w.fetch dir f).1.checkout dir' = w.checkout dir' := by
  cases f with
  | failed => rfl
  | unchanged => rfl
  | advanced => exact if_neg h

theorem syncOne_checkout_of_ne (h : dir ≠ req.dir) :
    (w.syncOne req f).1.checkout dir = w.checkout dir := by
  rw [World.syncOne]
  by_cases hl : req.source = .localTree
  · rw [if_pos hl]
  · rw [if_neg hl, fetch_checkout_of_ne h]

theorem syncOne_headCommit (h : (w.syncOne req f).1.headCommit dir = some c) :
    w.headCommit dir = some c ∨
      f = .advanced ∧ req.source ≠ .localTree ∧ dir = req.dir ∧ c = w.upstream req.dir := by
  by_cases hd : dir = req.dir
  · subst hd
    rw [World.syncOne] at h
    by_cases hl : req.source = .localTree
    · rw [if_pos hl] at h
      exact .inl h
    · rw [if_neg hl] at h
      obtain hsame | ⟨hf, hc⟩ := fetch_headCommit h
      · exact .inl hsame
      · exact .inr ⟨hf, hl, rfl, hc⟩
  · exact .inl ((headCommit_of_checkout (syncOne_checkout_of_ne hd)).symm.trans h)

/-- A request moves a checkout when its name was not requested before and the fetch finds a commit;
it then moves it to that commit. -/
theorem request_headCommit (h : (w.request req f).1.headCommit dir = some c) :
    w.headCommit dir = some c ∨ f = .advanced ∧ req.pkgbase ∉ w.results.keys ∧
      req.source ≠ .localTree ∧ dir = req.dir ∧ c = w.upstream req.dir := by
  rw [World.request] at h
  cases hr : w.results.get req.pkgbase with
  | some failed =>
    rw [hr] at h
    exact .inl h
  | none =>
    rw [hr] at h
    obtain hsame | ⟨hf, hl, hd, hc⟩ := syncOne_headCommit h
    · exact .inl hsame
    · exact .inr ⟨hf, Dict.get_eq_none.mp hr, hl, hd, hc⟩

theorem request_checkout_of_ne (h : dir ≠ req.dir) :
    (w.request req f).1.checkout dir = w.checkout dir := by
  rw [World.request]
  cases w.results.get req.pkgbase with
  | some failed => rfl
  | none => exact syncOne_checkout_of_ne h

theorem fetch_isSome {dir' : Dir} (h : (w.checkout dir').isSome) :
    ((w.fetch dir f).1.checkout dir').isSome := by
  by_cases hd : dir' = dir
  · cases f with
    | failed => exact h
    | unchanged => exact h
    | advanced =>
      have hself : (w.fetch dir .advanced).1.checkout dir' =
          some (Checkout.advance (w.upstream dir) (w.checkout dir)) := if_pos hd
      rw [hself]
      rfl
  · rw [fetch_checkout_of_ne hd]
    exact h

theorem syncOne_isSome (h : (w.checkout dir).isSome) :
    ((w.syncOne req f).1.checkout dir).isSome := by
  rw [World.syncOne]
  by_cases hl : req.source = .localTree
  · rw [if_pos hl]
    exact h
  · rw [if_neg hl]
    exact fetch_isSome h

theorem request_isSome (h : (w.checkout dir).isSome) :
    ((w.request req f).1.checkout dir).isSome := by
  rw [World.request]
  cases w.results.get req.pkgbase with
  | some failed => exact h
  | none => exact syncOne_isSome h

theorem syncOne_baselines :
    (w.syncOne req f).1.reviewed = w.reviewed ∧ (w.syncOne req f).1.legacy = w.legacy := by
  rw [World.syncOne]
  by_cases hl : req.source = .localTree
  · rw [if_pos hl]
    exact ⟨rfl, rfl⟩
  · rw [if_neg hl]
    cases f <;> exact ⟨rfl, rfl⟩

/-- A request leaves the review baselines alone. -/
theorem request_baselines :
    (w.request req f).1.reviewed = w.reviewed ∧ (w.request req f).1.legacy = w.legacy := by
  rw [World.request]
  cases w.results.get req.pkgbase with
  | some failed => exact ⟨rfl, rfl⟩
  | none => exact syncOne_baselines

theorem findPkgbuild_checkout {d : Found} (h : (w.checkout dir).isSome) :
    (w.findPkgbuild d).1.checkout dir = w.checkout dir := by
  show (if (w.checkout d.place).isSome then w else _ : World κ).checkout dir = _
  by_cases hp : (w.checkout d.place).isSome
  · rw [if_pos hp]
  · rw [if_neg hp]
    exact request_checkout_of_ne fun (heq : dir = d.place) => hp (heq ▸ h)

theorem findPkgbuild_baselines {d : Found} : (w.findPkgbuild d).1.reviewed = w.reviewed ∧
    (w.findPkgbuild d).1.legacy = w.legacy := by
  show (if (w.checkout d.place).isSome then w else _ : World κ).reviewed = _ ∧
    (if (w.checkout d.place).isSome then w else _ : World κ).legacy = _
  by_cases hp : (w.checkout d.place).isSome
  · rw [if_pos hp]
    exact ⟨rfl, rfl⟩
  · rw [if_neg hp]
    exact request_baselines

/-- Resolving the dependencies clones what is missing. -/
theorem resolveDeps_checkout {ds : List Found} (h : (w.checkout dir).isSome) :
    (w.resolveDeps ds).1.checkout dir = w.checkout dir := by
  induction ds generalizing w with
  | nil => rfl
  | cons d ds ih =>
    have hd := findPkgbuild_checkout (d := d) h
    exact (ih (hd ▸ h)).trans hd

theorem resolveDeps_baselines {ds : List Found} : (w.resolveDeps ds).1.reviewed = w.reviewed ∧
    (w.resolveDeps ds).1.legacy = w.legacy := by
  induction ds generalizing w with
  | nil => exact ⟨rfl, rfl⟩
  | cons d ds ih =>
    exact ⟨ih.1.trans findPkgbuild_baselines.1, ih.2.trans findPkgbuild_baselines.2⟩

end Moves

/-! ## The log -/

section Log

variable {log log' new : List (Entry κ)} {pkgbase : String} {c : κ} {d : Dict String κ}

theorem Vouched.mono (h : Vouched log pkgbase c) (hsub : log ⊆ log') : Vouched log' pkgbase c :=
  ⟨hsub h.1, hsub h.2⟩

/-- The entry of a presentation or of an acceptance. -/
def Entry.isReview : Entry κ → Bool
  | .presented .. | .accepted .. => true
  | .saved .. | .built .. => false

theorem sound_reviews (h : Sound log) (hnew : ∀ e ∈ new, e.isReview = true) :
    Sound (new ++ log) := by
  induction new with
  | nil => exact h
  | cons e new ih =>
    have hrest := ih fun e he => hnew e (List.mem_cons_of_mem _ he)
    cases e with
    | presented => exact hrest
    | accepted => exact hrest
    | saved => exact absurd (hnew _ List.mem_cons_self) Bool.false_ne_true
    | built => exact absurd (hnew _ List.mem_cons_self) Bool.false_ne_true

theorem sound_saved {l : List (String × κ)} (h : Sound log)
    (hl : ∀ p ∈ l, Vouched log p.1 p.2) :
    Sound ((l.map fun p => Entry.saved p.1 p.2) ++ log) := by
  induction l with
  | nil => exact h
  | cons p l ih =>
    exact ⟨List.mem_append_right _ (hl p List.mem_cons_self).1,
      ih fun q hq => hl q (List.mem_cons_of_mem p hq)⟩

/-- Every baseline is of a commit vouched for. -/
def Backs (log : List (Entry κ)) (d : Dict String κ) : Prop :=
  ∀ k c, d.get k = some c → Vouched log k c

theorem Backs.mono (h : Backs log d) (hsub : log ⊆ log') : Backs log' d :=
  fun k c hc => (h k c hc).mono hsub

theorem Backs.foldl_set {l : List (String × κ)} (h : Backs log d)
    (hl : ∀ p ∈ l, Vouched log p.1 p.2) :
    Backs log (l.foldl (fun d p => d.set p.1 p.2) d) := by
  intro k c hc
  obtain ⟨-, hsame⟩ | ⟨v, hv, hnew⟩ := Dict.get_foldl_set l d k
  · exact h k c (hsame.symm.trans hc)
  · rw [hnew] at hc
    exact Option.some.inj hc ▸ hl _ hv

end Log

/-! ## The invariant -/

section Invariant

variable {s : State κ} {i : Input}

/-- What the gate keeps about its baselines. -/
structure Books (s : State κ) : Prop where
  memory : Backs s.log s.memory
  file : Backs s.log s.reviewed
  legacy : s.legacy = .empty
  sound : Sound s.log

/-- A build may go on: its source is trusted, or its checkout is at a commit vouched for. -/
def State.Cleared (s : State κ) (job : Job) : Prop :=
  job.source ∈ s.call.trusted ∨
    ∀ c, s.headCommit job.dir = some c → Vouched s.log job.pkgbase c

/-- What holds of the targets and dependencies of a call. -/
def State.PhaseInv (s : State κ) : Prop :=
  match s.phase with
  | .idle => True
  | .presync _ => ∀ t ∈ s.call.targets, (s.checkout t.dir).isSome
  | .review rest kept =>
    (∀ t ∈ rest ++ kept, (s.checkout t.dir).isSome) ∧ ∀ t ∈ kept, s.Cleared t.job
  | .resolve targets => ∀ t ∈ targets, (s.checkout t.dir).isSome ∧ s.Cleared t.job
  | .reviewDeps targets _ => ∀ t ∈ targets, s.Cleared t.job
  | .buildDeps dirs targets =>
    (∀ dir ∈ dirs, s.Cleared (depJob dir)) ∧ ∀ t ∈ targets, s.Cleared t.job
  | .buildTargets targets => ∀ t ∈ targets, s.Cleared t.job

/-- The invariant of a run. -/
structure Inv (s : State κ) : Prop extends Books s where
  phase : s.PhaseInv

theorem State.Cleared.mono {s' : State κ} {job : Job} (h : s.Cleared job) (hcall : s'.call = s.call)
    (hhead : ∀ c, s'.headCommit job.dir = some c → s.headCommit job.dir = some c)
    (hlog : s.log ⊆ s'.log) : s'.Cleared job := by
  obtain htrusted | hvouched := h
  · exact .inl (hcall ▸ htrusted)
  · exact .inr fun c hc => (hvouched c (hhead c hc)).mono hlog

theorem Books.note {new : List (Entry κ)} (h : Books s) (hnew : ∀ e ∈ new, e.isReview = true) :
    Books (s.note new) :=
  ⟨h.memory.mono (List.subset_append_right _ _), h.file.mono (List.subset_append_right _ _),
    h.legacy, sound_reviews h.sound hnew⟩

/-- Saving the baselines of commits vouched for. -/
theorem Books.saveBaseline {reviewed : Dict String κ} {accepted : List (String × Dir)}
    (h : Books s) (hrev : Backs s.log reviewed)
    (hacc : ∀ p ∈ accepted, ∀ c, s.headCommit p.2 = some c → Vouched s.log p.1 c) :
    Books (s.saveBaseline i reviewed accepted) := by
  have hheads : ∀ p ∈ accepted.filterMap fun p => (s.headCommit p.2).map fun head => (p.1, head),
      Vouched s.log p.1 p.2 := by
    intro p hp
    obtain ⟨a, ha, hmap⟩ := List.mem_filterMap.mp hp
    obtain ⟨c, hc, rfl⟩ := Option.map_eq_some_iff.mp hmap
    exact hacc a ha c hc
  have hsub : s.log ⊆ (s.saveBaseline i reviewed accepted).log := List.subset_append_right _ _
  have hnew := (hrev.foldl_set hheads).mono hsub
  refine ⟨hnew, ?_, h.legacy, sound_saved h.sound hheads⟩
  show Backs _ (if _ then _ else s.reviewed)
  split
  · exact hnew
  · exact h.file.mono hsub

theorem reviewedCommit_eq {w : World κ} (h : w.legacy = .empty) (reviewed : Dict String κ)
    (pkgbase : String) (pkgnames : List String) :
    w.reviewedCommit reviewed pkgbase pkgnames = reviewed.get pkgbase := by
  have hnone : pkgnames.findSome? w.legacy.get = none :=
    List.findSome?_eq_none_iff.mpr fun n _ => by rw [h, Dict.get_empty]
  rw [World.reviewedCommit, hnone, Option.or_none]

end Invariant

variable [DecidableEq κ]

/-! ## The gate of a target -/

section Targets

variable {s : State κ} {i : Input} {t : Target} {rest kept targets : List Target}

theorem reviewTarget_accept {head reviewed : Option κ} {trusted terminal : Bool} {answer : Answer}
    (h : reviewTarget head reviewed trusted terminal answer = .accept) : reviewed ≠ head := by
  rw [reviewTarget] at h
  by_cases hg : head = none
  · rw [if_pos hg] at h
    exact absurd h (by decide)
  · rw [if_neg hg] at h
    intro hr
    rw [if_pos hr] at h
    exact absurd h (by decide)

/-- A target that is not asked about is at its baseline or outside git. -/
theorem reviewTarget_quiet {head reviewed : Option κ} {trusted terminal : Bool} {answer : Answer}
    (h : reviewTarget head reviewed trusted terminal answer = .clean ∨
      reviewTarget head reviewed trusted terminal answer = .noGit) :
    head = none ∨ reviewed = head := by
  rw [reviewTarget] at h
  by_cases hg : head = none
  · exact .inl hg
  by_cases hr : reviewed = head
  · exact .inr hr
  rw [if_neg hg, if_neg hr] at h
  cases trusted <;> cases terminal <;> cases answer <;> exact absurd h (by decide)

omit [DecidableEq κ] in
/-- Going on with a cleared target. -/
theorem keep_inv (h : Books s) (hthere : ∀ u ∈ t :: rest ++ kept, (s.checkout u.dir).isSome)
    (hkept : ∀ u ∈ kept, s.Cleared u.job) (ht : s.Cleared t.job) :
    Inv { s with phase := .review rest (kept ++ [t]) } := by
  refine ⟨⟨h.memory, h.file, h.legacy, h.sound⟩, fun u hu => hthere u ?_, fun u hu => ?_⟩
  · obtain hu | hu := List.mem_append.mp hu
    · exact List.mem_append_left _ (List.mem_cons_of_mem t hu)
    · obtain hu | hu := List.mem_append.mp hu
      · exact List.mem_append_right _ hu
      · exact List.mem_singleton.mp hu ▸ List.mem_append_left _ List.mem_cons_self
  · obtain hu | hu := List.mem_append.mp hu
    · exact hkept u hu
    · exact List.mem_singleton.mp hu ▸ ht

/-- The gate of a target clears the ones it goes on with. -/
theorem reviewOne_inv (h : Books s) (hthere : ∀ u ∈ t :: rest ++ kept, (s.checkout u.dir).isSome)
    (hkept : ∀ u ∈ kept, s.Cleared u.job) : Inv (s.reviewOne i t rest kept) := by
  let head := s.headCommit t.dir
  let reviewed := s.reviewedCommit s.memory t.pkgbase t.pkgnames
  let s' := s.note (if reviewed = head then [] else head.toList.map (.presented t.pkgbase))
  let accepted := s'.note (head.toList.map (.accepted t.pkgbase))
  have hrev : reviewed = s.memory.get t.pkgbase := reviewedCommit_eq h.legacy ..
  have hs' : Books s' := by
    refine h.note fun e he => ?_
    split at he
    · exact absurd he List.not_mem_nil
    · obtain ⟨c, -, rfl⟩ := List.mem_map.mp he
      rfl
  have haccepted : Books accepted := by
    refine hs'.note fun e he => ?_
    obtain ⟨c, -, rfl⟩ := List.mem_map.mp he
    rfl
  have hkept' : ∀ u ∈ kept, s'.Cleared u.job := fun u hu =>
    (hkept u hu).mono rfl (fun c hc => hc) (List.subset_append_right _ _)
  have hfewer : ∀ u ∈ rest ++ kept, (s.checkout u.dir).isSome := fun u hu =>
    hthere u (List.mem_cons_of_mem t hu)
  have hquiet (hq : head = none ∨ reviewed = head) : s'.Cleared t.job := by
    refine .inr fun c (hc : head = some c) => ?_
    obtain hnone | hsame := hq
    · exact absurd (hnone.symm.trans hc).symm (Option.some_ne_none c)
    · exact hs'.memory _ _ (hrev.symm.trans (hsame.trans hc))
  rw [State.reviewOne]
  dsimp only
  cases hd : reviewTarget (s.headCommit t.dir) (s.reviewedCommit s.memory t.pkgbase t.pkgnames)
    (t.label ∈ s.call.trusted) i.terminal i.answer with
  | accept =>
    have hvouched : ∀ c, head = some c → Vouched accepted.log t.pkgbase c := by
      intro c hc
      have hshown : (if reviewed = head then [] else head.toList.map (Entry.presented t.pkgbase)) =
          [.presented t.pkgbase c] := by
        rw [if_neg (reviewTarget_accept hd), hc]
        rfl
      have haccept : head.toList.map (Entry.accepted t.pkgbase) = [.accepted t.pkgbase c] := by
        rw [hc]
        rfl
      exact ⟨List.mem_append_right _ (List.mem_append_left _ (hshown ▸ List.mem_singleton_self _)),
        List.mem_append_left _ (haccept ▸ List.mem_singleton_self _)⟩
    have hbooks : Books (accepted.saveBaseline i s.memory [(t.pkgbase, t.dir)]) := by
      refine haccepted.saveBaseline haccepted.memory fun p hp c hc => ?_
      obtain rfl := List.mem_singleton.mp hp
      exact hvouched c hc
    have hsub : accepted.log ⊆ (accepted.saveBaseline i s.memory [(t.pkgbase, t.dir)]).log :=
      List.subset_append_right _ _
    refine keep_inv hbooks hthere (fun u hu => ?_) (.inr fun c hc => (hvouched c hc).mono hsub)
    exact (hkept' u hu).mono rfl (fun c hc => hc) fun e he => hsub (List.mem_append_right _ he)
  | skip => exact ⟨⟨hs'.memory, hs'.file, hs'.legacy, hs'.sound⟩, hfewer, hkept'⟩
  | abort => exact ⟨⟨hs'.memory, hs'.file, hs'.legacy, hs'.sound⟩, trivial⟩
  | clean => exact keep_inv hs' hthere hkept' (hquiet (reviewTarget_quiet (.inl hd)))
  | noGit => exact keep_inv hs' hthere hkept' (hquiet (reviewTarget_quiet (.inr hd)))
  | refused => exact ⟨⟨hs'.memory, hs'.file, hs'.legacy, hs'.sound⟩, hfewer, hkept'⟩

theorem mem_orderTargets (h : t ∈ orderTargets targets) : t ∈ targets := by
  rw [orderTargets] at h
  split at h
  · exact h
  dsimp only at h
  split at h
  · exact h
  split at h
  · exact h
  · obtain ⟨n, -, hn⟩ := List.mem_filterMap.mp h
    obtain ⟨u, hu, hpair⟩ := List.mem_map.mp (Dict.mem_of_get_ofItems hn)
    exact (Prod.mk.inj hpair).2 ▸ hu

omit [DecidableEq κ] in
/-- Resolving the dependencies leaves the targets cleared. -/
theorem resolve_inv (h : Books s)
    (ht : ∀ t ∈ targets, (s.checkout t.dir).isSome ∧ s.Cleared t.job) :
    Inv (s.resolve i targets) := by
  obtain ⟨hfile, hlegacy⟩ : (s.toWorld.resolveDeps i.found).1.reviewed = s.reviewed ∧
      (s.toWorld.resolveDeps i.found).1.legacy = s.legacy := resolveDeps_baselines
  have hcleared : ∀ t ∈ targets, (s.resolve i targets).Cleared t.job := fun t hmem =>
    (ht t hmem).2.mono rfl (fun c hc => (headCommit_of_checkout
      (resolveDeps_checkout (ht t hmem).1)).symm.trans hc) fun e he => he
  refine ⟨⟨h.memory, fun k c hc => h.file k c ?_, hlegacy.trans h.legacy, h.sound⟩, ?_⟩
  · exact (congrArg (fun d => d.get k) hfile).symm.trans hc
  · show State.PhaseInv { s with
      toWorld := (s.resolveDeps i.found).1
      phase := if i.cycle then _ else _ }
    split
    · exact hcleared
    · exact hcleared

end Targets

/-! ## The gate of the dependencies -/

section Deps

variable {s : State κ} {i : Input} {deps : List Dep} {targets : List Target}
  {rows : List (String × Dir)} {n : String} {dir : Dir} {c : κ}

theorem mem_changed : (n, dir, c) ∈ s.changed rows ↔ (n, dir) ∈ rows ∧
    s.headCommit dir = some c ∧ s.reviewedCommit s.reviewed dir.name [n] ≠ some c := by
  rw [World.changed, List.mem_filterMap]
  constructor
  · rintro ⟨⟨m, d⟩, hrow, h⟩
    obtain ⟨head, hhead, h⟩ := Option.bind_eq_some_iff.mp h
    split at h
    · exact absurd h.symm (Option.some_ne_none _)
    next hne =>
      obtain ⟨rfl, rfl, rfl⟩ := Prod.mk.inj (Option.some.inj h) |>.imp id Prod.mk.inj
      exact ⟨hrow, hhead, hne⟩
  · rintro ⟨hrow, hhead, hne⟩
    refine ⟨(n, dir), hrow, ?_⟩
    rw [hhead]
    exact if_neg hne

/-- What is not changed is at its baseline. -/
theorem vouched_of_unchanged (h : Books s) (hrow : (n, dir) ∈ rows) (hc : s.headCommit dir = some c)
    (hno : (n, dir, c) ∉ s.changed rows) : Vouched s.log dir.name c := by
  have hsame : s.reviewedCommit s.reviewed dir.name [n] = some c := by
    by_contra hne
    exact hno (mem_changed.mpr ⟨hrow, hc, hne⟩)
  rw [reviewedCommit_eq h.legacy] at hsame
  exact h.file _ _ hsame

theorem mem_buildable : (n, dir) ∈ buildable deps ↔ ∃ d ∈ deps, d.name = n ∧ d.dir = some dir := by
  rw [buildable, List.mem_filterMap]
  constructor
  · rintro ⟨d, hd, h⟩
    obtain ⟨dir', hdir, h⟩ := Option.map_eq_some_iff.mp h
    obtain ⟨rfl, rfl⟩ := Prod.mk.inj h
    exact ⟨d, hd, rfl, hdir⟩
  · rintro ⟨d, hd, rfl, hdir⟩
    exact ⟨d, hd, by rw [hdir]; rfl⟩

omit [DecidableEq κ] in
/-- The builds of cleared dependencies and targets. -/
theorem buildAll_inv (h : Books s) (hdeps : ∀ n dir, (n, dir) ∈ buildable deps →
      s.Cleared (depJob dir)) (ht : ∀ t ∈ targets, s.Cleared t.job) :
    Inv (s.buildAll deps targets) := by
  refine ⟨⟨h.memory, h.file, h.legacy, h.sound⟩, fun dir hdir => ?_, ht⟩
  obtain ⟨p, hp, rfl⟩ := List.mem_map.mp (Dict.mem_keys_ofItems.mp hdir)
  obtain ⟨⟨n, dir⟩, hrow, rfl⟩ := List.mem_map.mp hp
  exact hdeps n dir hrow

omit [DecidableEq κ] in
/-- The acceptance of the presented rows clears the builds of all. -/
theorem acceptAll_inv {changed : List (String × Dir × κ)} (h : Books s)
    (hshown : ∀ r ∈ changed, Entry.presented r.2.1.name r.2.2 ∈ s.log)
    (hrows : ∀ n dir, (n, dir) ∈ buildable deps → ∀ c, s.headCommit dir = some c →
      (n, dir, c) ∈ changed ∨ Vouched s.log dir.name c)
    (ht : ∀ t ∈ targets, s.Cleared t.job) : Inv (s.acceptAll i changed targets deps) := by
  rw [State.acceptAll]
  generalize hnew : changed.map (fun r => Entry.accepted r.2.1.name r.2.2) = new
  have haccepted : Books (s.note new) := by
    refine h.note fun e he => ?_
    rw [← hnew] at he
    obtain ⟨r, -, rfl⟩ := List.mem_map.mp he
    rfl
  have hsub : s.log ⊆ (s.note new).log := List.subset_append_right _ _
  have hvouched : ∀ n dir, (n, dir) ∈ buildable deps → ∀ c, s.headCommit dir = some c →
      Vouched (s.note new).log dir.name c := by
    intro n dir hrow c hc
    obtain hmem | hv := hrows n dir hrow c hc
    · have hacc : Entry.accepted dir.name c ∈ new := hnew ▸ List.mem_map_of_mem hmem
      exact ⟨hsub (hshown _ hmem), List.mem_append_left _ hacc⟩
    · exact hv.mono hsub
  have hbooks : Books ((s.note new).saveBaseline i (s.note new).reviewed
      ((buildable deps).map fun row => (row.2.name, row.2))) := by
    refine haccepted.saveBaseline haccepted.file fun p hp c hc => ?_
    obtain ⟨⟨n, dir⟩, hrow, rfl⟩ := List.mem_map.mp hp
    exact hvouched n dir hrow c hc
  refine buildAll_inv hbooks (fun n dir hrow => .inr fun c hc => ?_) fun t hmem => ?_
  · exact (hvouched n dir hrow c hc).mono (List.subset_append_right _ _)
  · exact (ht t hmem).mono rfl (fun c hc => hc) fun e he =>
      List.mem_append_right _ (hsub he)

omit [DecidableEq κ] in
/-- A refusal leaves the dependencies that are not changed. -/
theorem refuseAll_inv {changed : List (String × Dir × κ)} (h : Books s)
    (hrows : ∀ n dir, (n, dir) ∈ buildable deps → ∀ c, s.headCommit dir = some c →
      (n, dir, c) ∈ changed ∨ Vouched s.log dir.name c)
    (ht : ∀ t ∈ targets, s.Cleared t.job) : Inv (s.refuseAll changed targets deps) := by
  refine buildAll_inv h (fun n dir hrow => .inr fun c hc => ?_) fun t hmem =>
    ht t (List.mem_of_mem_filter hmem)
  obtain ⟨d, hd, rfl, hdir⟩ := mem_buildable.mp hrow
  obtain ⟨hd, hkept⟩ := List.mem_filter.mp hd
  obtain hmem | hv := hrows d.name dir (mem_buildable.mpr ⟨d, hd, rfl, hdir⟩) c hc
  · exact absurd (Worklist.subset_closure (List.mem_map_of_mem hmem)) (of_decide_eq_true hkept)
  · exact hv

/-- The gate of the dependencies clears those it leaves. -/
theorem reviewAll_inv (h : Books s) (ht : ∀ t ∈ targets, s.Cleared t.job)
    (hphase : s.phase = .reviewDeps targets deps) : Inv (s.reviewAll i targets deps) := by
  have hrows : ∀ n dir, (n, dir) ∈ buildable deps → ∀ c, s.headCommit dir = some c →
      (n, dir, c) ∈ s.changed (buildable deps) ∨ Vouched s.log dir.name c := by
    intro n dir hrow c hc
    by_cases hmem : (n, dir, c) ∈ s.changed (buildable deps)
    · exact .inl hmem
    · exact .inr (vouched_of_unchanged h hrow hc hmem)
  rw [State.reviewAll]
  generalize s.changed (buildable deps) = changed at hrows
  by_cases hnone : changed = []
  · rw [if_pos hnone]
    refine buildAll_inv h (fun n dir hrow => .inr fun c hc => ?_) ht
    exact (hrows n dir hrow c hc).resolve_left (hnone ▸ List.not_mem_nil)
  rw [if_neg hnone]
  generalize hnew : changed.map (fun r => Entry.presented r.2.1.name r.2.2) = new
  have hs' : Books (s.note new) := by
    refine h.note fun e he => ?_
    rw [← hnew] at he
    obtain ⟨r, -, rfl⟩ := List.mem_map.mp he
    rfl
  have hsub : s.log ⊆ (s.note new).log := List.subset_append_right _ _
  have hshown : ∀ r ∈ changed, Entry.presented r.2.1.name r.2.2 ∈ (s.note new).log := fun r hr =>
    List.mem_append_left _ (hnew ▸ List.mem_map_of_mem hr)
  have hrows' : ∀ n dir, (n, dir) ∈ buildable deps → ∀ c, (s.note new).headCommit dir = some c →
      (n, dir, c) ∈ changed ∨ Vouched (s.note new).log dir.name c := fun n dir hrow c hc =>
    (hrows n dir hrow c hc).imp id fun hv => hv.mono hsub
  have ht' : ∀ t ∈ targets, (s.note new).Cleared t.job := fun t hmem =>
    (ht t hmem).mono rfl (fun c hc => hc) hsub
  have haccept := acceptAll_inv (i := i) hs' hshown hrows' ht'
  split
  · exact haccept
  split
  · exact refuseAll_inv hs' hrows' ht'
  split
  · exact haccept
  split
  · exact ⟨⟨hs'.memory, hs'.file, hs'.legacy, hs'.sound⟩, trivial⟩
  · refine ⟨hs', ?_⟩
    show State.PhaseInv { s.note new with phase := s.phase }
    rw [hphase]
    exact ht'

end Deps

/-! ## The builds -/

section Builds

variable {s : State κ} {i : Input} {job : Job} {update : Bool} {e : Event κ}

omit [DecidableEq κ] in
/-- A quiet sync leaves the builds to come cleared. -/
theorem cleared_request {req : Request} (hp : ∀ j ∈ s.pending, s.Cleared j)
    (hq : i.fetched = .advanced → s.Harmless req) {j : Job} (hj : j ∈ s.pending) :
    State.Cleared { s with toWorld := (s.request req i.fetched).1 } j := by
  obtain htrusted | hvouched := hp j hj
  · exact .inl htrusted
  by_cases ht : j.source ∈ s.call.trusted
  · exact .inl ht
  refine .inr fun c hc => ?_
  obtain hsame | ⟨hf, hnew, hremote, hdir, rfl⟩ := request_headCommit hc
  · exact hvouched c hsame
  · obtain hknown | hlocal | hall := hq hf
    · exact absurd hknown hnew
    · exact absurd hlocal hremote
    · exact (hall j hj hdir).resolve_left ht

omit [DecidableEq κ] in
/-- A build of a cleared checkout keeps the books, and the builds to come cleared. -/
theorem build_spec (h : Books s) (hp : ∀ j ∈ s.pending, s.Cleared j) (hjob : job ∈ s.pending)
    (hq : i.fetched = .advanced → update = true →
      s.Harmless ⟨job.dir.name, job.dir, job.source⟩) :
    Books (s.build i job update).1 ∧ ∀ j ∈ s.pending, (s.build i job update).1.Cleared j := by
  let r := if update then s.request ⟨job.dir.name, job.dir, job.source⟩ i.fetched
    else (s.toWorld, false)
  let s' : State κ := { s with toWorld := r.1 }
  have hs' : Books s' ∧ ∀ j ∈ s.pending, s'.Cleared j := by
    cases update with
    | false => exact ⟨⟨h.memory, h.file, h.legacy, h.sound⟩, hp⟩
    | true =>
      obtain ⟨hfile, hlegacy⟩ :
          (s.request ⟨job.dir.name, job.dir, job.source⟩ i.fetched).1.reviewed = s.reviewed ∧
            (s.request ⟨job.dir.name, job.dir, job.source⟩ i.fetched).1.legacy = s.legacy :=
        request_baselines
      refine ⟨⟨h.memory, fun k c hc => h.file k c ?_, hlegacy.trans h.legacy, h.sound⟩,
        fun j hj => cleared_request hp (fun hf => hq hf rfl) hj⟩
      exact (congrArg (fun d => d.get k) hfile).symm.trans hc
  obtain ⟨hbooks, hcleared⟩ := hs'
  let entries := (s'.headCommit job.dir).toList.map fun head =>
    Entry.built job.pkgbase head (decide (job.source ∈ s.call.trusted))
  show Books (if r.2 then (s', false) else if i.reaches then (s'.note entries, true)
      else (s', true)).1 ∧ ∀ j ∈ s.pending, State.Cleared
    (if r.2 then (s', false) else if i.reaches then (s'.note entries, true) else (s', true)).1 j
  split
  · exact ⟨hbooks, hcleared⟩
  split
  · have hsub : s'.log ⊆ (s'.note entries).log := List.subset_append_right _ _
    refine ⟨⟨hbooks.memory.mono hsub, hbooks.file.mono hsub, hbooks.legacy, ?_⟩,
      fun j hj => (hcleared j hj).mono rfl (fun c hc => hc) hsub⟩
    show Sound (entries ++ s'.log)
    cases hc : s'.headCommit job.dir with
    | none =>
      have hempty : entries = [] := by
        show (s'.headCommit job.dir).toList.map _ = []
        rw [hc]
        rfl
      rw [hempty]
      exact hbooks.sound
    | some c =>
      have hone : entries = [.built job.pkgbase c (decide (job.source ∈ s.call.trusted))] := by
        show (s'.headCommit job.dir).toList.map _ = _
        rw [hc]
        rfl
      rw [hone]
      refine ⟨fun hun => ?_, hbooks.sound⟩
      exact ((hcleared job hjob).resolve_left (of_decide_eq_false hun)) c hc
  · exact ⟨hbooks, hcleared⟩

omit [DecidableEq κ] in
/-- A call opens the gate with the baselines of the file. -/
theorem openReview_inv (h : Books s) (hthere : ∀ t ∈ s.call.targets, (s.checkout t.dir).isSome) :
    Inv s.openReview :=
  ⟨⟨h.file, h.file, h.legacy, h.sound⟩, fun t ht =>
    hthere t ((List.mem_append.mp ht).resolve_right List.not_mem_nil),
    fun _ ht => absurd ht List.not_mem_nil⟩

/-- The next step of a call. -/
theorem proceed_inv (h : Inv s) (hq : Quiet s (.proceed i)) : Inv (s.proceed i) := by
  have hphase := h.phase
  have hbooks := h.toBooks
  rw [State.PhaseInv] at hphase
  rw [State.proceed]
  cases hp : s.phase with
  | idle => exact h
  | presync rest =>
    rw [hp] at hphase
    cases rest with
    | nil => exact openReview_inv hbooks hphase
    | cons t rest =>
      obtain ⟨hfile, hlegacy⟩ :
          (s.request ⟨t.pkgbase, t.dir, t.label⟩ i.fetched).1.reviewed = s.reviewed ∧
            (s.request ⟨t.pkgbase, t.dir, t.label⟩ i.fetched).1.legacy = s.legacy :=
        request_baselines
      refine ⟨⟨hbooks.memory, fun k c hc => hbooks.file k c ?_, hlegacy.trans hbooks.legacy,
        hbooks.sound⟩, fun u hu => request_isSome (hphase u hu)⟩
      exact (congrArg (fun d => d.get k) hfile).symm.trans hc
  | review rest kept =>
    rw [hp] at hphase
    cases rest with
    | nil =>
      refine ⟨⟨hbooks.memory, hbooks.file, hbooks.legacy, hbooks.sound⟩, ?_⟩
      show State.PhaseInv { s with phase := if kept.isEmpty then _ else _ }
      split
      · trivial
      · exact fun t ht => ⟨hphase.1 t (mem_orderTargets ht), hphase.2 t (mem_orderTargets ht)⟩
    | cons t rest => exact reviewOne_inv hbooks hphase.1 hphase.2
  | resolve targets =>
    rw [hp] at hphase
    exact resolve_inv hbooks hphase
  | reviewDeps targets deps =>
    rw [hp] at hphase
    exact reviewAll_inv hbooks hphase hp
  | buildDeps dirs targets =>
    rw [hp] at hphase
    cases dirs with
    | nil => exact ⟨⟨hbooks.memory, hbooks.file, hbooks.legacy, hbooks.sound⟩, hphase.2⟩
    | cons dir dirs =>
      have hpending : s.pending = (dir :: dirs).map depJob ++ targets.map Target.job := by
        rw [State.pending, hp]
      have hreq : s.buildRequest = some ⟨dir.name, dir, .aur⟩ := by
        rw [State.buildRequest, hp]
      have hcleared : ∀ j ∈ s.pending, s.Cleared j := by
        intro j hj
        rw [hpending] at hj
        obtain hj | hj := List.mem_append.mp hj
        · obtain ⟨d, hd, rfl⟩ := List.mem_map.mp hj
          exact hphase.1 d hd
        · obtain ⟨t, ht, rfl⟩ := List.mem_map.mp hj
          exact hphase.2 t ht
      obtain ⟨hb, hc⟩ : Books (s.build i (depJob dir) true).1 ∧
          ∀ j ∈ s.pending, (s.build i (depJob dir) true).1.Cleared j :=
        build_spec hbooks hcleared
          (hpending ▸ List.mem_append_left _ (List.mem_map_of_mem List.mem_cons_self))
          fun hf _ => hq hf _ hreq
      have hdirs : ∀ d ∈ dirs, (s.build i (depJob dir) true).1.Cleared (depJob d) := fun d hd =>
        hc _ (hpending ▸ List.mem_append_left _ (List.mem_map_of_mem (List.mem_cons_of_mem dir hd)))
      have htargets : ∀ t ∈ targets, (s.build i (depJob dir) true).1.Cleared t.job := fun t ht =>
        hc _ (hpending ▸ List.mem_append_right _ (List.mem_map_of_mem ht))
      refine ⟨⟨hb.memory, hb.file, hb.legacy, hb.sound⟩, ?_⟩
      show State.PhaseInv { (s.build i (depJob dir) true).1 with
        phase := if !(s.build i (depJob dir) true).2 then .idle
          else if i.fails then .buildTargets targets else .buildDeps dirs targets }
      split
      · trivial
      split
      · exact htargets
      · exact ⟨hdirs, htargets⟩
  | buildTargets targets =>
    rw [hp] at hphase
    cases targets with
    | nil => exact ⟨⟨hbooks.memory, hbooks.file, hbooks.legacy, hbooks.sound⟩, trivial⟩
    | cons t targets =>
      have hpending : s.pending = (t :: targets).map Target.job := by
        rw [State.pending, hp]
      have hreq (hsync : s.call.syncSource = true) :
          s.buildRequest = some ⟨t.dir.name, t.dir, t.label⟩ := by
        rw [State.buildRequest, hp]
        exact if_pos hsync
      have hcleared : ∀ j ∈ s.pending, s.Cleared j := by
        intro j hj
        rw [hpending] at hj
        obtain ⟨u, hu, rfl⟩ := List.mem_map.mp hj
        exact hphase u hu
      obtain ⟨hb, hc⟩ : Books (s.build i t.job s.call.syncSource).1 ∧
          ∀ j ∈ s.pending, (s.build i t.job s.call.syncSource).1.Cleared j :=
        build_spec hbooks hcleared (hpending ▸ List.mem_map_of_mem List.mem_cons_self)
          fun hf hsync => hq hf _ (hreq hsync)
      exact ⟨⟨hb.memory, hb.file, hb.legacy, hb.sound⟩, fun u hu =>
        hc _ (hpending ▸ List.mem_map_of_mem (List.mem_cons_of_mem t hu))⟩

omit [DecidableEq κ] in
theorem Inv.of_idle (h : Books s) (hp : s.phase = .idle) : Inv s :=
  ⟨h, by rw [State.PhaseInv, hp]; trivial⟩

/-- Every event keeps the invariant, when the sync of a build is quiet. -/
theorem step_inv (h : Inv s) (hq : Quiet s e) : Inv (step s e) := by
  have hbooks := h.toBooks
  cases e with
  | push dir c =>
    refine ⟨⟨hbooks.memory, hbooks.file, hbooks.legacy, hbooks.sound⟩, ?_⟩
    have hphase := h.phase
    rw [State.PhaseInv] at hphase ⊢
    cases hp : s.phase <;> rw [hp] at hphase <;> simp only [step, hp] <;> exact hphase
  | start call =>
    rw [step]
    cases hp : s.phase with
    | idle =>
      by_cases hmissing : call.targets.isEmpty ∨ ∃ t ∈ call.targets, (s.checkout t.dir).isNone
      · exact (if_pos hmissing) ▸ h
      have hthere : ∀ t ∈ call.targets, (s.checkout t.dir).isSome := fun t ht =>
        Option.isSome_iff_ne_none.mpr fun hno =>
          hmissing (.inr ⟨t, ht, Option.isNone_iff_eq_none.mpr hno⟩)
      show Inv (if _ then s else if call.syncSource then _ else _)
      rw [if_neg hmissing]
      split
      · exact ⟨⟨hbooks.memory, hbooks.file, hbooks.legacy, hbooks.sound⟩, hthere⟩
      · exact openReview_inv ⟨hbooks.memory, hbooks.file, hbooks.legacy, hbooks.sound⟩ hthere
    | _ => exact h
  | proceed i => exact proceed_inv h hq
  | raised => exact .of_idle ⟨hbooks.memory, hbooks.file, hbooks.legacy, hbooks.sound⟩ rfl
  | restart => exact .of_idle ⟨hbooks.memory, hbooks.file, hbooks.legacy, hbooks.sound⟩ rfl
  | sync req f =>
    rw [step]
    cases hp : s.phase with
    | idle =>
      obtain ⟨hfile, hlegacy⟩ : (s.request req f).1.reviewed = s.reviewed ∧
          (s.request req f).1.legacy = s.legacy := request_baselines
      refine Inv.of_idle (s := { s with toWorld := (s.request req f).1, phase := .idle })
        ⟨hbooks.memory, fun k c hc => hbooks.file k c ?_, hlegacy.trans hbooks.legacy,
          hbooks.sound⟩ rfl
      exact (congrArg (fun d => d.get k) hfile).symm.trans hc
    | _ => exact h
  | change dir checkout =>
    rw [step]
    cases hp : s.phase with
    | idle =>
      exact Inv.of_idle (s := { s with toWorld := s.setCheckout dir checkout, phase := .idle })
        ⟨hbooks.memory, hbooks.file, hbooks.legacy, hbooks.sound⟩ rfl
    | _ => exact h

end Builds

/-! ## Runs -/

/-- The checkout `b`, with a package of the same name. -/
def sampleDir : Dir := ⟨"s", "b"⟩

/-- A target in the checkout `b`. -/
def sampleTarget (pkgbase : String) : Target where
  pkgbase := pkgbase
  pkgnames := [pkgbase]
  globals := none
  dir := sampleDir

/-- One call: the pre-sync brings in the commit 1, which is accepted; then upstream moves to 2. -/
def sampleRun (pkgbase : String) : List (Event ℕ) :=
  [.start ⟨[sampleTarget pkgbase], true, []⟩, .proceed { fetched := .advanced }, .proceed {},
    .proceed { answer := .accept }, .proceed {}, .proceed {}, .proceed {}, .proceed {},
    .push sampleDir 2, .proceed { fetched := .advanced }]

/-- Every checkout is at the commit 0, with the commit 1 upstream. -/
def sampleStart : State ℕ := init (fun _ => some (.git 0)) fun _ => 1

/-- A package named otherwise is built at a commit that nobody saw. -/
theorem not_gate_sound : ¬Sound (Run.run step sampleStart (sampleRun "a")).log := by
  have hlog : (Run.run step sampleStart (sampleRun "a")).log =
      [.built "a" 2 false, .saved "a" 1, .accepted "a" 1, .presented "a" 1] := by decide
  rw [hlog]
  exact fun h => absurd (h.1 rfl).1 (by decide)

end Sysforge.Review
