import Sysforge.Git.LocalWork
import Sysforge.Update.VersionCheck

/-!
# The dirty verdict of the LLVM preflight

`_dirty_reason` tells the evaluation before a build whether a checkout is dirty, in the words of a
purge that refuses it. It lists every change that `git status` shows, where `purge_src` passes over
what makepkg writes into the checkout of a VCS package. So the two verdicts part on a VCS package
with nothing but such changes, and only there (`dirtyReason_iff`).
-/

namespace Sysforge.Git

open Text VersionCheck

variable {κ : Type*} [DecidableEq κ] (h : History κ) (d : Differ) (lower : Text → Text) (r : Repo κ)
  (f : Failing)

/-! ## The verdicts -/

/-- `_dirty_reason`; `present` says whether the directory exists, `contains` whether
`git branch -r --contains` fails. -/
def dirtyReason (present contains : Bool) : Bool × Option String :=
  let (state, nLocal, nUpstream) := classifyHeadVsUpstream h lower r f
  if !present then (false, none)
  else if state = .notARepo ∨ state = .noHead then (false, none)
  else if !f.status && strip (r.status h) ≠ [] then (true, some "uncommitted changes")
  else if state = .noTracking then
    if !contains && r.remoteContains h then (false, none)
    else (true, some "no upstream tracking branch")
  else if state = .ahead then
    (true, some (toString nLocal ++ " commit" ++ (if nLocal ≠ 1 then "s" else "") ++
      " ahead of upstream"))
  else if state = .divergedUser then
    (true, some ("diverged from upstream (" ++ toString nLocal ++ " local / " ++
      toString nUpstream ++ " upstream)"))
  else (false, none)

/-- `purge_src` without force of the checkout of a package raises; it leaves a missing directory
alone. -/
def purgeRefuses (present contains : Bool) (dir name : String) : Bool :=
  present &&
    !(purgeSrc h d lower r f (!f.gitDir) contains dir false (isVcsPkgbase name)).toBool

/-- The paths that `git status` lists. -/
def changedPaths : List Text := (splitlines (r.status h)).filterMap statusPath

/-- A change that makepkg writes into a VCS package: the generated `.SRCINFO`, or a `PKGBUILD` of
which only the version differs. -/
def IsChurn (p : Text) : Prop := p = srcinfo ∨ p = pkgbuild ∧ diffIsPkgverOnly h d r f p = true

/-- The commits of `HEAD` are no local work: the upstream has what the local user wrote, or `HEAD`
is reachable from a remote ref. -/
def Published (contains : Bool) : Prop :=
  (classifyHeadVsUpstream h lower r f).1 ∈
      [HeadState.clean, .behind, .divergedUpstream] ∨
    (classifyHeadVsUpstream h lower r f).1 = .noTracking ∧ contains = false ∧
      r.remoteContains h = true

/-- A VCS package with changes, all of which makepkg writes, and no local commits. -/
def OnlyChurn (contains : Bool) (name : String) : Prop :=
  isVcsPkgbase name = true ∧ Published h lower r f contains ∧ f.status = false ∧
    changedPaths h r ≠ [] ∧ ∀ p ∈ changedPaths h r, IsChurn h d r f p

section Verdicts

variable {h d lower r f} {contains isVcs : Bool} {dir name : String} {p l : Text}

/-! ## The changed paths -/

omit [DecidableEq κ] in
/-- A path is read from every line of the status. -/
theorem statusPath_isSome (hl : l ∈ r.statusLine h p) : (statusPath l).isSome = true := by
  rw [Repo.statusLine] at hl
  cases hf : (r.detected h).find? fun q => q.2 = p with
  | none =>
    rw [hf] at hl
    simp only at hl
    split_ifs at hl
    · cases hl
    · obtain rfl := Option.some.inj hl
      obtain ⟨q, hq, -⟩ := @statusPath_plain (codeX ((r.headTree h).get p) (r.index.get p))
        (codeY (r.index.get p) (r.worktree.get p)) p
      rw [hq]
      rfl
  | some u =>
    rw [hf] at hl
    obtain rfl := Option.some.inj hl
    obtain ⟨q, hq, -⟩ := @statusPath_rename 'R' (codeY (r.index.get p) (r.worktree.get p)) p u.1
    rw [hq]
    rfl

omit [DecidableEq κ] in
/-- The status is blank only when it lists no path. -/
theorem strip_status_eq_nil : strip (r.status h) = [] ↔ changedPaths h r = [] := by
  constructor
  · intro hblank
    refine List.filterMap_eq_nil_iff.mpr fun l hl => ?_
    rw [splitlines_status] at hl
    rw [statusPath, if_pos]
    refine .inr ?_
    rw [strip_eq_nil_iff] at hblank ⊢
    exact fun c hc => hblank c (List.mem_flatMap.mpr
      ⟨l, hl, List.mem_append_left _ (List.mem_of_mem_drop hc)⟩)
  · intro hnil
    have hlines : splitlines (r.status h) = [] := by
      refine List.eq_nil_iff_forall_not_mem.mpr fun l hl => ?_
      have hpath := List.filterMap_eq_nil_iff.mp hnil l hl
      rw [splitlines_status, List.mem_filterMap] at hl
      obtain ⟨p, -, hp⟩ := hl
      have hsome := statusPath_isSome hp
      rw [hpath] at hsome
      cases hsome
    rw [splitlines_status] at hlines
    rw [Repo.status, hlines]
    rfl

omit [DecidableEq κ] in
/-- The paths that count as dirty are the changed ones that are no churn of a VCS package. -/
theorem uncommittedDirtyPaths_eq_nil : uncommittedDirtyPaths h d r f isVcs = [] ↔
    f.status = true ∨ ∀ p ∈ changedPaths h r, isVcs = true ∧ IsChurn h d r f p := by
  rw [uncommittedDirtyPaths]
  cases hs : f.status with
  | true => exact iff_of_true rfl (.inl rfl)
  | false =>
    rw [Bool.false_or, or_iff_right Bool.false_ne_true]
    by_cases hblank : strip (r.status h) = []
    · rw [if_pos (decide_eq_true hblank), strip_status_eq_nil.mp hblank]
      exact iff_of_true rfl fun p hp => absurd hp List.not_mem_nil
    · rw [if_neg (by rwa [decide_eq_true_iff]), List.filter_eq_nil_iff]
      refine forall₂_congr fun p _ => ?_
      rw [Bool.and_eq_true, not_and_or, Bool.not_eq_true', Bool.not_eq_true', Bool.not_eq_false,
        Bool.not_eq_false, Bool.and_eq_true, Bool.and_eq_true, Bool.and_eq_true,
        decide_eq_true_iff, decide_eq_true_iff, and_assoc, ← and_or_left]
      rfl

/-! ## The two verdicts -/

/-- A checkout with a resolved `HEAD`. -/
def HasHead (h : History κ) (lower : Text → Text) (r : Repo κ) (f : Failing) : Prop :=
  (classifyHeadVsUpstream h lower r f).1 ≠ .notARepo ∧
    (classifyHeadVsUpstream h lower r f).1 ≠ .noHead

theorem Published.hasHead (hp : Published h lower r f contains) : HasHead h lower r f := by
  rcases hp with hp | ⟨hs, -⟩
  · simp only [List.mem_cons, List.not_mem_nil, or_false] at hp
    rcases hp with hs | hs | hs <;> exact ⟨by rw [hs]; decide, by rw [hs]; decide⟩
  · exact ⟨by rw [hs]; decide, by rw [hs]; decide⟩

theorem dirtyReason_fst {present : Bool} : (dirtyReason h lower r f present contains).1 = true ↔
    present = true ∧ HasHead h lower r f ∧
      (f.status = false ∧ changedPaths h r ≠ [] ∨ ¬ Published h lower r f contains) := by
  have hshown : f.status = false ∧ changedPaths h r ≠ [] ↔
      (!f.status && strip (r.status h) ≠ []) = true := by
    rw [Bool.and_eq_true, Bool.not_eq_true', decide_eq_true_iff]
    exact and_congr_right fun _ => not_congr strip_status_eq_nil.symm
  rw [dirtyReason, HasHead, Published, hshown]
  generalize classifyHeadVsUpstream h lower r f = c
  generalize (!f.status && decide (strip (r.status h) ≠ [])) = shown
  obtain ⟨state, n, m⟩ := c
  cases present with
  | false => simp
  | true => cases shown <;> cases state <;> cases contains <;> cases r.remoteContains h <;> simp

theorem purgeCauses_ne_nil (hh : HasHead h lower r f) :
    purgeCauses h d lower r f contains isVcs ≠ [] ↔
      uncommittedDirtyPaths h d r f isVcs ≠ [] ∨ ¬ Published h lower r f contains := by
  rw [purgeCauses, Ne, List.append_eq_nil_iff, not_and_or]
  refine or_congr ?_ ?_
  · by_cases hd : uncommittedDirtyPaths h d r f isVcs = []
    · rw [hd]
      exact iff_of_false (not_not.mpr rfl) (not_not.mpr rfl)
    · rw [if_neg (mt List.map_eq_nil_iff.mp hd)]
      exact iff_of_true (List.cons_ne_nil _ _) hd
  · rw [HasHead] at hh
    rw [Published]
    generalize classifyHeadVsUpstream h lower r f = c at hh ⊢
    obtain ⟨state, n, m⟩ := c
    dsimp only at hh ⊢
    cases state <;> cases contains <;> cases hr : r.remoteContains h <;> simp_all

theorem purgeRefuses_iff {present : Bool} :
    purgeRefuses h d lower r f present contains dir name = true ↔
      present = true ∧ HasHead h lower r f ∧
        (uncommittedDirtyPaths h d r f (isVcsPkgbase name) ≠ [] ∨
          ¬ Published h lower r f contains) := by
  rw [purgeRefuses, Bool.and_eq_true, Bool.not_eq_true', purgeSrc, Bool.not_false, Bool.and_true]
  refine and_congr_right fun _ => ?_
  by_cases hh : HasHead h lower r f
  · have hdir : f.gitDir = false := by
      cases hg : f.gitDir with
      | false => rfl
      | true => exact absurd (by rw [classifyHeadVsUpstream, hg]; rfl) hh.1
    rw [hdir, if_pos (by rfl), purgeRefusalMessage, ← purgeCauses_ne_nil hh, and_iff_right hh]
    by_cases hc : purgeCauses h d lower r f contains (isVcsPkgbase name) = []
    · rw [if_pos (.inr (.inr hc))]
      exact iff_of_false (by decide) (not_not.mpr hc)
    · rw [if_neg (by rintro (hs | hs | hs); exacts [hh.1 hs, hh.2 hs, hc hs])]
      exact iff_of_true rfl hc
  · have hnone : purgeRefusalMessage h d lower r f contains dir (isVcsPkgbase name) = none := by
      rw [HasHead, not_and_or, not_not, not_not] at hh
      rw [purgeRefusalMessage, if_pos (or_assoc.mp (.inl hh))]
    rw [hnone]
    refine iff_of_false ?_ fun hc => hh hc.1
    cases f.gitDir <;> decide

end Verdicts

/-- **The preflight's verdict is the purge's**, except on a VCS package with changes, all of which
makepkg writes, and no local commits. -/
theorem dirtyReason_iff (present contains : Bool) (dir name : String) :
    ((dirtyReason h lower r f present contains).1 = true ↔
      purgeRefuses h d lower r f present contains dir name = true) ↔
    ¬ (present = true ∧ OnlyChurn h d lower r f contains name) := by
  rw [dirtyReason_fst, purgeRefuses_iff, Ne, Ne, uncommittedDirtyPaths_eq_nil, OnlyChurn]
  have hhead : Published h lower r f contains → HasHead h lower r f := Published.hasHead
  have hpaths : changedPaths h r ≠ [] →
      ((∀ p ∈ changedPaths h r, isVcsPkgbase name = true ∧ IsChurn h d r f p) ↔
        isVcsPkgbase name = true ∧ ∀ p ∈ changedPaths h r, IsChurn h d r f p) := by
    intro hne
    obtain ⟨q, hq⟩ := List.exists_mem_of_ne_nil _ hne
    exact ⟨fun hall => ⟨(hall q hq).1, fun p hp => (hall p hp).2⟩,
      fun hall p hp => ⟨hall.1, hall.2 p hp⟩⟩
  have hnil : changedPaths h r = [] →
      ∀ p ∈ changedPaths h r, isVcsPkgbase name = true ∧ IsChurn h d r f p := fun he p hp => by
    rw [he] at hp
    cases hp
  by_cases hN : changedPaths h r = []
  · have hclean : f.status = true ∨
        ∀ p ∈ changedPaths h r, isVcsPkgbase name = true ∧ IsChurn h d r f p := .inr (hnil hN)
    have hsame : (f.status = false ∧ ¬ changedPaths h r = [] ∨ ¬ Published h lower r f contains) ↔
        (¬ (f.status = true ∨
          ∀ p ∈ changedPaths h r, isVcsPkgbase name = true ∧ IsChurn h d r f p) ∨
          ¬ Published h lower r f contains) :=
      or_congr_left (iff_of_false (fun hc => hc.2 hN) fun hc => hc hclean)
    rw [hsame]
    exact iff_of_true Iff.rfl fun hc => hc.2.2.2.2.1 hN
  · rw [hpaths hN]
    constructor
    · rintro hiff ⟨hpresent, hv, hpub, hs, -, hchurn⟩
      rcases (hiff.mp ⟨hpresent, hhead hpub, .inl ⟨hs, hN⟩⟩).2.2 with hd | hno
      · exact hd (.inr ⟨hv, hchurn⟩)
      · exact hno hpub
    · intro hno
      refine and_congr_right fun hpresent => and_congr_right fun _ => ?_
      by_cases hpub : Published h lower r f contains
      · rw [or_iff_left (not_not.mpr hpub), or_iff_left (not_not.mpr hpub)]
        constructor
        · rintro ⟨hs, -⟩ (hst | ⟨hv, hchurn⟩)
          · rw [hs] at hst
            cases hst
          · exact hno ⟨hpresent, hv, hpub, hs, hN, hchurn⟩
        · exact fun hd => ⟨Bool.eq_false_of_not_eq_true fun hs => hd (.inl hs), hN⟩
      · exact iff_of_true (.inr hpub) (.inr hpub)

/-- A checkout of a VCS package after makepkg has bumped its version. -/
def bumped : Repo ℕ := { inSync with worktree := oneFile ["pkgver=2"] }

/-- A purge of the checkout is not refused, and yet it counts as dirty. -/
theorem dirtyReason_bumped : Assemble.isLlvmPkgbase "llvm-git" = true ∧
    ¬ ((dirtyReason linear id bumped {} true false).1 = true ↔
      purgeRefuses linear replaceAll id bumped {} true false "llvm-git" "llvm-git" = true) := by
  decide

end Sysforge.Git
