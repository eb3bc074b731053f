import Sysforge.Git.Output

/-!
# Local work is kept

Before every command of a sync that moves `HEAD`, and before a purge, no tracked file differs but for
what a version bump writes; the commits of the local identity stay reachable. This needs the commands
that look for local work to answer, and says nothing of the commits of a detached `HEAD` that is
pinned anew, nor of what a purge does to side branches and the stash.
-/

namespace Sysforge.Git

open Text

variable {κ : Type*} [DecidableEq κ] {h : History κ} {d : Differ} {lower : Text → Text}
  {r r' : Repo κ} {f : Failing} {isVcs : Bool} {c t : κ}

/-! ## Commits -/

/-- The local identity authored or committed the commit. -/
def IsLocal (h : History κ) (r : Repo κ) (c : κ) : Prop :=
  ∃ e, r.userEmail = some e ∧ (strip (h.author c) = strip e ∨ strip (h.committer c) = strip e)

/-- The commit is reachable from `HEAD`, a local branch or the stash. -/
def Held (h : History κ) (r : Repo κ) (c : κ) : Prop :=
  ∃ t, (r.headCommit = some t ∨ (∃ b, r.heads.get b = some t) ∨ t ∈ r.stash) ∧ c ∈ h.ancestors t

/-- The commit is reachable from a remote-tracking branch. -/
def Pushed (h : History κ) (r : Repo κ) (c : κ) : Prop :=
  ∃ n t, r.remotes.get n = some t ∧ c ∈ h.ancestors t

/-- The commit is reachable from some ref. -/
def Reachable (h : History κ) (r : Repo κ) (c : κ) : Prop :=
  Pushed h r c ∨ ∃ t, ((∃ b, r.heads.get b = some t) ∨ t ∈ r.stash ∨
    ∃ n, r.tags.get n = some t) ∧ c ∈ h.ancestors t

/-- The commands without whose answer local work goes unseen do answer. -/
def Answers (f : Failing) : Prop :=
  f.gitDir = false ∧ f.head = false ∧ f.countLocal = false ∧ f.status = false

/-- The upstream of a branch is a remote-tracking branch. -/
def Tracking (r : Repo κ) : Prop := ∀ b u, r.upstream.get b = some u → ∃ n, u = .remote n

theorem mem_range {a b : κ} : c ∈ Repo.range h a b ↔ c ∈ h.ancestors b ∧ c ∉ h.ancestors a := by
  rw [Repo.range, List.mem_filter, decide_eq_true_iff]

/-- A commit of the local identity shows among the authors of a log. -/
theorem divergedState_of_isLocal {u t : κ} (hc : IsLocal h r c) (hrange : c ∈ Repo.range h u t) :
    divergedState h lower r f u t = .divergedUser := by
  obtain ⟨e, he, hmail⟩ := hc
  rw [divergedState]
  cases hlocal : localUserEmail r f with
  | none => rfl
  | some email =>
    refine if_pos ?_
    rw [localUserEmail] at hlocal
    split_ifs at hlocal
    rw [he, Option.map_some, Option.filter_eq_some_iff, decide_eq_true_iff] at hlocal
    obtain ⟨hemail, hne⟩ := hlocal
    obtain rfl := Option.some.inj hemail
    have hlog : splitlines (Repo.log h (Repo.range h u t)) =
        (Repo.range h u t).flatMap fun c => [h.author c, h.committer c] := by
      refine splitlines_unlines fun l hl => ?_
      obtain ⟨b, -, hb⟩ := List.mem_flatMap.mp hl
      rcases List.mem_pair.mp hb with rfl | rfl
      · exact h.oneLine_author b
      · exact h.oneLine_committer b
    have hmem : strip e ∈ ((splitlines (Repo.log h (Repo.range h u t))).map strip).filter
        (· ≠ []) := by
      refine List.mem_filter.mpr ⟨?_, decide_eq_true hne⟩
      rw [hlog]
      rcases hmail with hm | hm
      · exact hm ▸ List.mem_map_of_mem (List.mem_flatMap.mpr ⟨c, hrange, List.mem_cons_self⟩)
      · exact hm ▸ List.mem_map_of_mem (List.mem_flatMap.mpr
          ⟨c, hrange, List.mem_cons_of_mem _ List.mem_cons_self⟩)
    rw [Bool.or_eq_true, decide_eq_true_iff]
    exact .inr (List.mem_map_of_mem hmem)

theorem divergedState_cases (u t : κ) : divergedState h lower r f u t = .divergedUser ∨
    divergedState h lower r f u t = .divergedUpstream := by
  rw [divergedState]
  cases localUserEmail r f with
  | none => exact .inl rfl
  | some email =>
    simp only
    split_ifs
    · exact .inl rfl
    · exact .inr rfl

/-- What the classification of a resolved `HEAD` tells: the upstream does not resolve, or no commit is
missing from it, or some are. -/
theorem classify_cases (ha : Answers f) (ht : r.headCommit = some t) :
    (classifyHeadVsUpstream h lower r f).1 = .noTracking ∨
      ∃ ref u, r.upstreamCommit = some (ref, u) ∧
        (Repo.range h u t = [] ∧ ((classifyHeadVsUpstream h lower r f).1 = .clean ∨
            (classifyHeadVsUpstream h lower r f).1 = .behind) ∨
          (classifyHeadVsUpstream h lower r f).1 = .ahead ∨
          (classifyHeadVsUpstream h lower r f).1 = divergedState h lower r f u t) := by
  obtain ⟨hdir, hhead, hcount, -⟩ := ha
  rw [classifyHeadVsUpstream, hdir, hhead, hcount, ht]
  simp only [Bool.false_eq_true, if_false]
  cases hup : (if f.upstream = true then none else r.upstreamCommit) with
  | none => exact .inl rfl
  | some q =>
    obtain ⟨ref, u⟩ := q
    have hcommit : r.upstreamCommit = some (ref, u) := by
      split_ifs at hup
      exact hup
    refine .inr ⟨ref, u, hcommit, ?_⟩
    simp only [List.length_eq_zero_iff]
    generalize (if f.countUpstream = true then 0 else (Repo.range h t u).length) = n
    by_cases hn : Repo.range h u t = []
    · refine .inl ⟨hn, ?_⟩
      by_cases hz : n = 0
      · exact .inl (by rw [if_pos ⟨hn, hz⟩])
      · exact .inr (by rw [if_neg fun hx => hz hx.2, if_pos hn])
    · refine .inr ?_
      rw [if_neg fun hx => hn hx.1, if_neg hn]
      by_cases hz : n = 0
      · exact .inl (by rw [if_pos hz])
      · exact .inr (by rw [if_neg hz])

/-- The states of a checkout without local commits. -/
def NoLocalCommits (s : HeadState) : Prop :=
  s = .clean ∨ s = .behind ∨ s = .divergedUpstream

/-- In such a state the upstream resolves, and a commit of the local identity that `HEAD` reaches is
in the upstream. -/
theorem upstream_of_noLocalCommits (ha : Answers f) (ht : r.headCommit = some t)
    (hs : NoLocalCommits (classifyHeadVsUpstream h lower r f).1) :
    ∃ ref u, r.upstreamCommit = some (ref, u) ∧
      ∀ c ∈ h.ancestors t, IsLocal h r c → c ∈ h.ancestors u := by
  rcases @classify_cases κ _ h lower r f t ha ht with hstate | ⟨ref, u, hup, hstate⟩
  · rw [hstate] at hs
    rcases hs with hs | hs | hs <;> cases hs
  · refine ⟨ref, u, hup, fun c hc hlocal => ?_⟩
    by_contra hnot
    have hrange : c ∈ Repo.range h u t := mem_range.mpr ⟨hc, hnot⟩
    rcases hstate with ⟨hnil, -⟩ | hstate | hstate
    · rw [hnil] at hrange
      cases hrange
    · rw [hstate] at hs
      rcases hs with hs | hs | hs <;> cases hs
    · rw [hstate, divergedState_of_isLocal hlocal hrange] at hs
      rcases hs with hs | hs | hs <;> cases hs

/-- A resolved `HEAD` is in a state without local commits, or in one that protects it. -/
theorem classify_protected (ha : Answers f) (ht : r.headCommit = some t) :
    NoLocalCommits (classifyHeadVsUpstream h lower r f).1 ∨
      (classifyHeadVsUpstream h lower r f).1 = .noTracking ∨
      (classifyHeadVsUpstream h lower r f).1 = .ahead ∨
      (classifyHeadVsUpstream h lower r f).1 = .divergedUser := by
  rcases @classify_cases κ _ h lower r f t ha ht with hs | ⟨ref, u, -, ⟨-, hs | hs⟩ | hs | hs⟩
  · exact .inr (.inl hs)
  · exact .inl (.inl hs)
  · exact .inl (.inr (.inl hs))
  · exact .inr (.inr (.inl hs))
  · rw [hs]
    exact (divergedState_cases u t).elim (fun hd => .inr (.inr (.inr hd)))
      fun hd => .inl (.inr (.inr hd))

/-- A checkout that is not dirty has no local commits, and no dirty paths. -/
theorem of_gitIsDirty (ha : Answers f) (ht : r.headCommit = some t)
    (hd : gitIsDirty h d lower r f isVcs = false) :
    NoLocalCommits (classifyHeadVsUpstream h lower r f).1 ∧
      uncommittedDirtyPaths h d r f isVcs = [] := by
  rw [gitIsDirty] at hd
  rcases @classify_protected κ _ h lower r f t ha ht with hs | hs | hs | hs
  · refine ⟨hs, ?_⟩
    rw [if_neg, Bool.or_eq_false_iff, decide_eq_false_iff_not, not_not] at hd
    · exact hd.1
    · rcases hs with hs | hs | hs <;> rw [hs] <;> decide
  · rw [hs, if_neg (by decide), Bool.or_eq_false_iff] at hd
    exact absurd hd.2 (by decide)
  · rw [hs, if_neg (by decide), Bool.or_eq_false_iff] at hd
    exact absurd hd.2 (by decide)
  · rw [hs, if_neg (by decide), Bool.or_eq_false_iff] at hd
    exact absurd hd.2 (by decide)

/-! ## The commands that move `HEAD` -/

/-- What a command that moves `HEAD` leaves alone. -/
structure Spares (h : History κ) (isVcs : Bool) (m : Move κ) : Prop where
  tree : Spared h isVcs m.before
  commits : (m.kind = .pin → ∃ b, m.before.head = .branch b) →
    ∀ c, IsLocal h m.before c → Held h m.before c → Reachable h m.after c

omit [DecidableEq κ] in
/-- Moving a branch from a commit leaves the commits reachable that the new one or another ref
reaches. -/
theorem reachable_moveHead {b : Text} {t u c : κ} (hb : r.head = .branch b)
    (ht : r.headCommit = some t) (hkeep : c ∈ h.ancestors t → c ∈ h.ancestors u ∨ Pushed h r c)
    (hc : Held h r c) (keep : List Text) : Reachable h ((r.moveHead u).checkout h u keep) c := by
  have hmove : r.moveHead u = { r with heads := r.heads.set b u } := by
    rw [Repo.moveHead, hb]
  have hhead : r.heads.get b = some t := by
    rwa [Repo.headCommit, hb] at ht
  have hreach : c ∈ h.ancestors t → Reachable h ((r.moveHead u).checkout h u keep) c := by
    intro hct
    rw [hmove]
    rcases hkeep hct with hu | hp
    · exact .inr ⟨u, .inl ⟨b, (Dict.get_set ..).trans (if_pos rfl)⟩, hu⟩
    · exact .inl hp
  obtain ⟨t', hfrom, hct⟩ := hc
  rcases hfrom with heq | ⟨b', hb'⟩ | hstash
  · obtain rfl := Option.some.inj (ht.symm.trans heq)
    exact hreach hct
  · by_cases hbb : b' = b
    · rw [hbb, hhead] at hb'
      obtain rfl := Option.some.inj hb'
      exact hreach hct
    · rw [hmove]
      exact .inr ⟨t', .inl ⟨b', (Dict.get_set ..).trans ((if_neg hbb).trans hb')⟩, hct⟩
  · rw [hmove]
    exact .inr ⟨t', .inr (.inl hstash), hct⟩

omit [DecidableEq κ] in
/-- An upstream is of a branch. -/
theorem head_of_upstreamCommit {ref : Ref} {u : κ} (hup : r.upstreamCommit = some (ref, u)) :
    ∃ b, r.head = .branch b ∧ r.upstream.get b = some ref ∧ r.resolve ref = some u := by
  rw [Repo.upstreamCommit, Option.bind_eq_some_iff] at hup
  obtain ⟨ref', href, hu⟩ := hup
  obtain ⟨u', hres, heq⟩ := Option.map_eq_some_iff.mp hu
  obtain ⟨rfl, rfl⟩ := Prod.mk.inj heq
  rw [Repo.upstreamRef] at href
  cases hh : r.head with
  | branch b =>
    rw [hh] at href
    exact ⟨b, rfl, href, hres⟩
  | detached c =>
    rw [hh] at href
    cases href

/-- The commits of the local identity that `HEAD` reaches are pushed. -/
theorem pushed_of_noLocalCommits (hup : Tracking r) (ha : Answers f) (ht : r.headCommit = some t)
    (hs : NoLocalCommits (classifyHeadVsUpstream h lower r f).1) (hc : c ∈ h.ancestors t)
    (hlocal : IsLocal h r c) : Pushed h r c := by
  obtain ⟨ref, u, hcommit, hall⟩ := upstream_of_noLocalCommits ha ht hs
  obtain ⟨b, -, hget, hres⟩ := head_of_upstreamCommit hcommit
  obtain ⟨n, rfl⟩ := hup b ref hget
  exact ⟨n, u, hres, hall c hc hlocal⟩

theorem spares_reset (hup : Tracking r) (ha : Answers f) (ht : r.headCommit = some t)
    (hd : gitIsDirty h d lower r f isVcs = false) (u : κ) :
    Spares h isVcs ⟨.reset, r, r.resetHard h u⟩ := by
  obtain ⟨hs, hnil⟩ := of_gitIsDirty ha ht hd
  refine ⟨spared_of_nil ha.2.2.2 hnil, fun _ c hlocal hheld => ?_⟩
  obtain ⟨ref, v, hcommit, -⟩ := upstream_of_noLocalCommits ha ht hs
  obtain ⟨b, hb, -⟩ := head_of_upstreamCommit hcommit
  exact reachable_moveHead hb ht
    (fun hct => .inr (pushed_of_noLocalCommits hup ha ht hs hct hlocal)) hheld []

theorem spares_fastForward (ha : Answers f) (ht : r.headCommit = some t)
    (hd : gitIsDirty h d lower r f false = false) {u : κ} (hm : r.mergeFf h u = some r') :
    Spares h isVcs ⟨.fastForward, r, r'⟩ := by
  obtain ⟨hs, hnil⟩ := of_gitIsDirty ha ht hd
  have hspared : Spared h false r := spared_of_nil ha.2.2.2 hnil
  refine ⟨fun p hp => absurd (hspared p hp).1 Bool.false_ne_true, fun _ c hlocal hheld => ?_⟩
  obtain ⟨ref, v, hcommit, -⟩ := upstream_of_noLocalCommits ha ht hs
  obtain ⟨b, hb, -⟩ := head_of_upstreamCommit hcommit
  rw [Repo.mergeFf, ht, Option.any_some] at hm
  split_ifs at hm with hanc
  obtain rfl := Option.some.inj hm
  rw [Bool.and_eq_true, decide_eq_true_iff] at hanc
  exact reachable_moveHead hb ht (fun hct => .inl (h.ancestors_trans hanc.1 hct)) hheld _

omit [DecidableEq κ] in
theorem spares_pin (ha : f.status = false) (hnil : uncommittedDirtyPaths h d r f isVcs = [])
    {u : κ} (hm : r.switchVersion h u = some r') : Spares h isVcs ⟨.pin, r, r'⟩ := by
  refine ⟨spared_of_nil ha hnil, fun hbranch c _ hheld => ?_⟩
  obtain ⟨b, hb⟩ := hbranch rfl
  rw [Repo.switchVersion] at hm
  split_ifs at hm
  obtain rfl := Option.some.inj hm
  obtain ⟨t, hfrom, hct⟩ := hheld
  refine .inr ⟨t, ?_, hct⟩
  rcases hfrom with heq | hbr | hstash
  · rw [Repo.headCommit, hb] at heq
    exact .inl ⟨b, heq⟩
  · exact .inl hbr
  · exact .inr (.inl hstash)

/-! ## A sync -/

variable {repo stable : Bool} {m : Move κ}

/-- Every command whose answer protects local work gives one, in each of the checks of a sync. -/
def Sync.Answers (a : Sync κ) : Prop :=
  Git.Answers a.compare.dirty ∧ Git.Answers a.dirty ∧ a.uncommitted.status = false

theorem compareFetched_spec {a : Compare κ} (b : Option κ) (hb : ∀ t, b = some t → r.headCommit = some t) :
    (∀ m ∈ (compareFetched h d lower r a b).2.2, ∃ c, m = ⟨.fastForward, r, m.after⟩ ∧
        gitIsDirty h d lower r a.dirty false = false ∧ r.mergeFf h c = some m.after) ∧
      ((compareFetched h d lower r a b).1.status = .diverged →
        (compareFetched h d lower r a b).2.1 = r ∧ ∃ t, r.headCommit = some t) := by
  cases b with
  | none => exact ⟨fun m hm => absurd hm List.not_mem_nil, fun hs => by cases hs⟩
  | some b =>
    unfold compareFetched
    cases hf : (if a.fetchHead = true then none else r.fetchHead) with
    | none => exact ⟨fun m hm => absurd hm List.not_mem_nil, fun hs => by cases hs⟩
    | some c =>
      simp only
      by_cases hbc : b = c
      · rw [if_pos hbc]
        exact ⟨fun m hm => absurd hm List.not_mem_nil, fun hs => by cases hs⟩
      rw [if_neg hbc]
      by_cases hdiv : (a.ancestor || !decide (b ∈ h.ancestors c) ||
          gitIsDirty h d lower r a.dirty false) = true
      · rw [if_pos hdiv]
        exact ⟨fun m hm => absurd hm List.not_mem_nil, fun _ => ⟨rfl, b, hb b rfl⟩⟩
      rw [if_neg hdiv]
      have hclean : gitIsDirty h d lower r a.dirty false = false := by
        rw [Bool.or_eq_true, not_or] at hdiv
        exact Bool.eq_false_of_not_eq_true hdiv.2
      cases hm : (if a.merge = true then none else r.mergeFf h c) with
      | none => exact ⟨fun m hm => absurd hm List.not_mem_nil, fun hs => by cases hs⟩
      | some r' =>
        refine ⟨fun m hmem => ?_, fun hs => by cases hs⟩
        obtain rfl := List.mem_singleton.mp hmem
        split_ifs at hm
        exact ⟨c, rfl, hclean, hm⟩

theorem gitFetchAndCompare_spec {a : Compare κ} :
    (∀ m ∈ (gitFetchAndCompare h d lower r a).2.2, ∃ r₀ c, m = ⟨.fastForward, r₀, m.after⟩ ∧
        gitIsDirty h d lower r₀ a.dirty false = false ∧ r₀.mergeFf h c = some m.after) ∧
      ((gitFetchAndCompare h d lower r a).1.status = .diverged →
        (gitFetchAndCompare h d lower r a).2.1.upstream = r.upstream ∧
          ∃ t, (gitFetchAndCompare h d lower r a).2.1.headCommit = some t) := by
  rw [gitFetchAndCompare]
  by_cases hdir : a.gitDir = true
  · rw [if_pos hdir]
    exact ⟨fun m hm => absurd hm List.not_mem_nil, fun hs => by cases hs⟩
  rw [if_neg hdir]
  cases hup : (if a.upstream = true then none else r.upstreamCommit) with
  | none => exact ⟨fun m hm => absurd hm List.not_mem_nil, fun hs => by cases hs⟩
  | some q =>
    obtain ⟨ref, u⟩ := q
    simp only
    cases a.fetch (remoteBranch ref.abbrev).1 (remoteBranch ref.abbrev).2 with
    | failed => exact ⟨fun m hm => absurd hm List.not_mem_nil, fun hs => by cases hs⟩
    | rateLimited => exact ⟨fun m hm => absurd hm List.not_mem_nil, fun hs => by cases hs⟩
    | ok remotes tags fetchHead =>
      have hb : ∀ t, (if a.head = true then none else r.headCommit) = some t →
          ({ r with remotes := remotes, tags := tags, fetchHead := fetchHead } : Repo κ).headCommit =
            some t := by
        intro t ht
        split_ifs at ht
        exact ht
      obtain ⟨hmoves, hdiv⟩ := @compareFetched_spec κ _ h d lower
        { r with remotes := remotes, tags := tags, fetchHead := fetchHead } a _ hb
      refine ⟨fun m hm => ?_, fun hs => ?_⟩
      · obtain ⟨c, hc⟩ := hmoves m hm
        exact ⟨_, c, hc⟩
      · obtain ⟨hr, ht⟩ := hdiv hs
        simp only
        rw [hr]
        exact ⟨rfl, ht⟩

theorem resetDiverged_spec {a : Sync κ} {o : GitFetchOutcome κ}
    (hm : m ∈ (resetDiverged h d lower r isVcs a o).2.2) :
    o.status = .diverged ∧ gitIsDirty h d lower r a.dirty isVcs = false ∧
      ∃ c, m = ⟨.reset, r, r.resetHard h c⟩ := by
  rw [resetDiverged] at hm
  by_cases hs : o.status = .diverged ∧ gitIsDirty h d lower r a.dirty isVcs = false
  · rw [if_pos hs] at hm
    refine ⟨hs.1, hs.2, ?_⟩
    cases hc : (if a.reset = true then none else r.fetchHead) with
    | none =>
      rw [hc] at hm
      cases hm
    | some c =>
      rw [hc] at hm
      simp only at hm
      split_ifs at hm
      · exact ⟨c, List.mem_singleton.mp hm⟩
      · exact ⟨c, List.mem_singleton.mp hm⟩
  · rw [if_neg hs] at hm
    cases hm

omit [DecidableEq κ] in
theorem pinRepoCheckout_spec {release : Option (Option κ)} {ms : List (Move κ)}
    (hp : pinRepoCheckout h r stable release = some (r', ms)) (hm : m ∈ ms) :
    ∃ c, r.switchVersion h c = some m.after ∧ m = ⟨.pin, r, m.after⟩ := by
  unfold pinRepoCheckout at hp
  by_cases hs : (!stable) = true
  · rw [if_pos hs] at hp
    obtain ⟨-, rfl⟩ := Prod.mk.inj (Option.some.inj hp)
    cases hm
  · rw [if_neg hs] at hp
    rcases release with _ | _ | c
    · obtain ⟨-, rfl⟩ := Prod.mk.inj (Option.some.inj hp)
      cases hm
    · cases hp
    · obtain ⟨r'', hsw, heq⟩ := Option.map_eq_some_iff.mp hp
      obtain ⟨rfl, rfl⟩ := Prod.mk.inj heq
      obtain rfl := List.mem_singleton.mp hm
      exact ⟨c, hsw, rfl⟩

theorem rePin_spec {a : Sync κ} {o : GitFetchOutcome κ}
    (hm : m ∈ (rePin h d r isVcs stable a o).2.2) :
    uncommittedDirtyPaths h d r a.uncommitted isVcs = [] ∧
      ∃ c, r.switchVersion h c = some m.after ∧ m = ⟨.pin, r, m.after⟩ := by
  rw [rePin] at hm
  by_cases hs : (stable && (o.status = .upToDate || o.status = .fetched)) = true
  · rw [if_pos hs] at hm
    by_cases hd : uncommittedDirtyPaths h d r a.uncommitted isVcs ≠ []
    · rw [if_pos hd] at hm
      cases hm
    · rw [if_neg hd] at hm
      refine ⟨not_not.mp hd, ?_⟩
      cases hp : pinRepoCheckout h r stable a.release with
      | none =>
        rw [hp] at hm
        cases hm
      | some q =>
        obtain ⟨r'', ms⟩ := q
        rw [hp] at hm
        simp only at hm
        split_ifs at hm
        · exact pinRepoCheckout_spec hp hm
        · exact pinRepoCheckout_spec hp hm
  · rw [if_neg hs] at hm
    cases hm

/-- Every command of a sync that moves `HEAD` spares local work. -/
theorem spares_fetch (hup : Tracking r) {a : Sync κ} (ha : a.Answers)
    (hm : m ∈ (fetch h d lower r isVcs repo stable a).2.2) : Spares h isVcs m := by
  obtain ⟨hcompare, hdirty, hstatus⟩ := ha
  obtain ⟨hmoves, hdiv⟩ := @gitFetchAndCompare_spec κ _ h d lower r a.compare
  have hff : m ∈ (gitFetchAndCompare h d lower r a.compare).2.2 → Spares h isVcs m := by
    intro hm
    obtain ⟨r₀, c, heq, hclean, hmerge⟩ := hmoves m hm
    have ht : ∃ t, r₀.headCommit = some t := by
      rw [Repo.mergeFf] at hmerge
      cases hhead : r₀.headCommit with
      | none =>
        rw [hhead] at hmerge
        cases hmerge
      | some t => exact ⟨t, rfl⟩
    obtain ⟨t, ht⟩ := ht
    rw [heq]
    exact spares_fastForward hcompare ht hclean hmerge
  have hpin : ∀ r₀ o, m ∈ (rePin h d r₀ isVcs (repo && stable) a o).2.2 → Spares h isVcs m := by
    intro r₀ o hm
    obtain ⟨hnil, c, hsw, heq⟩ := rePin_spec hm
    rw [heq]
    exact spares_pin hstatus hnil hsw
  rw [fetch] at hm
  by_cases hfrozen : a.frozen = true
  · rw [if_pos hfrozen] at hm
    cases hm
  rw [if_neg hfrozen] at hm
  simp only at hm
  split_ifs at hm with hpinned hrate
  · cases htags : a.tags with
    | ok remotes tags fetchHead =>
      rw [htags] at hm
      exact hpin _ _ hm
    | failed =>
      rw [htags] at hm
      exact hff hm
    | rateLimited =>
      rw [htags] at hm
      exact hff hm
  · exact hff hm
  · rcases List.mem_append.mp hm with hm | hm
    · rcases List.mem_append.mp hm with hm | hm
      · exact hff hm
      · obtain ⟨hs, hclean, c, rfl⟩ := resetDiverged_spec hm
        obtain ⟨hupstream, t, ht⟩ := hdiv hs
        refine spares_reset (fun b u hb => hup b u ?_) hdirty ht hclean c
        rwa [hupstream] at hb
    · exact hpin _ _ hm

/-! ## A purge -/

/-- A purge that is not forced is refused unless the checkout has no local commits and no dirty
paths. -/
theorem purge_spec {contains : Bool} {dir : String} (ha : Answers f) (ht : r.headCommit = some t)
    (hp : purgeSrc h d lower r f true contains dir false isVcs = .ok ()) :
    uncommittedDirtyPaths h d r f isVcs = [] ∧
      (NoLocalCommits (classifyHeadVsUpstream h lower r f).1 ∨ r.remoteContains h = true) := by
  have hs := @classify_protected κ _ h lower r f t ha ht
  rw [purgeSrc, if_pos (by decide)] at hp
  have hnone : purgeRefusalMessage h d lower r f contains dir isVcs = none := by
    cases hmsg : purgeRefusalMessage h d lower r f contains dir isVcs with
    | none => rfl
    | some msg =>
      rw [hmsg] at hp
      cases hp
  have hrepo : (classifyHeadVsUpstream h lower r f).1 ≠ .notARepo ∧
      (classifyHeadVsUpstream h lower r f).1 ≠ .noHead := by
    rcases hs with (hs | hs | hs) | hs | hs | hs <;> rw [hs] <;> decide
  have hcauses : purgeCauses h d lower r f contains isVcs = [] := by
    by_contra hne
    rw [purgeRefusalMessage, if_neg] at hnone
    · cases hnone
    · rintro (hstate | hstate | hnil)
      · exact hrepo.1 hstate
      · exact hrepo.2 hstate
      · exact hne hnil
  rw [purgeCauses] at hcauses
  obtain ⟨hdirty, hstate⟩ := List.append_eq_nil_iff.mp hcauses
  refine ⟨?_, ?_⟩
  · by_contra hne
    rw [if_neg (mt List.map_eq_nil_iff.mp hne)] at hdirty
    cases hdirty
  · rcases hs with hs | hs | hs | hs
    · exact .inl hs
    · refine .inr ?_
      rw [hs, if_neg (by decide), if_neg (by decide)] at hstate
      by_contra hnot
      rw [if_pos ⟨rfl, by rw [Bool.eq_false_of_not_eq_true hnot, Bool.not_false, Bool.or_true]⟩]
        at hstate
      cases hstate
    · rw [hs, if_pos rfl] at hstate
      cases hstate
    · rw [hs, if_neg (by decide), if_pos rfl] at hstate
      cases hstate

theorem pushed_of_remoteContains (ht : r.headCommit = some t) (hr : r.remoteContains h = true)
    (hc : c ∈ h.ancestors t) : Pushed h r c := by
  rw [Repo.remoteContains, ht, Option.any_some, List.any_eq_true] at hr
  obtain ⟨q, hq, hanc⟩ := hr
  exact ⟨q.1, q.2, Dict.mem_items.mp hq, h.ancestors_trans (of_decide_eq_true hanc) hc⟩

/-- **Local work is kept**: before each command of a sync that moves `HEAD` no tracked file differs
but for a version bump, and the local identity's commits stay reachable, those of a detached `HEAD`
that is pinned anew aside; a purge that is not forced deletes only such a checkout, with the local
identity's commits that `HEAD` reaches in a remote-tracking branch. -/
theorem local_work_kept (h : History κ) (d : Differ) (lower : Text → Text) (r : Repo κ)
    (hup : Tracking r) (isVcs : Bool) :
    (∀ (repo stable : Bool) (a : Sync κ), a.Answers →
      ∀ m ∈ (fetch h d lower r isVcs repo stable a).2.2, Spares h isVcs m) ∧
    ∀ (f : Failing) (contains : Bool) (dir : String) (t : κ), Answers f → r.headCommit = some t →
      purgeSrc h d lower r f true contains dir false isVcs = .ok () →
        Spared h isVcs r ∧ ∀ c ∈ h.ancestors t, IsLocal h r c → Pushed h r c := by
  refine ⟨fun repo stable a ha m hm => spares_fetch hup ha hm, fun f contains dir t ha ht hp => ?_⟩
  obtain ⟨hnil, hstate⟩ := purge_spec ha ht hp
  refine ⟨spared_of_nil ha.2.2.2 hnil, fun c hc hlocal => ?_⟩
  rcases hstate with hs | hr
  · exact pushed_of_noLocalCommits hup ha ht hs hc hlocal
  · exact pushed_of_remoteContains ht hr hc

/-! ## Concrete checkouts -/

/-- One file, of one line. -/
def oneFile (lines : List String) : Tree := Dict.empty.set pkgbuild ⟨lines.map String.toList, false⟩

/-- A history in one line, all of it the local user's. -/
def linear : History ℕ where
  ancestors n := List.range (n + 1)
  tree _ := oneFile ["pkgver=1"]
  author _ := "me@home".toList
  committer _ := "me@home".toList
  mem_ancestors_self n := List.mem_range.mpr n.lt_succ_self
  ancestors_trans hb ha := by
    rw [List.mem_range] at *
    omega
  oneLine_author _ := by decide
  oneLine_committer _ := by decide

/-- A diff that replaces every line. -/
def replaceAll : Differ where
  hunks old new := [⟨[], "-1 +1 @@".toList, old, new⟩]
  tail _ _ := []
  leads old new := by simp [Leads]
  objectId _ := "1234567".toList

/-- A checkout of the first commit, in sync with its upstream. -/
def inSync : Repo ℕ where
  heads := Dict.empty.set "master".toList 0
  remotes := Dict.empty.set "origin/master".toList 0
  tags := .empty
  stash := []
  head := .branch "master".toList
  upstream := Dict.empty.set "master".toList (.remote "origin/master".toList)
  fetchHead := none
  index := oneFile ["pkgver=1"]
  worktree := oneFile ["pkgver=1"]
  renames := []
  userEmail := some "me@home".toList

/-- A sync that brings the second commit. -/
def bringsSecond : Sync ℕ where
  compare := { fetch := fun _ _ => .ok (Dict.empty.set "origin/master".toList 1) .empty (some 1) }
  tags := .failed
  release := none

theorem tracking_inSync : Tracking inSync := by
  intro b u hb
  have hmem := Dict.mem_items.mpr hb
  obtain ⟨-, rfl⟩ := Prod.mk.inj (List.mem_singleton.mp hmem)
  exact ⟨_, rfl⟩

/-- The witness: the checkout is fast-forwarded, and it can be purged. -/
theorem local_work_kept_inSync :
    (∃ m ∈ (fetch linear replaceAll id inSync false false true bringsSecond).2.2,
      m.kind = .fastForward ∧ Spares linear false m) ∧
    Spared linear false inSync ∧ ∀ c ∈ linear.ancestors 0, IsLocal linear inSync c →
      Pushed linear inSync c := by
  have hkept := local_work_kept linear replaceAll id inSync tracking_inSync false
  have hall : ∀ m ∈ (fetch linear replaceAll id inSync false false true bringsSecond).2.2,
      Spares linear false m := hkept.1 false true bringsSecond ⟨⟨rfl, rfl, rfl, rfl⟩,
    ⟨rfl, rfl, rfl, rfl⟩, rfl⟩
  have hkind : (fetch linear replaceAll id inSync false false true bringsSecond).2.2.map Move.kind =
      [.fastForward] := by decide
  refine ⟨?_, hkept.2 {} false "" 0 ⟨rfl, rfl, rfl, rfl⟩ rfl ?_⟩
  · cases hm : (fetch linear replaceAll id inSync false false true bringsSecond).2.2 with
    | nil =>
      rw [hm] at hkind
      cases hkind
    | cons m ms =>
      rw [hm] at hkind
      refine ⟨m, List.mem_cons_self, (List.cons.inj hkind).1, ?_⟩
      exact hall m (hm ▸ List.mem_cons_self)
  · have hrefusal : purgeRefusalMessage linear replaceAll id inSync {} false "" false = none := by
      decide
    rw [purgeSrc, hrefusal]
    rfl

/-- The purge deletes the checkout. -/
def purged (r : Repo ℕ) (f : Failing) (isVcs : Bool) : Bool :=
  (purgeSrc linear replaceAll id r f true false "" false isVcs).toBool

/-- A detached commit that no ref reaches. -/
def detachedWork : Repo ℕ := { inSync with head := .detached 1 }

/-- A sync that pins the first commit. -/
def pinsFirst : Sync ℕ where
  compare := { fetch := fun _ _ => .failed }
  tags := .ok inSync.remotes .empty none
  release := some (some 0)

theorem not_pushed_inSync : ¬Pushed linear inSync 1 := by
  rintro ⟨n, t, hn, hc⟩
  obtain ⟨-, rfl⟩ := Prod.mk.inj (List.mem_singleton.mp (Dict.mem_items.mpr hn))
  exact absurd hc (by decide)

/-- A re-pin leaves the second commit for the first, and no ref reaches the second. -/
def unpinned (m : Move ℕ) : Bool :=
  m.kind = .pin && m.before.headCommit = some 1 && m.after.headCommit = some 0 &&
    (m.after.heads.items.map Prod.snd ++ m.after.remotes.items.map Prod.snd ++
      m.after.tags.items.map Prod.snd ++ m.after.stash).all fun t => 1 ∉ linear.ancestors t

/-- The counterexample: a purge deletes an edited file when `git status` fails, a stash, a side
branch, a staged edit under a bump of `pkgver`, and a command on the line of the bump; a re-pin leaves
the commit of a detached `HEAD` unreachable. -/
theorem local_work_lost :
    (purged { inSync with worktree := oneFile ["pkgver=1", "x=1"] } { status := true } false &&
      purged { inSync with stash := [1] } {} false &&
      purged { inSync with heads := inSync.heads.set "work".toList 1 } {} false &&
      purged { inSync with
        index := oneFile ["pkgver=1", "x=1"]
        worktree := oneFile ["pkgver=2"] } {} true &&
      purged { inSync with worktree := oneFile ["pkgver=2; x=1"] } {} true &&
      (fetch linear replaceAll id detachedWork false true true pinsFirst).2.2.any unpinned) = true ∧
    ¬Pushed linear inSync 1 := by
  refine ⟨?_, not_pushed_inSync⟩
  decide

end Sysforge.Git
