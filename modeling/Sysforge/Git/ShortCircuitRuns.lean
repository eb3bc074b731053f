import Sysforge.Foundations.Run
import Sysforge.Git.LocalWork
import Sysforge.Git.ShortCircuit

/-!
# Runs of the fetch short-circuit

The AUR repository of a package is pushed to, its checkout is changed by the user, and `sysforge`
runs start, ask the RPC, sync, and end or crash, in any order. A sync that is skipped is over the
commit that an earlier sync left, and nothing was pushed between that sync and the RPC answer.
-/

namespace Sysforge.Git

open Text

variable {κ : Type*}

/-! ## What a fetch reports -/

section Heads

variable (h : History κ) (r : Repo κ)

theorem headCommit_moveHead (c : κ) : (r.moveHead c).headCommit = some c := by
  rw [Repo.moveHead]
  split
  · next b hb =>
    rw [Repo.headCommit]
    dsimp only
    rw [hb]
    dsimp only
    rw [Dict.get_set, if_pos rfl]
  · rfl

theorem headCommit_checkout (c : κ) (keep : List Text) :
    (r.checkout h c keep).headCommit = r.headCommit := rfl

end Heads

variable [DecidableEq κ]

section Reports

variable {h : History κ} {d : Differ} {lower : Text → Text} {r r' : Repo κ} {isVcs : Bool}

/-- The outcome for a checkout: one that goes into the cache names the commit it leaves. -/
structure Names (o : GitFetchOutcome κ) (r : Repo κ) : Prop where
  isRepo : o.status ≠ .notARepo
  names : o.status = .upToDate ∨ o.status = .fetched →
    ∃ c, o.headAfter = some c ∧ r.headCommit = some c

omit [DecidableEq κ] in
theorem names_of_ne {o : GitFetchOutcome κ} (h₀ : o.status ≠ .notARepo) (h₁ : o.status ≠ .upToDate)
    (h₂ : o.status ≠ .fetched) : Names o r :=
  ⟨h₀, fun hs => absurd hs (not_or.mpr ⟨h₁, h₂⟩)⟩

omit [DecidableEq κ] in
theorem names_of_failure {o : GitFetchOutcome κ}
    (hs : (o.status = .notARepo || o.status = .upToDate || o.status = .fetched) = false) :
    Names o r := by
  obtain ⟨hleft, h₂⟩ := Bool.or_eq_false_iff.mp hs
  obtain ⟨h₀, h₁⟩ := Bool.or_eq_false_iff.mp hleft
  exact names_of_ne (of_decide_eq_false h₀) (of_decide_eq_false h₁) (of_decide_eq_false h₂)

omit [DecidableEq κ] in
theorem names_of_head {o : GitFetchOutcome κ} {c : κ} (h₀ : o.status ≠ .notARepo)
    (ho : o.headAfter = some c) (hr : r.headCommit = some c) : Names o r :=
  ⟨h₀, fun _ => ⟨c, ho, hr⟩⟩

theorem headCommit_mergeFf {c : κ} (hm : r.mergeFf h c = some r') : r'.headCommit = some c := by
  rw [Repo.mergeFf] at hm
  split_ifs at hm
  rw [← Option.some.inj hm, headCommit_checkout, headCommit_moveHead]

theorem compareFetched_names {a : Compare κ} {b : Option κ}
    (hb : ∀ c, b = some c → r.headCommit = some c) :
    Names (compareFetched h d lower r a b).1 (compareFetched h d lower r a b).2.1 := by
  cases b with
  | none => exact names_of_failure rfl
  | some b =>
    unfold compareFetched
    cases hf : (if a.fetchHead = true then none else r.fetchHead) with
    | none => exact names_of_failure rfl
    | some c =>
      dsimp only
      by_cases hbc : b = c
      · rw [if_pos hbc]
        exact names_of_head FetchStatus.noConfusion rfl (hb b rfl)
      rw [if_neg hbc]
      by_cases hdiv : (a.ancestor || !decide (b ∈ h.ancestors c) ||
          gitIsDirty h d lower r a.dirty false) = true
      · rw [if_pos hdiv]
        exact names_of_failure rfl
      rw [if_neg hdiv]
      cases hm : (if a.merge = true then none else r.mergeFf h c) with
      | none => exact names_of_failure rfl
      | some r' =>
        split_ifs at hm
        exact names_of_head FetchStatus.noConfusion rfl (headCommit_mergeFf hm)

theorem gitFetchAndCompare_names {a : Compare κ} (hdir : a.gitDir = false) :
    Names (gitFetchAndCompare h d lower r a).1 (gitFetchAndCompare h d lower r a).2.1 := by
  rw [gitFetchAndCompare, if_neg (by rw [hdir]; exact Bool.false_ne_true)]
  cases hup : (if a.upstream = true then none else r.upstreamCommit) with
  | none => exact names_of_failure rfl
  | some q =>
    obtain ⟨u, t⟩ := q
    dsimp only
    cases a.fetch (remoteBranch u.abbrev).1 (remoteBranch u.abbrev).2 with
    | failed => exact names_of_failure rfl
    | rateLimited => exact names_of_failure rfl
    | ok remotes tags fetchHead =>
      refine compareFetched_names fun c hc => ?_
      split_ifs at hc
      exact hc

theorem resetDiverged_names {a : Sync κ} {o : GitFetchOutcome κ} (ho : Names o r) :
    Names (resetDiverged h d lower r isVcs a o).1 (resetDiverged h d lower r isVcs a o).2.1 := by
  unfold resetDiverged
  by_cases hs : o.status = .diverged ∧ gitIsDirty h d lower r a.dirty isVcs = false
  · have hdiv : ∀ r' : Repo κ, Names o r' := fun r' => names_of_ne ho.isRepo
      (by rw [hs.1]; exact FetchStatus.noConfusion) (by rw [hs.1]; exact FetchStatus.noConfusion)
    rw [if_pos hs]
    cases hf : (if a.reset = true then none else r.fetchHead) with
    | none => exact ho
    | some c =>
      dsimp only
      by_cases hreset : a.resetHead = true
      · rw [if_pos hreset]
        exact hdiv _
      · rw [if_neg hreset]
        exact names_of_head FetchStatus.noConfusion rfl (headCommit_moveHead r c)
  · rw [if_neg hs]
    exact ho

omit [DecidableEq κ] in
theorem Names.syncResult {o : GitFetchOutcome κ} (ho : Names o r)
    (hs : (syncResult o).status = .upToDate ∨ (syncResult o).status = .fetched) :
    ∃ c, (syncResult o).headAfter = some c ∧ r.headCommit = some c := by
  obtain ⟨status, before, after⟩ := o
  cases status with
  | notARepo => exact absurd rfl ho.isRepo
  | upToDate => exact ho.names (.inl rfl)
  | fetched => exact ho.names (.inr rfl)
  | noTracking => exact absurd hs (not_or.mpr ⟨SyncStatus.noConfusion, SyncStatus.noConfusion⟩)
  | failed => exact absurd hs (not_or.mpr ⟨SyncStatus.noConfusion, SyncStatus.noConfusion⟩)
  | rateLimited => exact absurd hs (not_or.mpr ⟨SyncStatus.noConfusion, SyncStatus.noConfusion⟩)
  | diverged => exact absurd hs (not_or.mpr ⟨SyncStatus.noConfusion, SyncStatus.noConfusion⟩)

/-- A fetch of a checkout that is not of the official packages names the commit it leaves. -/
theorem fetch_names {a : Sync κ} {stable : Bool} (hdir : a.compare.gitDir = false)
    (hs : (fetch h d lower r isVcs false stable a).1.status = .upToDate ∨
      (fetch h d lower r isVcs false stable a).1.status = .fetched) :
    ∃ c, (fetch h d lower r isVcs false stable a).1.headAfter = some c ∧
      (fetch h d lower r isVcs false stable a).2.1.headCommit = some c := by
  unfold fetch at hs ⊢
  by_cases hf : a.frozen = true
  · rw [if_pos hf] at hs
    exact absurd hs (not_or.mpr ⟨SyncStatus.noConfusion, SyncStatus.noConfusion⟩)
  rw [if_neg hf] at hs ⊢
  have hnames := @gitFetchAndCompare_names κ _ h d lower r a.compare hdir
  generalize gitFetchAndCompare h d lower r a.compare = q at hs hnames ⊢
  obtain ⟨o, r₁, moves⟩ := q
  dsimp only at hs hnames ⊢
  have hstable : ∀ b : Bool, ¬(false && stable && b) = true := fun b => Bool.false_ne_true
  rw [if_neg (hstable _)] at hs ⊢
  by_cases hlimit : o.status = .rateLimited
  · rw [if_pos hlimit] at hs
    exact absurd hs (not_or.mpr ⟨SyncStatus.noConfusion, SyncStatus.noConfusion⟩)
  rw [if_neg hlimit] at hs ⊢
  exact (resetDiverged_names hnames).syncResult hs

end Reports

/-! ## The system -/

/-- A push, as the RPC shows it: the version and the time. -/
abbrev Stamp := Text × ℤ

/-- A sync that left a commit, with the number of pushes before it. -/
structure Synced (κ : Type*) where
  head : Option κ
  pushed : ℕ

/-- A run of `sysforge`: its scheduler, and the number of pushes before the RPC answer. -/
structure Process (κ : Type*) where
  cfg : Config
  scheduler : Scheduler κ
  rpcAt : Option ℕ := none
  /-- the package has its result -/
  requested : Bool := false

/-- The AUR repository of a package, its directory, its entry in `source_meta.toml`, the run that is
going on, and the syncs so far. -/
structure World (κ : Type*) where
  pushes : List Stamp := []
  checkout : Option (Checkout κ) := none
  file : Option (SourceMeta κ) := none
  process : Option (Process κ) := none
  syncs : List (Synced κ) := []

/-- What can happen. -/
inductive Event (κ : Type*)
  | push (stamp : Stamp)
  /-- the user commits, resets, switches the origin, or does anything else to the directory -/
  | user (checkout : Option (Checkout κ))
  | start (cfg : Config)
  /-- `_ensure_rpc`, which gets an answer or none -/
  | rpc (answered : Bool)
  | request (req : Request) (cmd : Commands κ)
  /-- `close` -/
  | finish
  | crash

/-- The package: whether it is a VCS package, its directory, and its base. -/
structure Package where
  isVcs : Bool
  dir : String
  base : Text

section Steps

variable (h : History κ) (d : Differ) (lower : Text → Text) (pkg : Package)

/-- The RPC entry after some pushes. -/
def rpcAnswer (pushes : List Stamp) : Option RpcEntry :=
  pushes.getLast?.map fun stamp => ⟨stamp.1, stamp.2, pkg.base⟩

/-- A result that left a commit in place, after asking a remote. -/
def Outcome.isSync (o : Outcome κ) : Bool :=
  o.asked && (o.status = .cloned || o.status = .ofSync .upToDate || o.status = .ofSync .fetched)

/-- The commit of the directory. -/
def Outcome.head (o : Outcome κ) : Option κ := o.checkout.bind fun c => c.repo.headCommit

/-- The result of a request in a run. -/
def World.outcome (w : World κ) (p : Process κ) (req : Request) (cmd : Commands κ) : Outcome κ :=
  syncOne h d lower pkg.isVcs pkg.dir p.cfg req cmd p.scheduler w.checkout

/-- The syncs after a result. -/
def World.log (w : World κ) (o : Outcome κ) : List (Synced κ) :=
  if o.isSync then ⟨o.head, w.pushes.length⟩ :: w.syncs else w.syncs

/-- One step; what has no run to happen in changes nothing. -/
def World.step (w : World κ) : Event κ → World κ
  | .push stamp => { w with pushes := w.pushes ++ [stamp] }
  | .user checkout => { w with checkout := checkout }
  | .start cfg =>
    match w.process with
    | some _ => w
    | none => { w with process := some { cfg, scheduler := { cache := w.file } } }
  | .rpc answered =>
    match w.process with
    | none => w
    | some p =>
      if p.rpcAt.isSome || p.cfg.offline || !p.cfg.aurEnabled then w
      else
        let rpc := if answered then rpcAnswer pkg w.pushes else none
        { w with process := some { p with scheduler := { p.scheduler with rpc := rpc }
                                          rpcAt := w.pushes.length } }
  | .request req cmd =>
    match w.process with
    | none => w
    | some p =>
      if p.requested then w
      else
        let o := w.outcome h d lower pkg p req cmd
        { w with checkout := o.checkout
                 process := some { p with scheduler := o.scheduler, requested := true }
                 syncs := w.log o }
  | .finish =>
    match w.process with
    | none => w
    | some p => { w with file := p.scheduler.cache, process := none }
  | .crash => { w with process := none }

/-- A push gives a stamp that the repository has not had. -/
def Fresh (w : World κ) : Event κ → Prop
  | .push stamp => stamp ∉ w.pushes
  | _ => True

end Steps

/-! ## The invariant -/

section Invariant

variable {h : History κ} {d : Differ} {lower : Text → Text} {pkg : Package} {isVcs : Bool}
  {dir : String} {cfg : Config} {req : Request} {cmd : Commands κ} {s : Scheduler κ}
  {c : Checkout κ} {checkout : Option (Checkout κ)} {pushes : List Stamp} {syncs : List (Synced κ)}
  {m : Option (SourceMeta κ)} {n : ℕ} {o : Outcome κ}

/-- The RPC fields of a cache entry are those of a push, and its commit is one that a sync left
after that push. -/
def Backed (pushes : List Stamp) (syncs : List (Synced κ)) (m : Option (SourceMeta κ)) : Prop :=
  ∀ entry version lastModified, m = some entry → entry.rpcVersion = some version →
    entry.rpcLastModified = some lastModified → ∃ i, ∃ sync ∈ syncs,
      pushes[i]? = some (version, lastModified) ∧ i < sync.pushed ∧
        sync.head = entry.headCommit ∧ entry.headCommit ≠ none

/-- The RPC entry of a scheduler is that of a push before `n`. -/
def Answered (pushes : List Stamp) (n : ℕ) (rpc : Option RpcEntry) : Prop :=
  ∀ e, rpc = some e → ∃ i, pushes[i]? = some (e.version, e.lastModified) ∧ i < n

omit [DecidableEq κ] in
theorem backed_none : Backed pushes syncs (none : Option (SourceMeta κ)) :=
  fun entry _ _ he => absurd he.symm (Option.some_ne_none entry)

omit [DecidableEq κ] in
theorem Backed.mono (hm : Backed pushes syncs m) {pushes' : List Stamp} {syncs' : List (Synced κ)}
    (hp : pushes <+: pushes') (hs : syncs ⊆ syncs') : Backed pushes' syncs' m := by
  intro entry v l he hv hl
  obtain ⟨i, sync, hmem, hi, hlt, hhead⟩ := hm entry v l he hv hl
  refine ⟨i, sync, hs hmem, ?_, hlt, hhead⟩
  obtain ⟨hin, hget⟩ := List.getElem?_eq_some_iff.mp hi
  rw [← hget]
  exact List.prefix_iff_getElem?.mp hp i hin

omit [DecidableEq κ] in
theorem Backed.update_nothing (hm : Backed pushes syncs m) :
    Backed pushes syncs (SourceMeta.update m {}) := by
  cases m with
  | none =>
    intro entry v l he hv
    rw [← Option.some.inj he] at hv
    cases hv
  | some entry =>
    have hsame : SourceMeta.update (some entry) {} = some entry := rfl
    rwa [hsame]

omit [DecidableEq κ] in
/-- Without the RPC fields nothing has to stand behind an entry. -/
theorem backed_forgotten (m : Option (SourceMeta κ)) (head : Option κ) :
    Backed pushes syncs (SourceMeta.update (SourceMeta.forgetRpc m) { headCommit := head }) := by
  intro entry v l he hv
  rw [← Option.some.inj he] at hv
  cases m with
  | none => cases hv
  | some m => cases hv

omit [DecidableEq κ] in
/-- What a sync leaves in the cache has the sync behind it. -/
theorem backed_saveSync (ha : Answered pushes n s.rpc) {head : Option κ}
    (hhead : req.source ≠ .repo → ∃ t, head = some t ∧ c.repo.headCommit = some t) :
    Backed pushes (⟨c.repo.headCommit, n⟩ :: syncs) (saveSync req s c head).cache := by
  rw [saveSync]
  dsimp only
  cases hrpc : rpcEntry req s with
  | none => exact backed_forgotten s.cache head
  | some e =>
    rw [recordRpc]
    by_cases hv : rpcVouches c (some e) = true
    · rw [if_pos hv]
      have hsource : req.source ≠ .repo ∧ s.rpc = some e := by
        rw [rpcEntry] at hrpc
        split_ifs at hrpc with hr
        exact ⟨hr, hrpc⟩
      obtain ⟨t, rfl, hcommit⟩ := hhead hsource.1
      obtain ⟨i, hi, hlt⟩ := ha e hsource.2
      intro entry v l he hv hl
      have hentry := Option.some.inj he
      rw [← hentry] at hv hl ⊢
      obtain rfl : e.version = v := Option.some.inj hv
      obtain rfl : e.lastModified = l := Option.some.inj hl
      exact ⟨i, _, List.mem_cons_self, hi, hlt, hcommit, Option.some_ne_none t⟩
    · rw [if_neg hv]
      exact backed_forgotten s.cache head

/-- A result keeps the RPC entry, and the cache that it leaves is backed. -/
structure Keeps (pushes : List Stamp) (syncs : List (Synced κ)) (n : ℕ) (s : Scheduler κ)
    (o : Outcome κ) : Prop where
  rpc : o.scheduler.rpc = s.rpc
  backed : Backed pushes (if o.isSync then ⟨o.head, n⟩ :: syncs else syncs) o.scheduler.cache

omit [DecidableEq κ] in
theorem keeps_of_cache (hm : Backed pushes syncs o.scheduler.cache)
    (hrpc : o.scheduler.rpc = s.rpc) :
    Keeps pushes syncs n s o := by
  refine ⟨hrpc, ?_⟩
  split_ifs
  · exact hm.mono (List.prefix_refl _) (List.subset_cons_self _ _)
  · exact hm

omit [DecidableEq κ] in
theorem clone_keeps (hm : Backed pushes syncs s.cache) (ha : Answered pushes n s.rpc) :
    Keeps pushes syncs n s (clone h cfg req cmd s) := by
  rw [clone]
  by_cases hf : cfg.frozen (cloneKind req) = true
  · rw [if_pos hf]
    exact keeps_of_cache hm rfl
  rw [if_neg hf]
  cases cmd.clone with
  | failed left => exact keeps_of_cache hm rfl
  | rateLimited left =>
    dsimp only
    by_cases hr : req.source = .repo
    · rw [if_pos hr]
      exact keeps_of_cache hm rfl
    · rw [if_neg hr]
      exact keeps_of_cache hm rfl
  | ok c head hhead =>
    dsimp only
    by_cases hr : req.source = .repo
    · rw [if_pos hr]
      cases pinRepoCheckout h c.repo cfg.repoStable cmd.sync.release with
      | none => exact keeps_of_cache hm rfl
      | some q => exact ⟨rfl, backed_saveSync ha fun hne => absurd hr hne⟩
    · rw [if_neg hr]
      exact ⟨rfl, backed_saveSync ha fun _ => ⟨head, hhead, hhead⟩⟩

/-- A fetch that goes into the cache names the commit it leaves, but for official packages. -/
theorem fetch_head {a : Sync κ} {r : Repo κ} (hdir : a.compare.gitDir = false)
    (hs : (fetch h d lower r isVcs (req.source = .repo) cfg.repoStable a).1.status = .upToDate ∨
      (fetch h d lower r isVcs (req.source = .repo) cfg.repoStable a).1.status = .fetched) :
    req.source ≠ .repo → ∃ t,
      (fetch h d lower r isVcs (req.source = .repo) cfg.repoStable a).1.headAfter = some t ∧
      (fetch h d lower r isVcs (req.source = .repo) cfg.repoStable a).2.1.headCommit = some t := by
  intro hr
  rw [decide_eq_false hr] at hs ⊢
  exact fetch_names hdir hs

omit [DecidableEq κ] in
theorem afterFetch_keeps {result : SyncResult κ} (hm : Backed pushes syncs s.cache)
    (ha : Answered pushes n s.rpc)
    (hhead : cmd.sync.compare.gitDir = false →
      result.status = .upToDate ∨ result.status = .fetched →
      req.source ≠ .repo → ∃ t, result.headAfter = some t ∧ c.repo.headCommit = some t) :
    Keeps pushes syncs n s (afterFetch req cmd s result c) := by
  rw [afterFetch]
  by_cases hdir : cmd.sync.compare.gitDir = true
  · rw [if_pos hdir]
    exact keeps_of_cache hm rfl
  rw [if_neg hdir]
  have hhead := hhead (Bool.eq_false_iff.mpr hdir)
  obtain ⟨status, before, after⟩ := result
  cases status with
  | upToDate => exact ⟨rfl, backed_saveSync ha (hhead (.inl rfl))⟩
  | fetched => exact ⟨rfl, backed_saveSync ha (hhead (.inr rfl))⟩
  | frozen => exact keeps_of_cache hm rfl
  | failed => exact keeps_of_cache hm rfl
  | rateLimited => exact keeps_of_cache hm rfl
  | diverged => exact keeps_of_cache hm rfl
  | skippedNoTracking => exact keeps_of_cache hm rfl

theorem syncFetch_keeps (hm : Backed pushes syncs s.cache) (ha : Answered pushes n s.rpc) :
    Keeps pushes syncs n s (syncFetch h d lower isVcs cfg req cmd s c) :=
  afterFetch_keeps hm ha fun hdir hs => fetch_head hdir hs

theorem fetchUnlessCurrent_keeps (hm : Backed pushes syncs s.cache) (ha : Answered pushes n s.rpc) :
    Keeps pushes syncs n s (fetchUnlessCurrent h d lower isVcs cfg req cmd s c) := by
  rw [fetchUnlessCurrent]
  split_ifs
  · exact keeps_of_cache hm rfl
  · exact keeps_of_cache hm.update_nothing rfl
  · exact syncFetch_keeps hm ha

theorem syncOnline_keeps (hm : Backed pushes syncs s.cache) (ha : Answered pushes n s.rpc) :
    Keeps pushes syncs n s (syncOnline h d lower isVcs dir cfg req cmd s checkout) := by
  cases checkout with
  | none => exact clone_keeps hm ha
  | some c =>
    rw [syncOnline]
    by_cases hp : hasPkgbuild c = true
    · rw [if_pos hp]
      exact fetchUnlessCurrent_keeps hm ha
    · rw [if_neg hp]
      obtain ⟨left, ok⟩ := purgeBoth h d lower isVcs dir cfg cmd c
      cases ok with
      | false => exact keeps_of_cache hm rfl
      | true => exact clone_keeps hm ha

/-- The purge stops with a result, or goes on with the cache as it is or without the entry. -/
theorem cleansrcPurge_keeps (hm : Backed pushes syncs s.cache) :
    (∃ o, cleansrcPurge h d lower isVcs dir cfg req cmd s checkout = .error o ∧
        Keeps pushes syncs n s o) ∨
      ∃ s' left, cleansrcPurge h d lower isVcs dir cfg req cmd s checkout = .ok (s', left) ∧
        s'.rpc = s.rpc ∧ Backed pushes syncs s'.cache := by
  cases checkout with
  | none => exact .inr ⟨s, none, rfl, rfl, hm⟩
  | some c =>
    rw [cleansrcPurge]
    split_ifs
    · exact .inr ⟨s, some c, rfl, rfl, hm⟩
    · exact .inl ⟨_, rfl, keeps_of_cache hm rfl⟩
    · exact .inl ⟨_, rfl, keeps_of_cache hm rfl⟩
    · obtain ⟨left, ok⟩ := purgeBoth h d lower isVcs dir cfg cmd c
      cases ok with
      | false => exact .inl ⟨_, rfl, keeps_of_cache hm rfl⟩
      | true => exact .inr ⟨_, left, rfl, rfl, backed_none⟩

/-- **What `_sync_one` preserves.** -/
theorem syncOne_keeps (hm : Backed pushes syncs s.cache) (ha : Answered pushes n s.rpc) :
    Keeps pushes syncs n s (syncOne h d lower isVcs dir cfg req cmd s checkout) := by
  rw [syncOne]
  by_cases hlocal : req.source = .localTree
  · rw [if_pos hlocal]
    split_ifs
    · exact keeps_of_cache hm rfl
    · exact keeps_of_cache hm rfl
  rw [if_neg hlocal]
  by_cases haur : (req.source ≠ .repo && !cfg.aurEnabled && isAurCheckout checkout) = true
  · rw [if_pos haur]
    exact keeps_of_cache hm rfl
  rw [if_neg haur]
  by_cases hab : s.aborted = true
  · rw [if_pos hab]
    exact keeps_of_cache hm rfl
  rw [if_neg hab]
  obtain ⟨o, ho, hkeeps⟩ | ⟨s', left, ho, hrpc, hbacked⟩ :=
    @cleansrcPurge_keeps κ _ h d lower isVcs dir cfg req cmd s checkout pushes syncs n hm
  · rw [ho]
    exact hkeeps
  · rw [ho]
    dsimp only
    split_ifs
    · exact keeps_of_cache hbacked hrpc
    · obtain ⟨hrpc', hbacked'⟩ := @syncOnline_keeps κ _ h d lower isVcs dir cfg req cmd s' left
        pushes syncs n hbacked (hrpc ▸ ha)
      exact ⟨hrpc'.trans hrpc, hbacked'⟩

end Invariant

/-! ## A sync that is skipped -/

section Skipped

variable {h : History κ} {d : Differ} {lower : Text → Text} {isVcs : Bool} {dir : String}
  {cfg : Config} {req : Request} {cmd : Commands κ} {s : Scheduler κ} {c : Checkout κ}
  {checkout : Option (Checkout κ)}

/-- The short-circuit was taken: the directory, the RPC entry and the cache entry agree. -/
structure Skips (s : Scheduler κ) (checkout : Option (Checkout κ)) (c : Checkout κ) (e : RpcEntry)
    (entry : SourceMeta κ) : Prop where
  checkout : checkout = some c
  rpc : s.rpc = some e
  cache : s.cache = some entry
  version : entry.rpcVersion = some e.version
  lastModified : entry.rpcLastModified = some e.lastModified
  head : c.repo.headCommit = entry.headCommit
  origin : aurOriginPkgbase c = some e.packageBase

theorem ofSync_ne {status : SyncStatus} (hs : status ≠ .upToDate) :
    ResultStatus.ofSync status ≠ .ofSync .upToDate := fun heq => hs (ResultStatus.ofSync.inj heq)

theorem frozen_ne : ResultStatus.ofSync .frozen ≠ .ofSync .upToDate :=
  ofSync_ne SyncStatus.noConfusion

theorem failed_ne : ResultStatus.ofSync .failed ≠ .ofSync .upToDate :=
  ofSync_ne SyncStatus.noConfusion

theorem rateLimited_ne : ResultStatus.ofSync .rateLimited ≠ .ofSync .upToDate :=
  ofSync_ne SyncStatus.noConfusion

omit [DecidableEq κ] in
theorem clone_status (cfg : Config) (req : Request) (cmd : Commands κ) (s : Scheduler κ) :
    (clone h cfg req cmd s).status ≠ .ofSync .upToDate := by
  rw [clone]
  by_cases hf : cfg.frozen (cloneKind req) = true
  · rw [if_pos hf]
    exact frozen_ne
  rw [if_neg hf]
  cases cmd.clone with
  | failed left => exact failed_ne
  | rateLimited left =>
    dsimp only
    split_ifs
    · exact failed_ne
    · exact rateLimited_ne
  | ok c head hhead =>
    dsimp only
    by_cases hr : req.source = .repo
    · rw [if_pos hr]
      cases pinRepoCheckout h c.repo cfg.repoStable cmd.sync.release with
      | none => exact failed_ne
      | some q => exact ResultStatus.noConfusion
    · rw [if_neg hr]
      exact ResultStatus.noConfusion

omit [DecidableEq κ] in
/-- A fetch that finds nothing new has asked. -/
theorem afterFetch_asked {result : SyncResult κ} (hdir : cmd.sync.compare.gitDir = false)
    (hs : (afterFetch req cmd s result c).status = .ofSync .upToDate) :
    (afterFetch req cmd s result c).asked = true := by
  rw [afterFetch, if_neg (by rw [hdir]; exact Bool.false_ne_true)] at hs ⊢
  obtain ⟨status, before, after⟩ := result
  cases status with
  | upToDate => rfl
  | fetched => rfl
  | rateLimited => rfl
  | failed => rfl
  | diverged => rfl
  | frozen => exact absurd hs frozen_ne
  | skippedNoTracking => exact absurd hs (ofSync_ne SyncStatus.noConfusion)

theorem skips_of_canShortCircuit (hshort : canShortCircuit (rpcEntry req s) s.cache
    c.repo.headCommit = true) (hv : rpcVouches c (rpcEntry req s) = true) :
    ∃ e entry, Skips s (some c) c e entry := by
  cases hrpc : rpcEntry req s with
  | none =>
    rw [hrpc] at hv
    cases hv
  | some e =>
    rw [hrpc] at hshort hv
    have hsource : s.rpc = some e := by
      rw [rpcEntry] at hrpc
      split_ifs at hrpc
      exact hrpc
    cases hm : s.cache with
    | none =>
      rw [hm] at hshort
      cases hshort
    | some entry =>
      rw [hm, canShortCircuit, Bool.and_eq_true, Bool.and_eq_true] at hshort
      obtain ⟨⟨hversion, htime⟩, hhead⟩ := hshort
      exact ⟨e, entry, rfl, hsource, hm, (of_decide_eq_true hversion).symm,
        (of_decide_eq_true htime).symm, of_decide_eq_true hhead, of_decide_eq_true hv⟩

theorem fetchUnlessCurrent_skips (hdir : cmd.sync.compare.gitDir = false)
    (hs : (fetchUnlessCurrent h d lower isVcs cfg req cmd s c).status = .ofSync .upToDate)
    (hasked : (fetchUnlessCurrent h d lower isVcs cfg req cmd s c).asked = false) :
    ∃ e entry, Skips s (some c) c e entry := by
  rw [fetchUnlessCurrent] at hs hasked
  by_cases hshort : (!(req.forceFetch || cfg.cleansrc || cfg.cleansrcForce) &&
      canShortCircuit (rpcEntry req s) s.cache c.repo.headCommit &&
      rpcVouches c (rpcEntry req s)) = true
  · rw [Bool.and_eq_true, Bool.and_eq_true] at hshort
    exact skips_of_canShortCircuit hshort.1.2 hshort.2
  · rw [if_neg hshort] at hs hasked
    have htrue := afterFetch_asked hdir hs
    exact absurd (htrue.symm.trans hasked) (by decide)

theorem syncOnline_skips (hdir : cmd.sync.compare.gitDir = false)
    (hs : (syncOnline h d lower isVcs dir cfg req cmd s checkout).status = .ofSync .upToDate)
    (hasked : (syncOnline h d lower isVcs dir cfg req cmd s checkout).asked = false) :
    ∃ c e entry, Skips s checkout c e entry := by
  cases checkout with
  | none => exact absurd hs (clone_status cfg req cmd s)
  | some c =>
    rw [syncOnline] at hs hasked
    by_cases hp : hasPkgbuild c = true
    · rw [if_pos hp] at hs hasked
      exact ⟨c, fetchUnlessCurrent_skips hdir hs hasked⟩
    · rw [if_neg hp] at hs
      generalize purgeBoth h d lower isVcs dir cfg cmd c = q at hs
      obtain ⟨left, ok⟩ := q
      cases ok with
      | false => exact absurd hs ResultStatus.noConfusion
      | true => exact absurd hs (clone_status cfg req cmd s)

theorem purgeBoth_left (h : History κ) (d : Differ) (lower : Text → Text) (isVcs : Bool)
    (dir : String) (cfg : Config) (cmd : Commands κ) (c : Checkout κ)
    (hp : (purgeBoth h d lower isVcs dir cfg cmd c).2 = true) :
    (purgeBoth h d lower isVcs dir cfg cmd c).1 = none := by
  rw [purgeBoth] at hp ⊢
  generalize purgeSrc h d lower c.repo cmd.purge true cmd.contains dir cfg.cleansrcForce isVcs = q
    at hp ⊢
  cases q with
  | error e => cases hp
  | ok u => rfl

/-- The purge stops, does nothing, or leaves no directory. -/
theorem cleansrcPurge_cases :
    (∃ o, cleansrcPurge h d lower isVcs dir cfg req cmd s checkout = .error o ∧
        o.status ≠ .ofSync .upToDate) ∨
      cleansrcPurge h d lower isVcs dir cfg req cmd s checkout = .ok (s, checkout) ∨
      ∃ s', cleansrcPurge h d lower isVcs dir cfg req cmd s checkout = .ok (s', none) := by
  cases checkout with
  | none => exact .inr (.inl rfl)
  | some c =>
    rw [cleansrcPurge]
    split_ifs
    · exact .inr (.inl rfl)
    · exact .inl ⟨_, rfl, ResultStatus.noConfusion⟩
    · exact .inl ⟨_, rfl, frozen_ne⟩
    · have hleft := purgeBoth_left h d lower isVcs dir cfg cmd c
      generalize purgeBoth h d lower isVcs dir cfg cmd c = q at hleft ⊢
      obtain ⟨left, ok⟩ := q
      cases ok with
      | false => exact .inl ⟨_, rfl, ResultStatus.noConfusion⟩
      | true =>
        obtain rfl : left = none := hleft rfl
        exact .inr (.inr ⟨_, rfl⟩)

/-- A result without asking is the short-circuit. -/
theorem syncOne_skips (hdir : cmd.sync.compare.gitDir = false)
    (hs : (syncOne h d lower isVcs dir cfg req cmd s checkout).status = .ofSync .upToDate)
    (hasked : (syncOne h d lower isVcs dir cfg req cmd s checkout).asked = false) :
    ∃ c e entry, Skips s checkout c e entry := by
  rw [syncOne] at hs hasked
  by_cases hlocal : req.source = .localTree
  · rw [if_pos hlocal] at hs
    by_cases hsome : checkout.isSome = true
    · rw [if_pos hsome] at hs
      exact absurd hs ResultStatus.noConfusion
    · rw [if_neg hsome] at hs
      exact absurd hs failed_ne
  rw [if_neg hlocal] at hs hasked
  by_cases haur : (req.source ≠ .repo && !cfg.aurEnabled && isAurCheckout checkout) = true
  · rw [if_pos haur] at hs
    exact absurd hs ResultStatus.noConfusion
  rw [if_neg haur] at hs hasked
  by_cases hab : s.aborted = true
  · rw [if_pos hab] at hs
    exact absurd hs rateLimited_ne
  rw [if_neg hab] at hs hasked
  obtain ⟨o, ho, hne⟩ | ho | ⟨s', ho⟩ :=
    @cleansrcPurge_cases κ _ h d lower isVcs dir cfg req cmd s checkout
  · rw [ho] at hs
    exact absurd hs hne
  · rw [ho] at hs hasked
    dsimp only at hs hasked
    by_cases hoff : cfg.offline = true
    · rw [if_pos hoff] at hs
      exact absurd hs ResultStatus.noConfusion
    · rw [if_neg hoff] at hs hasked
      exact syncOnline_skips hdir hs hasked
  · rw [ho] at hs
    dsimp only at hs
    by_cases hoff : cfg.offline = true
    · rw [if_pos hoff] at hs
      exact absurd hs ResultStatus.noConfusion
    · rw [if_neg hoff] at hs
      exact absurd hs (clone_status cfg req cmd s')

end Skipped

/-! ## Runs -/

section Runs

variable {h : History κ} {d : Differ} {lower : Text → Text} {pkg : Package} {w : World κ}
  {events : List (Event κ)}

/-- What holds between the events: the pushes differ, the entry on disk and the one of the run are
backed, and the RPC entry of the run is that of the last push before the answer. -/
structure Sound (pkg : Package) (w : World κ) : Prop where
  distinct : w.pushes.Nodup
  file : Backed w.pushes w.syncs w.file
  cache : ∀ p, w.process = some p → Backed w.pushes w.syncs p.scheduler.cache
  answer : ∀ p e, w.process = some p → p.scheduler.rpc = some e → e.packageBase = pkg.base ∧
    ∃ i, w.pushes[i]? = some (e.version, e.lastModified) ∧ p.rpcAt = some (i + 1)

omit [DecidableEq κ] in
theorem Sound.answered (hs : Sound pkg w) {p : Process κ} (hp : w.process = some p) :
    Answered w.pushes w.pushes.length p.scheduler.rpc := by
  intro e he
  obtain ⟨-, i, hi, -⟩ := hs.answer p e hp he
  exact ⟨i, hi, (List.getElem?_eq_some_iff.mp hi).1⟩

omit [DecidableEq κ] in
theorem rpcAnswer_eq {e : RpcEntry} {pushes : List Stamp} (he : rpcAnswer pkg pushes = some e) :
    e.packageBase = pkg.base ∧ ∃ i, pushes[i]? = some (e.version, e.lastModified) ∧
      pushes.length = i + 1 := by
  obtain ⟨stamp, hlast, rfl⟩ := Option.map_eq_some_iff.mp he
  obtain ⟨front, rfl⟩ := List.getLast?_eq_some_iff.mp hlast
  exact ⟨rfl, front.length, List.getElem?_concat_length, List.length_append⟩

theorem Sound.step (hs : Sound pkg w) {event : Event κ} (hfresh : Fresh w event) :
    Sound pkg (w.step h d lower pkg event) := by
  cases event with
  | push stamp =>
    have hp : w.pushes <+: w.pushes ++ [stamp] := List.prefix_append _ _
    refine ⟨?_, hs.file.mono hp (List.Subset.refl _),
      fun p hproc => (hs.cache p hproc).mono hp (List.Subset.refl _), fun p e hproc he => ?_⟩
    · exact List.nodup_append.mpr ⟨hs.distinct, List.nodup_singleton stamp, fun a ha b hb heq =>
        hfresh (List.mem_singleton.mp hb ▸ heq ▸ ha)⟩
    · obtain ⟨hbase, i, hi, hat⟩ := hs.answer p e hproc he
      obtain ⟨hin, hget⟩ := List.getElem?_eq_some_iff.mp hi
      refine ⟨hbase, i, ?_, hat⟩
      rw [← hget]
      exact List.prefix_iff_getElem?.mp hp i hin
  | user checkout => exact ⟨hs.distinct, hs.file, hs.cache, hs.answer⟩
  | start cfg =>
    rw [World.step]
    cases hproc : w.process with
    | some p => exact hs
    | none =>
      refine ⟨hs.distinct, hs.file, fun p hp => ?_, fun p e hp he => ?_⟩
      · rw [← Option.some.inj hp]
        exact hs.file
      · rw [← Option.some.inj hp] at he
        cases he
  | rpc answered =>
    rw [World.step]
    cases hproc : w.process with
    | none => exact hs
    | some p =>
      dsimp only
      by_cases hskip : (p.rpcAt.isSome || p.cfg.offline || !p.cfg.aurEnabled) = true
      · rw [if_pos hskip]
        exact hs
      · rw [if_neg hskip]
        refine ⟨hs.distinct, hs.file, fun q hq => ?_, fun q e hq he => ?_⟩
        · rw [← Option.some.inj hq]
          exact hs.cache p hproc
        · rw [← Option.some.inj hq] at he ⊢
          dsimp only at he
          split_ifs at he
          obtain ⟨hbase, i, hi, hlen⟩ := rpcAnswer_eq he
          exact ⟨hbase, i, hi, congrArg some hlen⟩
  | request req cmd =>
    rw [World.step]
    cases hproc : w.process with
    | none => exact hs
    | some p =>
      dsimp only
      by_cases hdone : p.requested = true
      · rw [if_pos hdone]
        exact hs
      · rw [if_neg hdone]
        have hkeeps : Keeps w.pushes w.syncs w.pushes.length p.scheduler
            (w.outcome h d lower pkg p req cmd) :=
          syncOne_keeps (hs.cache p hproc) (hs.answered hproc)
        have hsub : w.syncs ⊆ w.log (w.outcome h d lower pkg p req cmd) := by
          rw [World.log]
          split_ifs
          · exact List.subset_cons_self _ _
          · exact List.Subset.refl _
        refine ⟨hs.distinct, hs.file.mono (List.prefix_refl _) hsub, fun q hq => ?_,
          fun q e hq he => ?_⟩
        · rw [← Option.some.inj hq]
          exact hkeeps.backed
        · rw [← Option.some.inj hq] at he ⊢
          exact hs.answer p e hproc (hkeeps.rpc ▸ he)
  | finish =>
    rw [World.step]
    cases hproc : w.process with
    | none => exact hs
    | some p =>
      exact ⟨hs.distinct, hs.cache p hproc, fun q hq => absurd hq.symm (Option.some_ne_none q),
        fun q e hq => absurd hq.symm (Option.some_ne_none q)⟩
  | crash =>
    exact ⟨hs.distinct, hs.file, fun q hq => absurd hq.symm (Option.some_ne_none q),
      fun q e hq => absurd hq.symm (Option.some_ne_none q)⟩

omit [DecidableEq κ] in
theorem sound_init (checkout : Option (Checkout κ)) :
    Sound pkg ({ checkout := checkout } : World κ) :=
  ⟨List.nodup_nil, backed_none, fun p hq => absurd hq.symm (Option.some_ne_none p),
    fun p _ hq => absurd hq.symm (Option.some_ne_none p)⟩

/-- **A skipped sync is current**: in every run of pushes, user actions and `sysforge` runs, where a
request is answered up to date without asking a remote, `origin` is the package's AUR repository,
and the commit of the directory is one that a sync left after every push before the RPC answer. -/
theorem short_circuit_sound (h : History κ) (d : Differ) (lower : Text → Text) (pkg : Package)
    (start : Option (Checkout κ)) (events : List (Event κ))
    (hfresh : Run.Each (World.step h d lower pkg) Fresh { checkout := start } events)
    (p : Process κ) (req : Request) (cmd : Commands κ) (hdir : cmd.sync.compare.gitDir = false) :
    let w := Run.run (World.step h d lower pkg) { checkout := start } events
    let o := w.outcome h d lower pkg p req cmd
    w.process = some p → o.status = .ofSync .upToDate → o.asked = false →
      ∃ c answered, w.checkout = some c ∧ aurOriginPkgbase c = some pkg.base ∧
        p.rpcAt = some answered ∧ ∃ sync ∈ w.syncs, sync.head = c.repo.headCommit ∧
          c.repo.headCommit ≠ none ∧ answered ≤ sync.pushed := by
  intro w o hproc hstatus hasked
  have hs : Sound pkg w := hfresh.invariant (sound_init start)
    fun w event _ hw hf => hw.step hf
  obtain ⟨c, e, entry, hskips⟩ := syncOne_skips hdir hstatus hasked
  obtain ⟨hbase, i, hi, hat⟩ := hs.answer p e hproc hskips.rpc
  obtain ⟨j, sync, hmem, hj, hlt, hhead, hne⟩ := hs.cache p hproc entry e.version e.lastModified
    hskips.cache hskips.version hskips.lastModified
  have heq : i = j := by
    obtain ⟨hin, hget⟩ := List.getElem?_eq_some_iff.mp hi
    obtain ⟨hjn, hgetj⟩ := List.getElem?_eq_some_iff.mp hj
    exact (List.Nodup.getElem_inj_iff hs.distinct).mp (hget.trans hgetj.symm)
  refine ⟨c, i + 1, hskips.checkout, hbase ▸ hskips.origin, hat, sync, hmem, ?_, ?_, ?_⟩
  · rw [hhead, hskips.head]
  · rw [hskips.head]
    exact hne
  · rw [heq]
    exact hlt

/-! ### A concrete run -/

/-- A package that is not a VCS package. -/
def somePackage : Package := ⟨false, "p", ['p']⟩

/-- Clones the package; a fetch would fail. -/
def clonesPackage : Commands ℕ where
  clone := .ok ⟨.aur (some ['p']), inSync⟩ 0 rfl
  sync := { compare := { fetch := fun _ _ => .failed }, tags := .failed, release := none }

/-- A run that clones, after the first push, and the start of the next one. -/
def clonedOnce : List (Event ℕ) :=
  [.push (['1'], 1), .start {}, .rpc true, .request {} clonesPackage, .finish, .start {}, .rpc true]

/-- The second run. -/
def secondRun : Process ℕ where
  cfg := {}
  scheduler :=
    { rpc := some ⟨['1'], 1, ['p']⟩
      cache := some { rpcVersion := some ['1'], rpcLastModified := some 1,
                      rpcPackageBase := some ['p'], headCommit := some 0 } }
  rpcAt := some 1

/-- The second request of the package is answered without a fetch. -/
theorem short_circuit_sound_cloned :
    let w := Run.run (World.step linear replaceAll id somePackage) {} clonedOnce
    (w.outcome linear replaceAll id somePackage secondRun {} clonesPackage).asked = false ∧
      ∃ c answered, w.checkout = some c ∧ aurOriginPkgbase c = some ['p'] ∧
        secondRun.rpcAt = some answered ∧ ∃ sync ∈ w.syncs, sync.head = c.repo.headCommit ∧
          c.repo.headCommit ≠ none ∧ answered ≤ sync.pushed := by
  refine ⟨rfl, ?_⟩
  exact short_circuit_sound linear replaceAll id somePackage none clonedOnce
    ⟨List.not_mem_nil, trivial, trivial, trivial, trivial, trivial, trivial, trivial⟩ secondRun {}
    clonesPackage rfl rfl rfl rfl

end Runs

end Sysforge.Git
