import Sysforge.Install.InstallRuns

/-!
# The calls of install_built in a run

One call ends after at most one transaction for each file it keeps, every transaction with fewer
files than the one before, and it sorts its files: installed, refused with a reason, or dropped by
the filter. A run makes such calls just in time before its targets and once at its end, and hands
each package file of a built target to exactly one of them.
-/

namespace Sysforge.Install

open BuildState

variable {sys : System} {stateDir : Bool} {earlier : Artifact → Option Entry}
  {always requested : List String} {files pending : List Artifact} {f : Artifact} {h : Host}

/-! ## The retry loop -/

/-- The files a round of the retry loop leaves. -/
theorem length_filter_culprits {conflicts : Dict String (List String)}
    {c : Artifact × List String} {cs : List (Artifact × List String)}
    (hc : culprits sys conflicts pending = c :: cs) :
    (pending.filter fun f => f ∉ (c :: cs).map Prod.fst).length < pending.length := by
  have hmem : c.1 ∈ pending := mem_culprits (hc ▸ List.mem_cons_self)
  refine List.length_filter_lt_length_iff_exists.mpr ⟨c.1, hmem, ?_⟩
  simp

/-- A later transaction of one call has fewer files. -/
def Shrinks (t t' : Transaction) : Prop :=
  t'.files.Sublist t.files ∧ t'.files.length < t.files.length

/-- A retry loop on some files: its transactions start with all of them, lose files each time, and
are no more than the files; the bound on the rounds does not end the loop. -/
structure Retries (loop : ℕ → Installed) (h : Host) (pending : List Artifact) : Prop where
  log : ∃ new, (loop pending.length).host.log = h.log ++ new ∧ new.length ≤ pending.length ∧
    new.Pairwise Shrinks ∧ (∀ t ∈ new, t.files.Sublist pending) ∧
    (pending ≠ [] → ∃ a rest, new = ⟨pending, a⟩ :: rest)
  ends : ∀ n, pending.length ≤ n → loop n = loop pending.length

section Round

variable {restores : Bool} {g : Artifact} {gs : List Artifact} {refused : Dict Artifact String}
  {conflicts : Dict String (List String)}

/-- A round whose transaction goes through is the last one. -/
theorem installPending_of_installed (n : ℕ) (refused : Dict Artifact String)
    (htr : sys.transact h.asked (g :: gs) = .installed) :
    installPending sys restores (n + 1) h (g :: gs) refused =
      ⟨if restores then
          { h.tried (g :: gs) true with
            state := restoreRevertedState (h.tried (g :: gs) true).state (g :: gs) }
        else h.tried (g :: gs) true, g :: gs, refused⟩ := by
  rw [installPending, htr]
  exact List.cons_ne_nil g gs

/-- A refused round that blames no file is the last one. -/
theorem installPending_of_no_culprit (n : ℕ) (refused : Dict Artifact String)
    (htr : sys.transact h.asked (g :: gs) = .refused conflicts)
    (hc : culprits sys conflicts (g :: gs) = []) :
    installPending sys restores (n + 1) h (g :: gs) refused =
      ⟨h.tried (g :: gs) false, [],
        (g :: gs).foldl (fun d f => d.set f installRefusedReason) refused⟩ := by
  rw [installPending, htr]
  · dsimp only
    rw [hc]
  · exact List.cons_ne_nil g gs

/-- A refused round that blames some files goes on without them. -/
theorem installPending_of_culprits (n : ℕ) (refused : Dict Artifact String)
    {c : Artifact × List String} {cs : List (Artifact × List String)}
    (htr : sys.transact h.asked (g :: gs) = .refused conflicts)
    (hc : culprits sys conflicts (g :: gs) = c :: cs) :
    installPending sys restores (n + 1) h (g :: gs) refused =
      installPending sys restores n (h.tried (g :: gs) false)
        ((g :: gs).filter fun f => f ∉ (c :: cs).map Prod.fst)
        ((c :: cs).foldl (fun d p => d.set p.1 ("; ".intercalate p.2)) refused) := by
  rw [installPending, htr]
  · dsimp only
    rw [hc]
  · exact List.cons_ne_nil g gs

end Round

/-- A loop that ends in its first round, whatever the bound. -/
theorem retries_of_last {loop : ℕ → Installed} {g : Artifact} {gs : List Artifact} (r : Installed)
    (a : Bool) (hlog : r.host.log = h.log ++ [⟨g :: gs, a⟩]) (hr : ∀ n, loop (n + 1) = r) :
    Retries loop h (g :: gs) := by
  have hlen : (g :: gs).length = gs.length + 1 := rfl
  refine ⟨⟨[⟨g :: gs, a⟩], ?_, ?_, List.pairwise_singleton _ _, ?_, fun _ => ⟨a, [], rfl⟩⟩, ?_⟩
  · rw [hlen, hr, hlog]
  · exact Nat.succ_le_succ (Nat.zero_le _)
  · rintro t ht
    rw [List.mem_singleton.mp ht]
  · intro n hn
    obtain ⟨m, rfl⟩ := Nat.exists_eq_add_of_le' (Nat.le_of_add_left_le (hlen ▸ hn))
    rw [hlen, hr, hr]

/-- A loop that goes on with fewer files after its first round. -/
theorem retries_of_round {loop next : ℕ → Installed} {g : Artifact} {gs left : List Artifact}
    (hround : ∀ n, loop (n + 1) = next n) (hleft : left.Sublist (g :: gs))
    (hlt : left.length < (g :: gs).length) (hnext : Retries next (h.tried (g :: gs) false) left) :
    Retries loop h (g :: gs) := by
  have hlen : (g :: gs).length = gs.length + 1 := rfl
  have hle : left.length ≤ gs.length := Nat.le_of_lt_succ hlt
  obtain ⟨new, hlog, hnum, hpair, hfiles, -⟩ := hnext.log
  refine ⟨⟨⟨g :: gs, false⟩ :: new, ?_, ?_, ?_, ?_, fun _ => ⟨false, new, rfl⟩⟩, ?_⟩
  · rw [hlen, hround, hnext.ends _ hle, hlog, Host.tried, List.append_assoc,
      List.singleton_append]
  · exact Nat.succ_le_succ (hnum.trans hle)
  · refine List.pairwise_cons.mpr ⟨fun t ht => ⟨(hfiles t ht).trans hleft, ?_⟩, hpair⟩
    exact (hfiles t ht).length_le.trans_lt hlt
  · rintro t ht
    rcases List.mem_cons.mp ht with rfl | ht
    · exact List.Sublist.refl _
    · exact (hfiles t ht).trans hleft
  · intro n hn
    obtain ⟨m, rfl⟩ := Nat.exists_eq_add_of_le' (Nat.le_of_add_left_le (hlen ▸ hn))
    have hm : gs.length ≤ m := Nat.le_of_succ_le_succ hn
    rw [hlen, hround, hround, hnext.ends m (hle.trans hm), hnext.ends _ hle]

theorem retries_installPending (restores : Bool) (h : Host) (pending : List Artifact)
    (refused : Dict Artifact String) :
    Retries (fun n => installPending sys restores n h pending refused) h pending := by
  -- by induction on the number of files, which every round but the last lowers
  induction hlen : pending.length using Nat.strong_induction_on generalizing h pending refused with
  | _ k ih =>
    cases pending with
    | nil =>
      have hnil : ∀ n, installPending sys restores n h [] refused = ⟨h, [], refused⟩ := by
        intro n
        cases n <;> rfl
      exact ⟨⟨[], by rw [hnil, List.append_nil], le_rfl, .nil, nofun, fun h => absurd rfl h⟩,
        fun n _ => (hnil n).trans (hnil _).symm⟩
    | cons g gs =>
      cases htr : sys.transact h.asked (g :: gs) with
      | installed =>
        refine retries_of_last _ true ?_ fun n => installPending_of_installed n refused htr
        cases restores <;> rfl
      | refused conflicts =>
        cases hc : culprits sys conflicts (g :: gs) with
        | nil =>
          exact retries_of_last _ false rfl fun n => installPending_of_no_culprit n refused htr hc
        | cons c cs =>
          have hlt := length_filter_culprits hc
          exact retries_of_round (fun n => installPending_of_culprits n refused htr hc)
            List.filter_sublist hlt (ih _ (hlen ▸ hlt) _ _ _ rfl)

/-- The retry loop sorts the pending files: a file is installed or has a reason. -/
theorem installPending_sorts (restores : Bool) (n : ℕ) (h : Host) {pending : List Artifact}
    (hn : pending.length ≤ n) {refused : Dict Artifact String}
    (hnone : ∀ f ∈ pending, refused.get f = none) :
    (∀ f ∈ pending, f ∈ (installPending sys restores n h pending refused).installed ↔
      (installPending sys restores n h pending refused).notInstalled.get f = none) ∧
    (installPending sys restores n h pending refused).installed ⊆ pending := by
  induction n generalizing h pending refused with
  | zero =>
    obtain rfl := List.eq_nil_of_length_eq_zero (Nat.le_zero.mp hn)
    exact ⟨nofun, List.Subset.refl _⟩
  | succ n ih =>
    cases pending with
    | nil => exact ⟨nofun, List.Subset.refl _⟩
    | cons g gs =>
      rw [installPending]
      swap
      · exact List.cons_ne_nil g gs
      cases sys.transact h.asked (g :: gs) with
      | installed => exact ⟨fun f hf => iff_of_true hf (hnone f hf), List.Subset.refl _⟩
      | refused conflicts =>
        dsimp only
        cases hc : culprits sys conflicts (g :: gs) with
        | nil =>
          refine ⟨fun f hf => iff_of_false List.not_mem_nil ?_, List.nil_subset _⟩
          rw [get_refusedAll, not_and_or, not_not]
          exact .inl hf
        | cons c cs =>
          have hlt := length_filter_culprits hc
          have haside : ∀ f ∈ (g :: gs).filter fun f => f ∉ (c :: cs).map Prod.fst,
              ((c :: cs).foldl (fun d p => d.set p.1 ("; ".intercalate p.2)) refused).get f =
                none := by
            intro f hf
            obtain ⟨hmem, hnot⟩ := List.mem_filter.mp hf
            exact (get_aside refused f).mpr ⟨of_decide_eq_true hnot, hnone f hmem⟩
          obtain ⟨hsort, hsub⟩ := ih (h.tried (g :: gs) false)
            (Nat.le_of_lt_succ (hlt.trans_le hn)) haside
          refine ⟨fun f hf => ?_, fun f hf => (List.mem_filter.mp (hsub hf)).1⟩
          by_cases hfc : f ∈ (c :: cs).map Prod.fst
          · have hout : f ∉ (g :: gs).filter fun f => f ∉ (c :: cs).map Prod.fst := by
              intro hf'
              exact of_decide_eq_true (List.mem_filter.mp hf').2 hfc
            refine iff_of_false (fun hf' => hout (hsub hf')) ?_
            rw [installPending_notInstalled restores n _ hout, get_aside, not_and_or, not_not]
            exact .inl hfc
          · exact hsort f (List.mem_filter.mpr ⟨hf, by simpa using hfc⟩)

/-! ## One call -/

/-- The files that the filter of a call keeps. -/
def keptFiles (sys : System) (always : List String) (h : Host) (files : List Artifact) :
    List Artifact :=
  (filterPkgsToInstalled sys files.eraseDups (sys.allInstalled h.asked ++ always)).1

/-- The filter of a call drops a file. -/
def Drops (sys : System) (always : List String) (h : Host) (f : Artifact) : Prop :=
  keeps sys (sys.allInstalled h.asked ++ always) f = false

theorem mem_keptFiles : f ∈ keptFiles sys always h files ↔ f ∈ files ∧ ¬ Drops sys always h f := by
  rw [keptFiles, filterPkgsToInstalled, List.mem_filter, List.mem_eraseDups, Drops,
    Bool.not_eq_false]

/-- The host of a call after its filter. -/
def afterFilter (sys : System) (stateDir : Bool) (always : List String) (h : Host)
    (files : List Artifact) : Host :=
  (keepInstalled sys stateDir always h files.eraseDups).2

/-- A call is the retry loop on the files it keeps. -/
theorem installBuilt_eq (hne : files ≠ []) : installBuilt sys stateDir always h files =
    installPending sys stateDir (keptFiles sys always h files).length
      (afterFilter sys stateDir always h files) (keptFiles sys always h files) .empty := by
  have hdups : files.eraseDups ≠ [] := by
    cases files with
    | nil => exact absurd rfl hne
    | cons g gs =>
      rw [List.eraseDups_cons]
      exact List.cons_ne_nil _ _
  rw [installBuilt, if_neg hdups]
  rfl

theorem installBuilt_nil : installBuilt sys stateDir always h [] = ⟨h, [], .empty⟩ := rfl

/-- The transactions of a call: the first has the files the call keeps, a later one fewer than the
one before, there are no more of them than files, and no bound on the rounds ends the loop. -/
structure Attempts (sys : System) (stateDir : Bool) (always : List String) (h : Host)
    (files : List Artifact) : Prop where
  log : ∃ new, (installBuilt sys stateDir always h files).host.log = h.log ++ new ∧
    new.length ≤ (keptFiles sys always h files).length ∧ new.Pairwise Shrinks ∧
    ∀ t ∈ new.head?, t.files = keptFiles sys always h files
  ends : files ≠ [] → ∀ n, (keptFiles sys always h files).length ≤ n →
    installPending sys stateDir n (afterFilter sys stateDir always h files)
      (keptFiles sys always h files) .empty = installBuilt sys stateDir always h files

theorem attempts_installBuilt (sys : System) (stateDir : Bool) (always : List String) (h : Host)
    (files : List Artifact) : Attempts sys stateDir always h files := by
  have hretries := @retries_installPending sys stateDir (afterFilter sys stateDir always h files)
    (keptFiles sys always h files) .empty
  refine ⟨?_, fun hne n hn => (hretries.ends n hn).trans (installBuilt_eq hne).symm⟩
  by_cases hne : files = []
  · subst hne
    exact ⟨[], by rw [installBuilt_nil, List.append_nil], Nat.zero_le _, .nil, nofun⟩
  · obtain ⟨new, hnew, hnum, hpair, hsub, hhead⟩ := hretries.log
    refine ⟨new, by rw [installBuilt_eq hne, hnew]; rfl, hnum, hpair, fun t ht => ?_⟩
    by_cases hk : keptFiles sys always h files = []
    · rw [hk, List.length_nil, Nat.le_zero] at hnum
      rw [List.eq_nil_of_length_eq_zero hnum] at ht
      cases ht
    · obtain ⟨a, rest, rfl⟩ := hhead hk
      cases ht
      rfl

/-- A call sorts the files it is handed. -/
theorem installBuilt_sorts (hf : f ∈ files) :
    (f ∈ (installBuilt sys stateDir always h files).installed ↔ ¬ Drops sys always h f ∧
      (installBuilt sys stateDir always h files).notInstalled.get f = none) ∧
    (Drops sys always h f → (installBuilt sys stateDir always h files).notInstalled.get f = none) := by
  obtain ⟨hsort, hsub⟩ := @installPending_sorts sys stateDir _
    (afterFilter sys stateDir always h files) (keptFiles sys always h files) le_rfl .empty
    fun _ _ => rfl
  rw [installBuilt_eq (List.ne_nil_of_mem hf)]
  by_cases hd : Drops sys always h f
  · have hout : f ∉ keptFiles sys always h files := fun hk => (mem_keptFiles.mp hk).2 hd
    refine ⟨iff_of_false (fun hi => hout (hsub hi)) fun hk => hk.1 hd, fun _ => ?_⟩
    exact (installPending_notInstalled _ _ _ hout _).mpr rfl
  · rw [hsort f (mem_keptFiles.mpr ⟨hf, hd⟩)]
    exact ⟨⟨fun hn => ⟨hd, hn⟩, fun hn => hn.2⟩, fun hd' => absurd hd' hd⟩

/-- A call does nothing to other files. -/
theorem installBuilt_other (hf : f ∉ files) :
    f ∉ (installBuilt sys stateDir always h files).installed ∧
      (installBuilt sys stateDir always h files).notInstalled.get f = none := by
  by_cases hne : files = []
  · subst hne
    exact ⟨List.not_mem_nil, rfl⟩
  · have hout : f ∉ keptFiles sys always h files := fun hk => hf (mem_keptFiles.mp hk).1
    rw [installBuilt_eq hne]
    refine ⟨fun hi => hout ?_, (installPending_notInstalled _ _ _ hout _).mpr rfl⟩
    exact (@installPending_sorts sys stateDir _ (afterFilter sys stateDir always h files)
      (keptFiles sys always h files) le_rfl .empty fun _ _ => rfl).2 hi

/-! ## The calls of a run -/

/-- The package files of a target that is built, or was built before. -/
def Job.artifacts (j : Job) : List Artifact :=
  match j.outcome with
  | .built _ newPkgs none => newPkgs
  | .alreadyBuilt existing none => if j.target.forceRebuild then [] else existing
  | _ => []

/-- A call: made before the target at a position, or after the loop. -/
structure Call where
  before : Option ℕ
  host : Host
  files : List Artifact

section

variable (sys stateDir earlier)

/-- The calls that the build loop makes, the next target being at position `i`. -/
def loopCalls (intraDeps : String → List String) (requested : List String) :
    ℕ → List Job → Session → List Call
  | _, [], _ => []
  | i, j :: js, s =>
    if j.interrupted then []
    else
      let pending := pendingDeps intraDeps s j.target
      let calls := if pending = [] then [] else [⟨some i, s.host, pending⟩]
      let s := installDeps sys stateDir intraDeps requested s j.target
      match j.outcome with
      | .raised => calls
      | _ => calls ++ loopCalls intraDeps requested (i + 1) js (buildTarget sys earlier s j)

/-- The calls from a position of the build loop to the end of the run. -/
def callsFrom (intraDeps : String → List String) (requested : List String) (i : ℕ)
    (js : List Job) (s : Session) : List Call :=
  let loop := buildLoop sys stateDir earlier intraDeps requested js s
  loopCalls sys stateDir earlier intraDeps requested i js s ++
    if loop.2 then [⟨none, loop.1.host, remaining loop.1⟩] else []

/-- The targets that the review of the dependencies leaves. -/
def keptJobs (b : Batch) : List Job := b.jobs.filter fun j => refusalOf b.depRefused j = none

/-- The targets a target needs, among those that are left. -/
def keptDeps (b : Batch) (base : String) : List String :=
  (b.intraDeps base).filter (· ∈ (keptJobs b).map fun j => j.target.pkgbase)

/-- The run before its build loop. -/
def loopStart (b : Batch) (before : BuildState) : Session :=
  (b.jobs.filterMap fun j => (refusalOf b.depRefused j).map fun why => (j, why)).foldl
    (fun s p => recordReviewRefusal s p.1.target.pkgbase p.2 b.now)
    (buildResolvedDeps sys earlier b.deps { host := { state := before } }).1

/-- The calls of `install_built` that `build_and_install` makes. -/
def installCalls (b : Batch) (before : BuildState) : List Call :=
  if (buildResolvedDeps sys earlier b.deps { host := { state := before } }).2 ∧ keptJobs b ≠ [] then
    callsFrom sys stateDir earlier (keptDeps b) (declaredNames (keptJobs b)) 0 (keptJobs b)
      (loopStart sys earlier b before)
  else []

end

/-! ## One file in the build loop -/

section Loop

variable {intraDeps : String → List String} {s l : Session} {j : Job} {js done : List Job} {i : ℕ}

/-- What the run keeps about a file is the same. -/
structure Carried (f : Artifact) (s l : Session) : Prop where
  handled : f ∈ l.jitHandled ↔ f ∈ s.jitHandled
  installed : f ∈ l.jitFiles ↔ f ∈ s.jitFiles
  notInstalled : l.notInstalled.get f = s.notInstalled.get f

theorem Carried.trans {l' : Session} (h : Carried f s l) (h' : Carried f l l') : Carried f s l' :=
  ⟨h'.handled.trans h.handled, h'.installed.trans h.installed,
    h'.notInstalled.trans h.notInstalled⟩

/-- The run knows about a file what a call returned. -/
structure Settles (r : Installed) (f : Artifact) (l : Session) : Prop where
  handled : f ∈ l.jitHandled
  installed : f ∈ l.jitFiles ↔ f ∈ r.installed
  notInstalled : l.notInstalled.get f = r.notInstalled.get f

theorem Settles.carried {r : Installed} {l' : Session} (h : Settles r f l) (h' : Carried f l l') :
    Settles r f l' :=
  ⟨h'.handled.mpr h.handled, h'.installed.trans h.installed, h'.notInstalled.trans h.notInstalled⟩

/-- No call has been handed the file. -/
structure Untried (f : Artifact) (s : Session) : Prop where
  handled : f ∉ s.jitHandled
  installed : f ∉ s.jitFiles
  notInstalled : s.notInstalled.get f = none

theorem Untried.carried (h : Untried f s) (h' : Carried f s l) : Untried f l :=
  ⟨fun hf => h.handled (h'.handled.mp hf), fun hf => h.installed (h'.installed.mp hf),
    h'.notInstalled.trans h.notInstalled⟩

/-- The fields that the build of a target leaves alone, and the files it adds. -/
theorem buildTarget_fields (s : Session) (j : Job) :
    (buildTarget sys earlier s j).jitHandled = s.jitHandled ∧
    (buildTarget sys earlier s j).jitFiles = s.jitFiles ∧
    (buildTarget sys earlier s j).notInstalled = s.notInstalled ∧
    (buildTarget sys earlier s j).builtPkgFiles = s.builtPkgFiles ++ j.artifacts ∧
    ((buildTarget sys earlier s j).builtFilesByPkgbase = s.builtFilesByPkgbase ∧ j.artifacts = [] ∨
      (buildTarget sys earlier s j).builtFilesByPkgbase =
        s.builtFilesByPkgbase.set j.target.pkgbase j.artifacts) := by
  rw [buildTarget, Job.artifacts]
  cases j.outcome with
  | built records newPkgs skew =>
    cases skew with
    | none => exact ⟨rfl, rfl, rfl, rfl, .inr rfl⟩
    | some e => exact ⟨rfl, rfl, rfl, (List.append_nil _).symm, .inl ⟨rfl, rfl⟩⟩
  | pgoSkipped => exact ⟨rfl, rfl, rfl, (List.append_nil _).symm, .inl ⟨rfl, rfl⟩⟩
  | alreadyBuilt existing skew =>
    dsimp only
    split
    next hforce =>
      cases skew <;> exact ⟨rfl, rfl, rfl, (List.append_nil _).symm, .inl ⟨rfl, rfl⟩⟩
    next hforce =>
      cases skew with
      | some e => exact ⟨rfl, rfl, rfl, (List.append_nil _).symm, .inl ⟨rfl, rfl⟩⟩
      | none =>
        dsimp only
        split
        next hnil =>
          subst hnil
          exact ⟨rfl, rfl, rfl, (List.append_nil _).symm, .inl ⟨rfl, rfl⟩⟩
        · exact ⟨rfl, rfl, rfl, rfl, .inr rfl⟩
  | failed e => exact ⟨rfl, rfl, rfl, (List.append_nil _).symm, .inl ⟨rfl, rfl⟩⟩
  | raised => exact ⟨rfl, rfl, rfl, (List.append_nil _).symm, .inl ⟨rfl, rfl⟩⟩

theorem carried_buildTarget (s : Session) (j : Job) :
    Carried f s (buildTarget sys earlier s j) := by
  obtain ⟨hh, hi, hn, -⟩ := @buildTarget_fields sys earlier s j
  exact ⟨by rw [hh], by rw [hi], by rw [hn]⟩

theorem carried_installDeps {t : Target} (hf : f ∉ pendingDeps intraDeps s t) :
    Carried f s (installDeps sys stateDir intraDeps requested s t) := by
  rw [installDeps_eq]
  split
  · exact ⟨.rfl, .rfl, rfl⟩
  · obtain ⟨hi, hn⟩ := @installBuilt_other sys stateDir requested _ _ s.host hf
    refine ⟨?_, ?_, ?_⟩
    · exact List.mem_append.trans (or_iff_left hf)
    · exact List.mem_append.trans (or_iff_left hi)
    · exact (Dict.get_update ..).trans (by rw [hn, Option.none_or])

theorem settles_installDeps {t : Target} (hu : Untried f s)
    (hf : f ∈ pendingDeps intraDeps s t) :
    Settles (installBuilt sys stateDir requested s.host (pendingDeps intraDeps s t)) f
      (installDeps sys stateDir intraDeps requested s t) := by
  rw [installDeps_eq, if_neg (List.ne_nil_of_mem hf)]
  refine ⟨List.mem_append_right _ hf, List.mem_append.trans (or_iff_right hu.installed), ?_⟩
  exact (Dict.get_update ..).trans (by rw [hu.notInstalled, Option.or_none])

/-- One turn of the loop, and its calls. -/
theorem loop_cons (hi : j.interrupted = false) (ho : j.outcome ≠ .raised) :
    buildLoop sys stateDir earlier intraDeps requested (j :: js) s =
      buildLoop sys stateDir earlier intraDeps requested js
        (buildTarget sys earlier (installDeps sys stateDir intraDeps requested s j.target) j) ∧
    loopCalls sys stateDir earlier intraDeps requested i (j :: js) s =
      (if pendingDeps intraDeps s j.target = [] then []
        else [⟨some i, s.host, pendingDeps intraDeps s j.target⟩]) ++
      loopCalls sys stateDir earlier intraDeps requested (i + 1) js
        (buildTarget sys earlier (installDeps sys stateDir intraDeps requested s j.target) j) := by
  rw [buildLoop, loopCalls, hi]
  cases h : j.outcome with
  | raised => exact absurd h ho
  | built _ _ _ => exact ⟨rfl, rfl⟩
  | pgoSkipped => exact ⟨rfl, rfl⟩
  | alreadyBuilt _ _ => exact ⟨rfl, rfl⟩
  | failed _ => exact ⟨rfl, rfl⟩

/-- A loop that came to its end was not left at a target. -/
theorem of_loop_end (hend : (buildLoop sys stateDir earlier intraDeps requested (j :: js) s).2) :
    j.interrupted = false ∧ j.outcome ≠ .raised := by
  rw [buildLoop] at hend
  split at hend
  · cases hend
  next hi =>
    refine ⟨by simpa using hi, fun ho => ?_⟩
    rw [ho] at hend
    cases hend

theorem mem_pending_call {c : Call} {pending : List Artifact} (h : Host) :
    c ∈ (if pending = [] then [] else [(⟨some i, h, pending⟩ : Call)]) →
      c = ⟨some i, h, pending⟩ := by
  split
  · exact nofun
  · exact List.mem_singleton.mp

/-- A file that a call was handed is handed to no other call of the loop. -/
theorem loop_handled (hend : (buildLoop sys stateDir earlier intraDeps requested js s).2)
    (hf : f ∈ s.jitHandled) :
    (∀ c ∈ loopCalls sys stateDir earlier intraDeps requested i js s, f ∉ c.files) ∧
      Carried f s (buildLoop sys stateDir earlier intraDeps requested js s).1 := by
  induction js generalizing s i with
  | nil => exact ⟨nofun, ⟨.rfl, .rfl, rfl⟩⟩
  | cons j js ih =>
    obtain ⟨hi, ho⟩ := of_loop_end hend
    obtain ⟨hloop, hcalls⟩ :=
      @loop_cons sys stateDir earlier requested intraDeps s j js i hi ho
    rw [hloop] at hend ⊢
    rw [hcalls]
    have hout : f ∉ pendingDeps intraDeps s j.target := by
      intro hmem
      obtain ⟨dep, -, hmem⟩ := List.mem_flatMap.mp hmem
      exact of_decide_eq_true (List.mem_filter.mp hmem).2 hf
    have hcar : Carried f s
        (buildTarget sys earlier (installDeps sys stateDir intraDeps requested s j.target) j) :=
      (carried_installDeps hout).trans (carried_buildTarget _ _)
    obtain ⟨hnone, hrest⟩ := @ih _ (i + 1) hend (hcar.handled.mpr hf)
    refine ⟨fun c hc => ?_, hcar.trans hrest⟩
    rcases List.mem_append.mp hc with hc | hc
    · rw [mem_pending_call _ hc]
      exact hout
    · exact hnone c hc

/-- The targets that are behind the run, and their files. -/
structure Progress (done : List Job) (s : Session) : Prop where
  files : s.builtPkgFiles = done.flatMap Job.artifacts
  byBase : ∀ j ∈ done, (s.builtFilesByPkgbase.get j.target.pkgbase).getD [] = j.artifacts
  fresh : ∀ base, base ∉ done.map (fun j => j.target.pkgbase) →
    s.builtFilesByPkgbase.get base = none

theorem progress_installDeps {t : Target} (h : Progress done s) :
    Progress done (installDeps sys stateDir intraDeps requested s t) := by
  rw [installDeps_eq]
  split
  · exact h
  · exact ⟨h.files, h.byBase, h.fresh⟩

theorem progress_buildTarget (h : Progress done s)
    (hj : j.target.pkgbase ∉ done.map fun j => j.target.pkgbase) :
    Progress (done ++ [j]) (buildTarget sys earlier s j) := by
  obtain ⟨-, -, -, hfiles, hbase⟩ := @buildTarget_fields sys earlier s j
  have hget : ∀ base, base ≠ j.target.pkgbase →
      (buildTarget sys earlier s j).builtFilesByPkgbase.get base =
        s.builtFilesByPkgbase.get base := by
    intro base hne
    rcases hbase with ⟨he, -⟩ | he
    · rw [he]
    · rw [he, Dict.get_set, if_neg hne]
  refine ⟨?_, fun k hk => ?_, fun base hb => ?_⟩
  · rw [hfiles, h.files, List.flatMap_append, List.flatMap_singleton]
  · rcases List.mem_append.mp hk with hk | hk
    · rw [hget _ fun he => hj (he ▸ List.mem_map_of_mem hk)]
      exact h.byBase k hk
    · obtain rfl := List.mem_singleton.mp hk
      rcases hbase with ⟨he, hnil⟩ | he
      · rw [he, h.fresh _ hj, hnil]
        rfl
      · rw [he, Dict.get_set, if_pos rfl]
        rfl
  · rw [List.map_append, List.mem_append, not_or] at hb
    rw [hget base fun he => hb.2 (by simp [he])]
    exact h.fresh base hb.1

/-- A target needs a file: it depends on a target before it that has the file. -/
def Needs (intraDeps : String → List String) (jobs : List Job) (f : Artifact) (i : ℕ) : Prop :=
  ∃ j, jobs[i]? = some j ∧ ∃ k ∈ jobs.take i,
    k.target.pkgbase ∈ intraDeps j.target.pkgbase ∧ f ∈ k.artifacts

theorem needs_append : Needs intraDeps (done ++ j :: js) f done.length ↔
    ∃ k ∈ done, k.target.pkgbase ∈ intraDeps j.target.pkgbase ∧ f ∈ k.artifacts := by
  rw [Needs, List.take_left]
  have hget : (done ++ j :: js)[done.length]? = some j := by simp
  simp only [hget, Option.some.injEq, exists_eq_left']

/-- What is installed before a target are the files it needs that no call was handed. -/
theorem mem_pendingDeps (h : Progress done s) : f ∈ pendingDeps intraDeps s j.target ↔
    Needs intraDeps (done ++ j :: js) f done.length ∧ f ∉ s.jitHandled := by
  rw [needs_append]
  constructor
  · intro hmem
    obtain ⟨dep, hdep, hmem⟩ := List.mem_flatMap.mp hmem
    obtain ⟨hget, hnot⟩ := List.mem_filter.mp hmem
    rw [List.mem_filter, List.mem_insertionSort, List.mem_dedup] at hdep
    dsimp only at hget
    by_cases hd : dep ∈ done.map fun j => j.target.pkgbase
    · obtain ⟨k, hk, rfl⟩ := List.mem_map.mp hd
      rw [h.byBase k hk] at hget
      exact ⟨⟨k, hk, hdep.1, hget⟩, of_decide_eq_true hnot⟩
    · rw [h.fresh dep hd] at hget
      exact absurd hget List.not_mem_nil
  · rintro ⟨⟨k, hk, hdep, hfile⟩, hnot⟩
    have hin : f ∈ (s.builtFilesByPkgbase.get k.target.pkgbase).getD [] := by
      rw [h.byBase k hk]
      exact hfile
    refine List.mem_flatMap.mpr ⟨k.target.pkgbase, ?_, List.mem_filter.mpr ⟨hin, by simpa⟩⟩
    rw [List.mem_filter, List.mem_insertionSort, List.mem_dedup, List.any_eq_true]
    exact ⟨hdep, f, hin, by simpa⟩

/-- When a call hands a file over: before the first target from position `i` on that needs it, or
after the loop when there is none. -/
def Due (intraDeps : String → List String) (jobs : List Job) (f : Artifact) (i : ℕ)
    (before : Option ℕ) : Prop :=
  match before with
  | some m => i ≤ m ∧ Needs intraDeps jobs f m ∧ ∀ k, i ≤ k → k < m → ¬ Needs intraDeps jobs f k
  | none => ∀ k, i ≤ k → ¬ Needs intraDeps jobs f k

theorem progress_next (hp : Progress done s)
    (hnd : ((done ++ j :: js).map fun j => j.target.pkgbase).Nodup) :
    Progress (done ++ [j])
      (buildTarget sys earlier (installDeps sys stateDir intraDeps requested s j.target) j) := by
  refine progress_buildTarget (progress_installDeps hp) fun hmem => ?_
  rw [List.map_append, List.nodup_append] at hnd
  exact hnd.2.2 _ hmem _ List.mem_cons_self rfl

theorem progress_loop (hend : (buildLoop sys stateDir earlier intraDeps requested js s).2)
    (hp : Progress done s) (hnd : ((done ++ js).map fun j => j.target.pkgbase).Nodup) :
    Progress (done ++ js) (buildLoop sys stateDir earlier intraDeps requested js s).1 := by
  induction js generalizing s done with
  | nil =>
    rw [List.append_nil]
    exact hp
  | cons j js ih =>
    obtain ⟨hi, ho⟩ := of_loop_end hend
    rw [(@loop_cons sys stateDir earlier requested intraDeps s j js 0 hi ho).1] at hend ⊢
    have hp' := @progress_next sys stateDir earlier requested intraDeps s j js done hp hnd
    rw [List.append_cons] at hnd ⊢
    exact ih hend hp' hnd

/-- A loop hands an untried file to one call, or to none when no target needs it. -/
theorem loop_once (hend : (buildLoop sys stateDir earlier intraDeps requested js s).2)
    (hp : Progress done s) (hnd : ((done ++ js).map fun j => j.target.pkgbase).Nodup)
    (hu : Untried f s) :
    (∃ c, (loopCalls sys stateDir earlier intraDeps requested done.length js s).filter
        (fun c => f ∈ c.files) = [c] ∧ f ∈ c.files ∧
        (∃ m, c.before = some m ∧ Due intraDeps (done ++ js) f done.length (some m)) ∧
        Settles (installBuilt sys stateDir requested c.host c.files) f
          (buildLoop sys stateDir earlier intraDeps requested js s).1) ∨
      (∀ c ∈ loopCalls sys stateDir earlier intraDeps requested done.length js s, f ∉ c.files) ∧
        Due intraDeps (done ++ js) f done.length none ∧
        Untried f (buildLoop sys stateDir earlier intraDeps requested js s).1 := by
  induction js generalizing s done with
  | nil =>
    refine .inr ⟨nofun, fun k hk => ?_, hu⟩
    rintro ⟨j, hj, -⟩
    rw [List.append_nil, List.getElem?_eq_none hk] at hj
    cases hj
  | cons j js ih =>
    obtain ⟨hi, ho⟩ := of_loop_end hend
    obtain ⟨hloop, hcalls⟩ :=
      @loop_cons sys stateDir earlier requested intraDeps s j js done.length hi ho
    rw [hloop] at hend ⊢
    rw [hcalls]
    have hneed := @mem_pendingDeps f intraDeps s j js done hp
    by_cases hf : f ∈ pendingDeps intraDeps s j.target
    · -- the file is handed over here, and the rest of the loop does not get it again
      have hset : Settles
          (installBuilt sys stateDir requested s.host (pendingDeps intraDeps s j.target)) f
          (buildTarget sys earlier (installDeps sys stateDir intraDeps requested s j.target) j) :=
        (settles_installDeps hu hf).carried (carried_buildTarget _ _)
      obtain ⟨hnone, hcar⟩ := @loop_handled _ _ _ _ _ _ _ _ (done.length + 1) hend hset.handled
      refine .inl ⟨⟨some done.length, s.host, pendingDeps intraDeps s j.target⟩, ?_, hf,
        ⟨done.length, rfl, le_rfl, (hneed.mp hf).1, fun k hk hk' => ?_⟩, hset.carried hcar⟩
      · have hrest : (loopCalls sys stateDir earlier intraDeps requested (done.length + 1) js
            (buildTarget sys earlier (installDeps sys stateDir intraDeps requested s j.target)
              j)).filter (fun c => f ∈ c.files) = [] :=
          List.filter_eq_nil_iff.mpr fun c hc => by simpa using hnone c hc
        rw [if_neg (List.ne_nil_of_mem hf), List.filter_append, hrest]
        simp [hf]
      · exact absurd hk (Nat.not_le_of_lt hk')
    · have hcar : Carried f s
          (buildTarget sys earlier (installDeps sys stateDir intraDeps requested s j.target) j) :=
        (carried_installDeps hf).trans (carried_buildTarget _ _)
      have hno : ¬ Needs intraDeps (done ++ j :: js) f done.length :=
        fun hn => hf (hneed.mpr ⟨hn, hu.handled⟩)
      have hlater : ∀ k, done.length ≤ k → k ≠ done.length → (done ++ [j]).length ≤ k := by
        intro k hk hne
        rw [List.length_append, List.length_singleton]
        omega
      have hp' := @progress_next sys stateDir earlier requested intraDeps s j js done hp hnd
      rw [List.append_cons] at hnd
      have hnext := ih hend hp' hnd (hu.carried hcar)
      rw [← List.append_cons, List.length_append, List.length_singleton] at hnext
      have hcalls' : ∀ c ∈ (if pendingDeps intraDeps s j.target = [] then []
          else [(⟨some done.length, s.host, pendingDeps intraDeps s j.target⟩ : Call)]),
          f ∉ c.files := by
        intro c hc
        rw [mem_pending_call _ hc]
        exact hf
      rcases hnext with ⟨c, hfilter, hmem, ⟨m, hbefore, hm, hneeds, hfirst⟩, hset⟩ | ⟨hnone, hdue, hu'⟩
      · refine .inl ⟨c, ?_, hmem, ⟨m, hbefore, Nat.le_of_succ_le hm, hneeds, fun k hk hkm => ?_⟩,
          hset⟩
        · rw [List.filter_append, hfilter,
            List.filter_eq_nil_iff.mpr fun c hc => by simpa using hcalls' c hc, List.nil_append]
        · by_cases hk' : k = done.length
          · exact hk' ▸ hno
          · exact hfirst k (by simpa using hlater k hk hk') hkm
      · refine .inr ⟨fun c hc => ?_, fun k hk => ?_, hu'⟩
        · exact (List.mem_append.mp hc).elim (hcalls' c) (hnone c)
        · by_cases hk' : k = done.length
          · exact hk' ▸ hno
          · exact hdue k (by simpa using hlater k hk hk')

end Loop

end Sysforge.Install
