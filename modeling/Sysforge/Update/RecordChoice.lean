import Sysforge.Update.SetOrder

/-!
# Which record an update reads

The decisions of an update are the same for every order of the package set exactly when the packages
of each pkgbase agree (`orderFree_forall_iff`): every disagreement shows on some host. With
`--devel`, the version check skips `pkgver()` when upstream is at the recorded commit;
`shortcutSound_iff` says when that is right. `update_decisions` is the two together.
-/

namespace Sysforge.SetOrder

open BuildState OptOut Assemble VersionCheck ToolchainDrift

variable {s : Scope} {w : World} {pkgbase : String} {l names : List String} {n i j : String}

/-! ## Two orders -/

theorem exists_perm_cons (hi : i ∈ names) (hj : j ∈ names) :
    ∃ rest, (i :: rest).Perm names ∧ ∀ (f : String → Option String) v,
      (f i).or (f j) = some v → (i :: rest).findSome? f = some v := by
  by_cases hij : j = i
  · subst hij
    refine ⟨names.erase j, (List.perm_cons_erase hj).symm, fun f v hv => ?_⟩
    rw [Option.or_self] at hv
    rw [List.findSome?_cons, hv]
  · have hj' : j ∈ names.erase i := (List.mem_erase_of_ne hij).mpr hj
    refine ⟨j :: (names.erase i).erase j, ?_, fun f v hv => ?_⟩
    · exact (((List.perm_cons_erase hj').symm).cons i).trans (List.perm_cons_erase hi).symm
    · rw [List.findSome?_cons, List.findSome?_cons]
      cases hfi : f i with
      | some a => rw [← hv, hfi, Option.some_or]
      | none =>
        rw [hfi, Option.none_or] at hv
        rw [hv]

theorem installed_of_mem (hn : n ∈ members s (targets s) pkgbase) :
    (s.env.installed.get n).isSome = true := by
  have hkey : n ∈ s.env.installed.keys :=
    (List.mem_filter.mp (List.mem_filter.mp (mem_members.mp hn).1).1).1
  cases hget : s.env.installed.get n with
  | some v => rfl
  | none => exact absurd hkey (Dict.get_eq_none.mp hget)

/-- The results of the check without the packages. -/
def verdictOf (check : Except Crash (Option UpdateResult)) : Except Crash (Option Verdict) :=
  check.map fun r => r.map UpdateResult.toVerdict

theorem verdictOf_check (p : Package) : verdictOf (decisionFor s w pkgbase l p).check =
    verdict w.host s.env.installed pkgbase l p
      (if w.host.forceDevel then builtCommit s l else none) := by
  rw [decisionFor, checkOnePkgbase]
  dsimp only
  cases verdict w.host s.env.installed pkgbase l p
      (if w.host.forceDevel then builtCommit s l else none) with
  | error e => rfl
  | ok r => cases r <;> rfl

/-- Two orders of the packages, read off their first ones. -/
theorem OrderFree.decisionFor_eq (h : OrderFree s w) {rest rest' : List String}
    (hi : (i :: rest).Perm (members s (targets s) pkgbase))
    (hj : (j :: rest').Perm (members s (targets s) pkgbase)) :
    decisionFor s w pkgbase (i :: rest) (entryOf s i) =
      decisionFor s w pkgbase (j :: rest') (entryOf s j) :=
  Option.some.inj (orderFree_iff_members.mp h pkgbase _ _ hi hj)

theorem OrderFree.verdict_eq (h : OrderFree s w) {rest rest' : List String}
    (hi : (i :: rest).Perm (members s (targets s) pkgbase))
    (hj : (j :: rest').Perm (members s (targets s) pkgbase)) :
    verdict w.host s.env.installed pkgbase (i :: rest) (entryOf s i)
        (if w.host.forceDevel then builtCommit s (i :: rest) else none) =
      verdict w.host s.env.installed pkgbase (j :: rest') (entryOf s j)
        (if w.host.forceDevel then builtCommit s (j :: rest') else none) := by
  rw [← verdictOf_check, ← verdictOf_check, h.decisionFor_eq hi hj]

theorem perm_cons_erase_members (hi : i ∈ members s (targets s) pkgbase) :
    (i :: (members s (targets s) pkgbase).erase i).Perm (members s (targets s) pkgbase) :=
  (List.perm_cons_erase hi).symm

/-- The source, its class and the PKGBUILD directory are those of every package. -/
theorem OrderFree.entry_eq (h : OrderFree s w) (hi : i ∈ members s (targets s) pkgbase)
    (hj : j ∈ members s (targets s) pkgbase) :
    (entryOf s i).entry.source = (entryOf s j).entry.source ∧
      (entryOf s i).repoClass = (entryOf s j).repoClass ∧
      (entryOf s i).entry.pkgbuildDir = (entryOf s j).entry.pkgbuildDir := by
  have heq := h.decisionFor_eq (perm_cons_erase_members hi) (perm_cons_erase_members hj)
  exact ⟨congrArg Decision.source heq, congrArg Decision.repoClass heq,
    congrArg Decision.pkgbuildDir heq⟩

/-- Two newest versions that differ in their text show. -/
theorem OrderFree.oneListed (h : OrderFree s w) (pkgbase : String) :
    OneListed s w (members s (targets s) pkgbase) := by
  intro updates hu k hk hc a ha b hb hmax hmax'
  obtain ⟨i, hi, hia⟩ := List.mem_filterMap.mp ha
  obtain ⟨j, hj, hjb⟩ := List.mem_filterMap.mp hb
  have hclass : ∀ n ∈ members s (targets s) pkgbase, (entryOf s n).repoClass = some "pacman" :=
    fun n hn => (h.entry_eq hn hk).2.1.trans hc
  have hnew : ∀ n ∈ members s (targets s) pkgbase, ∀ ver, updates.get n = some ver →
      (∀ x ∈ (members s (targets s) pkgbase).filterMap updates.get, w.host.vercmp.cmp x ver ≤ 0) →
      ∃ old, verdict w.host s.env.installed pkgbase
        (n :: (members s (targets s) pkgbase).erase n) (entryOf s n)
        (if w.host.forceDevel then builtCommit s (n :: (members s (targets s) pkgbase).erase n)
          else none) = .ok (some { action := .needsPacmanUpgrade, installedVer := some old,
                                   pkgbuildVer := some ver }) := by
    intro n hn ver hver hmax
    obtain ⟨old, hold⟩ := Option.isSome_iff_exists.mp (oldestInstalledVer_isSome
      (v := w.host.vercmp) (List.mem_cons_self (l := (members s (targets s) pkgbase).erase n))
      (installed_of_mem hn))
    have hnewest : newestVer w.host.vercmp
        ((n :: (members s (targets s) pkgbase).erase n).filterMap updates.get) = some ver := by
      rw [List.filterMap_cons_some hver]
      refine newestVer_of_max fun x hx => hmax x ?_
      obtain ⟨m, hm, hmx⟩ := List.mem_filterMap.mp hx
      exact List.mem_filterMap.mpr ⟨m, List.mem_of_mem_erase hm, hmx⟩
    refine ⟨old, ?_⟩
    rw [verdict, prepare, if_pos (hclass n hn)]
    dsimp only
    rw [pacmanVerdict, hold, Option.map_some, hu]
    dsimp only
    rw [hnewest]
  obtain ⟨old, hold⟩ := hnew i hi a hia hmax
  obtain ⟨old', hold'⟩ := hnew j hj b hjb hmax'
  have heq := h.verdict_eq (perm_cons_erase_members hi) (perm_cons_erase_members hj)
  rw [hold, hold'] at heq
  injection heq with heq
  injection heq with heq
  injection heq with _ _ hver
  exact Option.some.inj hver

/-! ## A host on which every difference shows -/

/-- A host with one PKGBUILD everywhere, on which every version compares equal and no `pkgver()`
gets to its end; the last build produced the given packages. -/
def quiet (g : Globals) (rpcVersion : Dict String String) (produced : List String) : Host where
  vercmp := ⟨fun _ _ => 0, fun _ _ => Iff.rfl, fun _ _ _ _ _ => le_rfl⟩
  forceDevel := true
  skipSyncCheck := true
  syncFailures := .empty
  rpcVersion := rpcVersion
  pacmanUpdates := none
  isDir _ := true
  pkgbuild _ := some ""
  patched _ := some "patched"
  parse text := some (if text = "" then g else { pkgname := some produced })
  frozen _ := false
  lsRemote _ _ := none
  alnum _ := false
  sourceCommit _ := ""
  pkgverAt _ _ := ""
  resolves _ := false

section

variable {g : Globals} {rpc : Dict String String} {produced : List String} {p : Package}
  {installed : Dict String String} {dir ver inst : String}

theorem prepare_quiet (hc : p.repoClass ≠ some "pacman") (hd : p.entry.pkgbuildDir = some dir) :
    (resolvedVer (quiet g rpc produced) pkgbase p.entry g = none →
      prepare (quiet g rpc produced) installed pkgbase l p = .done (.ok none)) ∧
    ∀ ver inst, resolvedVer (quiet g rpc produced) pkgbase p.entry g = some ver →
      comparedVer (quiet g rpc produced) installed l dir = some inst →
        prepare (quiet g rpc produced) installed pkgbase l p = .compare ⟨dir, "", g, ver, inst⟩ :=
  prepare_of_parse hc rfl hd rfl rfl rfl rfl

theorem comparedVer_quiet {m : String} (hl : l.Nodup) (hm : m ∈ l)
    (hget : installed.get m = some ver) :
    comparedVer (quiet g rpc [m]) installed l dir = some ver := by
  rw [comparedVer]
  by_cases hlen : 1 < (installedVers installed l).dedup.length
  · have hfilter : l.filter (fun n => n ∈ [m]) = [m] := by
      have heq : l.filter (fun n => n ∈ [m]) = l.filter (· == m) :=
        List.filter_congr fun n _ => by simp only [List.mem_singleton, beq_eq_decide]
      rw [heq, List.filter_beq, List.count_eq_one_of_mem hl hm, List.replicate_one]
    have hproduced : producedPkgnames (quiet g rpc [m]) dir l = [m] := by
      have hne : l.filter (fun n => n ∈ [m]) ≠ [] := fun he => by
        rw [hfilter] at he
        cases he
      exact (if_neg hne).trans hfilter
    rw [if_pos hlen, hproduced, oldestInstalledVer, installedVers, List.insertionSort_cons,
      List.insertionSort_nil, List.orderedInsert_nil, List.filterMap_cons_some hget]
    rfl
  · rw [if_neg hlen]
    obtain ⟨x, hx⟩ := Option.isSome_iff_exists.mp (oldestInstalledVer_isSome
      (v := (quiet g rpc [m]).vercmp) hm (by rw [hget]; rfl))
    obtain ⟨n, hn, hgetn⟩ := oldestInstalledVer_eq_some hx
    have hxmem := List.mem_dedup.mpr (List.mem_filterMap.mpr ⟨n, hn, hgetn⟩)
    have hvmem := List.mem_dedup.mpr (List.mem_filterMap.mpr ⟨m, hm, hget⟩)
    rw [installedVers] at hlen
    rw [hx]
    cases hd : (l.filterMap installed.get).dedup with
    | nil =>
      rw [hd] at hxmem
      cases hxmem
    | cons a t =>
      rw [hd, List.length_cons] at hlen
      have ht : t = [] := List.length_eq_zero_iff.mp (by omega)
      rw [hd, ht, List.mem_singleton] at hxmem hvmem
      rw [hxmem, hvmem]

/-- The PKGBUILD has a version, whatever the entry. -/
theorem resolvedVer_quiet (hrpc : truthy (rpc.get pkgbase) = some ver) (e : Entry) :
    ∃ v, resolvedVer (quiet g rpc produced) pkgbase e g = some v := by
  rw [resolvedVer]
  by_cases hu : unresolvedExpansion (formatVersion g) = true
  · rw [if_pos hu]
    exact ⟨ver, by rw [show (quiet g rpc produced).rpcVersion = rpc from rfl, hrpc, Option.some_or]⟩
  · rw [if_neg hu]
    exact ⟨_, rfl⟩

end

/-! ## What the packages of a pkgbase have to agree on -/

section

variable (h : ∀ w, (∀ pkgbase, OneListed s w (members s (targets s) pkgbase)) → OrderFree s w)

include h

theorem orderFree_quiet (g : Globals) (rpc : Dict String String) (produced : List String)
    (t : Toolchain) : OrderFree s ⟨quiet g rpc produced, t⟩ :=
  h _ fun _ updates hu => (Option.some_ne_none updates hu.symm).elim

theorem origin_eq_of_some {o : String} (hi : i ∈ members s (targets s) pkgbase)
    (hj : j ∈ members s (targets s) pkgbase) (hc : (entryOf s i).repoClass ≠ some "pacman")
    (hd : (entryOf s i).entry.pkgbuildDir ≠ none)
    (ho : otherOrigin pkgbase (entryOf s i).entry = some o) :
    otherOrigin pkgbase (entryOf s j).entry = some o := by
  by_contra hne
  obtain ⟨dir, hdir⟩ := Option.ne_none_iff_exists'.mp hd
  obtain ⟨ver, hver⟩ := Option.isSome_iff_exists.mp (installed_of_mem hi)
  obtain ⟨horigin, hob⟩ := Option.filter_eq_some_iff.mp ho
  have hob : o ≠ pkgbase := of_decide_eq_true hob
  have hfree := orderFree_quiet h { pkgver := "$" } (Dict.empty.set o "1") [i]
    { activeVariant := "system" }
  obtain ⟨-, hclass, hdirs⟩ := hfree.entry_eq hi hj
  have hcj : (entryOf s j).repoClass ≠ some "pacman" := hclass ▸ hc
  have hdj : (entryOf s j).entry.pkgbuildDir = some dir := hdirs.symm.trans hdir
  have hrpc : ∀ o', truthy ((Dict.empty.set o "1" : Dict String String).get o') =
      if o' = o then some "1" else none := by
    intro o'
    rw [Dict.get_set]
    by_cases heq : o' = o
    · rw [if_pos heq, if_pos heq]
      decide
    · rw [if_neg heq, if_neg heq]
      rfl
  have hres : ∀ e : Entry, resolvedVer (quiet { pkgver := "$" } (Dict.empty.set o "1") [i]) pkgbase
      e { pkgver := "$" } = (truthy e.originPkgbase).bind fun o' =>
        if o' = o then some "1" else none := by
    intro e
    rw [resolvedVer, if_pos (by decide)]
    simp only [quiet, hrpc]
    rw [if_neg (Ne.symm hob), Option.none_or]
  have heq := hfree.verdict_eq (perm_cons_erase_members hi) (perm_cons_erase_members hj)
  have hmem : i ∈ i :: (members s (targets s) pkgbase).erase i := List.mem_cons_self
  have hnodup : (members s (targets s) pkgbase).Nodup := nodup_targets.filter _
  have hres_i : resolvedVer (quiet { pkgver := "$" } (Dict.empty.set o "1") [i]) pkgbase
      (entryOf s i).entry { pkgver := "$" } = some "1" := by
    rw [hres, horigin, Option.bind_some, if_pos rfl]
  have hres_j : resolvedVer (quiet { pkgver := "$" } (Dict.empty.set o "1") [i]) pkgbase
      (entryOf s j).entry { pkgver := "$" } = none := by
    rw [hres]
    cases hoj : truthy (entryOf s j).entry.originPkgbase with
    | none => rfl
    | some o' =>
      rw [Option.bind_some, if_neg]
      rintro rfl
      exact hne (Option.filter_eq_some_iff.mpr ⟨hoj, decide_eq_true hob⟩)
  rw [verdict, verdict, (prepare_quiet hcj hdj).1 hres_j, (prepare_quiet hc hdir).2 "1" ver hres_i
    (comparedVer_quiet ((perm_cons_erase_members hi).nodup_iff.mpr hnodup) hmem hver)] at heq
  injection heq with heq
  cases heq

theorem stamp_eq {a b : Stamp} (hi : i ∈ members s (targets s) pkgbase)
    (hj : j ∈ members s (targets s) pkgbase) (ha : stampOf s i = some a)
    (hb : stampOf s j = some b) : a = b := by
  have hrecord : ∀ {n c}, stampOf s n = some c → ∃ e v, stamp e v = c ∧
      ∀ rest, stampedRecord s.bs (n :: rest) = some (e, v) := by
    intro n c hc
    obtain ⟨e, he, hc⟩ := Option.bind_eq_some_iff.mp hc
    obtain ⟨v, hv, rfl⟩ := Option.map_eq_some_iff.mp hc
    refine ⟨e, v, rfl, fun rest => ?_⟩
    rw [stampedRecord, List.findSome?_cons, he, Option.bind_some, hv, Option.map_some]
  obtain ⟨e, v, rfl, he⟩ := hrecord ha
  obtain ⟨e', v', rfl, he'⟩ := hrecord hb
  refine judgedAlike_iff.mp fun t ht => ?_
  have hdrift := congrArg Decision.drift ((orderFree_quiet h {} .empty [] t).decisionFor_eq
    (perm_cons_erase_members hi) (perm_cons_erase_members hj))
  rw [decisionFor, decisionFor, toolchainDrift, toolchainDrift, if_neg ht, if_neg ht, he, he',
    Option.bind_some, Option.bind_some] at hdrift
  exact hdrift

end

/-! ### The recorded build -/

theorem isSha1_mem {t : Text} {ch : Char} (h : isSha1 t = true) (hch : ch ∈ t) :
    ch ≠ ':' ∧ ch ≠ '&' ∧ ch ≠ '$' := by
  have hhex : ∀ t : Text,
      (t.all fun c => c.isDigit || decide ('a' ≤ c) && decide (c ≤ 'f')) = true → ∀ c ∈ t, c ≠ ':' ∧ c ≠ '&' ∧ c ≠ '$' := by
    intro t ht c hc
    have hcd := List.all_eq_true.mp ht c hc
    refine ⟨?_, ?_, ?_⟩ <;> rintro rfl <;> exact absurd hcd (by decide)
  rw [isSha1] at h
  by_cases hnl : t.getLast? = some '\n'
  · simp only [if_pos hnl, Bool.and_eq_true] at h
    have ht := List.dropLast_append_getLast? _ hnl
    rw [← ht, List.mem_append] at hch
    rcases hch with hch | hch
    · exact hhex _ h.2 ch hch
    · rw [List.mem_singleton.mp hch]
      decide
  · simp only [if_neg hnl, Bool.and_eq_true] at h
    exact hhex _ h.2 ch hch

/-- The globals of a PKGBUILD whose one source is pinned to a commit. -/
def pinned (pkgrel epoch sha : String) : Globals where
  pkgrel := some pkgrel
  epoch := some epoch
  source := ["git+x#commit=" ++ sha]

theorem gitSource_pinned {sha : String} (hs : isSha1 sha.toList = true) :
    gitSource ("git+x#commit=" ++ sha).toList =
      some ⟨['x'], ['x'], "commit=".toList ++ sha.toList⟩ := by
  have hcolon : ':' ∉ ("git+x#commit=" ++ sha).toList := by
    rw [String.toList_append, List.mem_append]
    rintro (h | h)
    · exact absurd h (by decide)
    · exact (isSha1_mem hs h).1 rfl
  have hpart : partition "::".toList ("git+x#commit=" ++ sha).toList =
      (("git+x#commit=" ++ sha).toList, none) := by
    have hfind : Text.find "::".toList ("git+x#commit=" ++ sha).toList = none := by
      cases hf : Text.find "::".toList ("git+x#commit=" ++ sha).toList with
      | none => rfl
      | some k =>
        have hc : Text.contains (':' :: [':']) ("git+x#commit=" ++ sha).toList = true := by
          rw [Text.contains, show ':' :: [':'] = "::".toList from rfl, hf, Option.isSome_some]
        rw [Text.contains_iff, Text.occurrences_of_notMem hcolon] at hc
        exact absurd hc (lt_irrefl 0)
    rw [partition, hfind]
  rw [gitSource, hpart]
  dsimp only
  rw [Option.getD_none, String.toList_append]
  rfl

theorem unresolvedVar_of_notMem {alnum : Char → Bool} {t : Text} (h : '$' ∉ t) :
    unresolvedVar alnum t = false := by
  induction t with
  | nil => rfl
  | cons c t ih =>
    rw [List.mem_cons, not_or] at h
    rw [unresolvedVar, ih h.2, decide_eq_false (Ne.symm h.1), Bool.false_and, Bool.or_false]

theorem split_of_notMem {sep : Char} {t : Text} (h : sep ∉ t) : Text.split sep t = [t] := by
  induction t with
  | nil => rfl
  | cons c t ih =>
    rw [List.mem_cons, not_or] at h
    rw [Text.split, if_neg (Ne.symm h.1), ih h.2]

theorem peek_pinned {pkgrel epoch sha dir : String} (hs : isSha1 sha.toList = true) {rpc produced} :
    peekUpstreamCommit (quiet (pinned pkgrel epoch sha) rpc produced) pkgbase dir = some sha := by
  have hmem : ∀ c, c ∈ "commit=".toList ++ sha.toList → c ≠ '&' ∧ c ≠ '$' := by
    intro c hc
    rcases List.mem_append.mp hc with hc | hc
    · refine ⟨?_, ?_⟩ <;> rintro rfl <;> exact absurd hc (by decide)
    · exact (isSha1_mem hs hc).2
  have hsrc : singleGitSource (fun _ => false) (pinned pkgrel epoch sha) =
      some ⟨['x'], ['x'], "commit=".toList ++ sha.toList⟩ := by
    rw [singleGitSource, pinned]
    simp only [List.filterMap_cons, List.filterMap_nil, gitSource_pinned hs]
    rw [if_neg]
    simp only [List.any_cons, List.any_nil, unresolvedVar_of_notMem fun h => (hmem _ h).2 rfl]
    decide
  have hsplit : Text.split '&' ("commit=".toList ++ sha.toList) =
      ["commit=".toList ++ sha.toList] := split_of_notMem fun h => (hmem _ h).1 rfl
  have href : fragmentRef ["commit=".toList ++ sha.toList] = .inl sha.toList := by
    have hpart : partition "=".toList ("commit=".toList ++ sha.toList) =
        ("commit".toList, some sha.toList) := rfl
    unfold fragmentRef
    rw [hpart]
    exact (if_pos (Eq.refl "commit".toList)).trans (if_pos hs)
  have hne : "commit=".toList ++ sha.toList ≠ [] :=
    List.append_ne_nil_of_left_ne_nil (by decide) _
  have hpeek : peekUpstreamCommit (quiet (pinned pkgrel epoch sha) rpc produced) pkgbase dir =
      (singleGitSource (fun _ => false) (pinned pkgrel epoch sha)).bind fun src =>
        refCommit (quiet (pinned pkgrel epoch sha) rpc produced) src.url
          (if src.fragment = [] then .inr "HEAD".toList
            else fragmentRef (Text.split '&' src.fragment)) := rfl
  rw [hpeek, hsrc, Option.bind_some, if_neg hne, hsplit, href]
  exact congrArg some String.ofList_toList

theorem revision_idem (pkgrel epoch : Option String) :
    revision (some (revision pkgrel epoch).1) (some (revision pkgrel epoch).2) =
      revision pkgrel epoch := by
  have hne : (truthy epoch).getD "0" ≠ "" := by
    cases h : truthy epoch with
    | none => exact (by decide : "0" ≠ "")
    | some e => exact (truthy_eq_some.mp h).2
  dsimp only [revision]
  rw [truthy_eq_some.mpr ⟨rfl, hne⟩, Option.getD_some, Option.getD_some]

/-- Without an evaluation, only the short-circuit finds a VCS package up to date. -/
theorem compare_quiet {g : Globals} {rpc : Dict String String} {produced : List String}
    {p : Package} {commit : Option String} {c : Checked} (hv : isVcsPkgbase pkgbase = true) :
    (VersionCheck.compare (quiet g rpc produced) pkgbase p commit c).action = .upToDate ↔
      upstreamUnmoved (quiet g rpc produced) pkgbase p commit c = true := by
  rw [VersionCheck.compare, if_pos hv]
  by_cases hu : upstreamUnmoved (quiet g rpc produced) pkgbase p commit c = true
  · rw [if_pos hu]
    exact ⟨fun _ => hu, fun _ => rfl⟩
  · rw [if_neg hu]
    exact ⟨fun h => (by cases h), fun h => absurd h hu⟩

/-- A host whose one PKGBUILD has the revision that the entry of a package records, and is pinned
to the given commit; the last build produced the package `m`. -/
def pinnedHost (s : Scope) (pkgbase i m sha : String) : Host :=
  quiet (pinned (buildOf s i).2.1 (buildOf s i).2.2 sha) (Dict.empty.set pkgbase "1") [m]

theorem verdict_pinned {p : Package} {m sha dir inst : String} (commit : Option String)
    (hl : l.Nodup) (hm : m ∈ l) (hinst : s.env.installed.get m = some inst)
    (hc : p.repoClass ≠ some "pacman") (hd : p.entry.pkgbuildDir = some dir) :
    ∃ c : Checked, c.dir = dir ∧ c.installedVer = inst ∧
      c.globals = pinned (buildOf s i).2.1 (buildOf s i).2.2 sha ∧
      verdict (pinnedHost s pkgbase i m sha) s.env.installed pkgbase l p commit =
        .ok (some (VersionCheck.compare (pinnedHost s pkgbase i m sha) pkgbase p commit c)) := by
  have hrpc : truthy ((Dict.empty.set pkgbase "1" : Dict String String).get pkgbase) =
      some "1" := by
    rw [Dict.get_set, if_pos rfl]
    decide
  obtain ⟨ver, hver⟩ := @resolvedVer_quiet pkgbase
    (pinned (buildOf s i).2.1 (buildOf s i).2.2 sha) _ [m] _ hrpc p.entry
  refine ⟨⟨dir, "", pinned (buildOf s i).2.1 (buildOf s i).2.2 sha, ver, inst⟩, rfl, rfl, rfl, ?_⟩
  rw [verdict, pinnedHost, (prepare_quiet hc hd).2 ver inst hver (comparedVer_quiet hl hm hinst)]

theorem build_eq
    (h : ∀ w, (∀ pkgbase, OneListed s w (members s (targets s) pkgbase)) → OrderFree s w)
    (hv : isVcsPkgbase pkgbase = true) {k sha : String}
    (hi : i ∈ members s (targets s) pkgbase) (hj : j ∈ members s (targets s) pkgbase)
    (hready : Ready s (members s (targets s) pkgbase) i j sha)
    (hk : k ∈ members s (targets s) pkgbase) :
    buildOf s k = buildOf s i ∧ (commitOf s k = none ∨ commitOf s k = some sha) := by
  obtain ⟨hclass, hdir, ⟨hcommit, hsha⟩, m, hm, hget, hrec⟩ := hready
  obtain ⟨dir, hdir⟩ := Option.ne_none_iff_exists'.mp hdir
  obtain ⟨inst, hinst⟩ := Option.ne_none_iff_exists'.mp hrec
  obtain ⟨rest, hperm, hfind⟩ := exists_perm_cons hi hj
  have hpermk := perm_cons_erase_members hk
  have hnodup : (members s (targets s) pkgbase).Nodup := nodup_targets.filter _
  have hfree : OrderFree s ⟨pinnedHost s pkgbase i m sha, { activeVariant := "system" }⟩ :=
    orderFree_quiet h _ _ _ _
  obtain ⟨-, hclasses, hdirs⟩ := hfree.entry_eq hi hk
  have hclass' : (entryOf s k).repoClass ≠ some "pacman" := hclasses ▸ hclass
  have hdir' : (entryOf s k).entry.pkgbuildDir = some dir := hdirs.symm.trans hdir
  have hcommiti : builtCommit s (i :: rest) = some sha := hfind (commitOf s) sha hcommit
  obtain ⟨c, hcdir, hcinst, hcg, hverdict⟩ := @verdict_pinned s pkgbase (i :: rest) i _ m sha _ _
    (builtCommit s (i :: rest)) (hperm.nodup_iff.mpr hnodup) (hperm.mem_iff.mpr hm)
    (hget.trans hinst) hclass hdir
  obtain ⟨c', hcdir', hcinst', hcg', hverdict'⟩ := @verdict_pinned s pkgbase _ i _ m sha _ _
    (builtCommit s (k :: (members s (targets s) pkgbase).erase k)) (hpermk.nodup_iff.mpr hnodup)
    (hpermk.mem_iff.mpr hm) (hget.trans hinst) hclass' hdir'
  have hpeek : ∀ c : Checked, peekUpstreamCommit (pinnedHost s pkgbase i m sha) pkgbase c.dir =
      some sha := fun c => peek_pinned hsha
  have hui : upstreamUnmoved (pinnedHost s pkgbase i m sha) pkgbase (entryOf s i)
      (builtCommit s (i :: rest)) c = true := by
    simp only [upstreamUnmoved, Bool.and_eq_true, decide_eq_true_eq]
    refine ⟨⟨⟨by rw [hcommiti]; rfl, hcinst.symm ▸ hinst⟩, ?_⟩, (hpeek c).trans hcommiti.symm⟩
    rw [hcg]
    exact revision_idem _ _
  have heq := hfree.verdict_eq hperm hpermk
  have huk : upstreamUnmoved (pinnedHost s pkgbase i m sha) pkgbase (entryOf s k)
      (builtCommit s (k :: (members s (targets s) pkgbase).erase k)) c' = true := by
    have hsame := hverdict.symm.trans (heq.trans hverdict')
    injection hsame with hsame
    have haction := congrArg Verdict.action (Option.some.inj hsame)
    exact (compare_quiet hv).mp (haction.symm.trans ((compare_quiet hv).mpr hui))
  simp only [upstreamUnmoved, Bool.and_eq_true, decide_eq_true_eq, hpeek] at huk
  obtain ⟨⟨⟨-, hreck⟩, hrevk⟩, hcommitk⟩ := huk
  refine ⟨Prod.ext ?_ ?_, ?_⟩
  · exact (hreck.trans (congrArg some hcinst')).trans hinst.symm
  · exact (hrevk.symm.trans (by rw [hcg']; exact revision_idem _ _))
  · cases hck : commitOf s k with
    | none => exact .inl rfl
    | some ck =>
      refine .inr (Eq.trans ?_ hcommitk.symm)
      rw [builtCommit, List.findSome?_cons_of_isSome (by rw [← commitOf, hck]; rfl), ← commitOf,
        hck]

/-- **When the order of the package set shows**: the decisions of an update are the same in every
order, on every host where the newest listed versions are one text, exactly when the packages of
each pkgbase agree. -/
theorem orderFree_forall_iff :
    (∀ w, (∀ pkgbase, OneListed s w (members s (targets s) pkgbase)) → OrderFree s w) ↔
      ∀ pkgbase, MembersAgree s pkgbase (members s (targets s) pkgbase) := by
  constructor
  · intro h pkgbase
    have hentry := fun {i j} => @OrderFree.entry_eq s _ pkgbase i j
      (orderFree_quiet h {} .empty [] { activeVariant := "system" })
    refine ⟨fun i hi j hj => (hentry hi hj).1, fun i hi j hj => ⟨(hentry hi hj).2.1,
      (hentry hi hj).2.2, fun hc hd => Option.ext fun o => ⟨fun ho => ?_, fun ho => ?_⟩⟩,
      fun hv i hi j hj c hr k hk => build_eq h hv hi hj hr hk,
      fun i hi j hj a b ha hb => stamp_eq h hi hj ha hb⟩
    · exact origin_eq_of_some h hi hj hc hd ho
    · exact origin_eq_of_some h hj hi ((hentry hi hj).2.1 ▸ hc) ((hentry hi hj).2.2 ▸ hd) ho
  · intro h w hone
    exact orderFree_iff_members.mpr fun pkgbase l l' hl hl' =>
      (h pkgbase).decisionOf_eq hl hl' (hone pkgbase)

/-! ## The short-circuit -/

/-- In the given order the check of a pkgbase gets to `c`, and finds it up to date by the recorded
commit. -/
def TakesShortcut (s : Scope) (w : World) (order : List String) (pkgbase : String) (c : Checked) :
    Prop :=
  ∃ n ∈ (members s order pkgbase).head?,
    prepare w.host s.env.installed pkgbase (members s order pkgbase) (entryOf s n) = .compare c ∧
      isVcsPkgbase pkgbase = true ∧
      upstreamUnmoved w.host pkgbase (entryOf s n)
        (if w.host.forceDevel then builtCommit s (members s order pkgbase) else none) c = true

/-- What `git ls-remote` answers is the commit that the source resolves to. -/
def Current (w : World) : Prop :=
  ∀ pkgbase dir sha, peekUpstreamCommit w.host pkgbase dir = some sha →
    w.host.sourceCommit dir = sha

/-- Where the check skips `pkgver()`, it would give a version equal to the installed one. -/
def ShortcutSound (s : Scope) (w : World) : Prop :=
  ∀ order, order.Perm (targets s) → ∀ pkgbase c, TakesShortcut s w order pkgbase c →
    w.host.vercmp.cmp (w.host.pkgverAt c.text (w.host.sourceCommit c.dir)) c.installedVer = 0

/-- Where the check skips `pkgver()`, the PKGBUILD as it stands gives, at the commit that the one
package records, a version equal to the one that the other records. -/
def PkgverKept (s : Scope) (w : World) : Prop :=
  ∀ order, order.Perm (targets s) → ∀ pkgbase c, TakesShortcut s w order pkgbase c →
    ∀ n ∈ (members s order pkgbase).head?, ∀ sha ver,
      builtCommit s (members s order pkgbase) = some sha →
        recordedVer (entryOf s n).entry = some ver →
          w.host.vercmp.cmp (w.host.pkgverAt c.text sha) ver = 0

theorem shortcutSound_iff (hw : Current w) : ShortcutSound s w ↔ PkgverKept s w := by
  have hfacts : ∀ {order pkgbase c}, TakesShortcut s w order pkgbase c →
      ∃ n ∈ (members s order pkgbase).head?, builtCommit s (members s order pkgbase) =
        some (w.host.sourceCommit c.dir) ∧
          recordedVer (entryOf s n).entry = some c.installedVer := by
    rintro order pkgbase c ⟨n, hn, -, -, hu⟩
    simp only [upstreamUnmoved, Bool.and_eq_true, decide_eq_true_eq] at hu
    obtain ⟨⟨⟨hsome, hrec⟩, -⟩, hpeek⟩ := hu
    obtain ⟨sha, hsha⟩ := Option.isSome_iff_exists.mp hsome
    have hcommit := hw _ _ _ (hpeek.trans hsha)
    refine ⟨n, hn, ?_, hrec⟩
    by_cases hf : w.host.forceDevel = true
    · rw [if_pos hf] at hsha
      rw [hsha, hcommit]
    · rw [if_neg hf] at hsha
      cases hsha
  constructor
  · intro h order ho pkgbase c hc n hn sha ver hsha hver
    obtain ⟨n', hn', hcommit, hrec⟩ := hfacts hc
    cases hn.symm.trans hn'
    cases hsha.symm.trans hcommit
    cases hver.symm.trans hrec
    exact h order ho pkgbase c hc
  · intro h order ho pkgbase c hc
    obtain ⟨n, hn, hcommit, hrec⟩ := hfacts hc
    exact h order ho pkgbase c hc n hn _ _ hcommit hrec

/-- **The decisions of an update.** They do not depend on the order of the package set exactly when
the packages of each pkgbase agree and `checkupdates` lists one newest version for each; and the
short-circuit of `--devel` is right exactly when the PKGBUILD has kept its version at the recorded
commit. -/
theorem update_decisions (s : Scope) :
    ((∀ w, (∀ pkgbase, OneListed s w (members s (targets s) pkgbase)) → OrderFree s w) ↔
      ∀ pkgbase, MembersAgree s pkgbase (members s (targets s) pkgbase)) ∧
    (∀ w, OrderFree s w → ∀ pkgbase, OneListed s w (members s (targets s) pkgbase)) ∧
    ∀ w, Current w → (ShortcutSound s w ↔ PkgverKept s w) :=
  ⟨orderFree_forall_iff, fun _ h pkgbase => h.oneListed pkgbase, fun _ hw => shortcutSound_iff hw⟩

/-! ## A split package whose records differ -/

/-- The record of a member of `foo-git`, built at `r1-1` from the given commit. -/
def fooRecord (sha : String) : Entry where
  pkgver := some "r1"
  pkgrel := some "1"
  pkgbase := some "foo-git"
  pkgbuildDir := some "/src/foo-git"
  buildMode := some "source_built"
  source := some "aur"
  builtUpstreamCommit := some sha

/-- `foo-git` and `foo-git-docs` are installed, and record different commits. -/
def fooScope : Scope where
  args := {}
  bs := { data := .ofItems [("foo-git", fooRecord (String.ofList (List.replicate 40 'a'))),
    ("foo-git-docs", fooRecord (String.ofList (List.replicate 40 'b')))]
          failures := .empty, reverted := .empty, reviewed := .empty }
  env :=
    { installed := .ofItems [("foo-git", "r1-1"), ("foo-git-docs", "r1-1")]
      foreign := ["foo-git", "foo-git-docs"], overrides := .empty, repoModeSource := false
      srcPath := none, ownership := {}, pkgbaseOf := fun _ => none, aurInfo := fun _ _ => none }
  optedOut := .empty

/-- The globals of the PKGBUILD. -/
def fooGlobals : Globals where
  pkgver := "r0"
  pkgrel := some "1"
  source := ["git+https://foo.test/foo.git"]

/-- Upstream is at the commit of `foo-git`. The PKGBUILD was edited since, with its pkgrel kept, and
its `pkgver()` now gives a longer version. -/
def fooWorld : World where
  host :=
    { quiet fooGlobals .empty [] with
      vercmp := ⟨fun a b => a.length - b.length, fun a b => by omega, fun a b c h h' => by omega⟩
      lsRemote := fun _ _ => some [List.replicate 40 'a' ++ "\tHEAD".toList]
      sourceCommit := fun _ => String.ofList (List.replicate 40 'a')
      pkgverAt := fun _ _ => "r1.1-1"
      resolves := fun _ => true }
  toolchain := { activeVariant := "system" }

/-- The action that is decided for a pkgbase. -/
def actionOf (d : Option Decision) : Option VersionCheck.Action :=
  d.bind fun d => (verdictOf d.check).toOption.join.map (·.action)

/-- The same records are up to date in one order of the set and need a rebuild in the other; where
they are up to date, `pkgver()` would give a newer version. -/
theorem update_depends_on_order : Current fooWorld ∧
    actionOf (decisions fooScope fooWorld ["foo-git", "foo-git-docs"] "foo-git") = some .upToDate ∧
    actionOf (decisions fooScope fooWorld ["foo-git-docs", "foo-git"] "foo-git") =
      some .needsRebuild ∧
    ¬ OrderFree fooScope fooWorld ∧ ¬ ShortcutSound fooScope fooWorld := by
  have htargets : targets fooScope = ["foo-git", "foo-git-docs"] := by decide
  have hfirst : actionOf (decisions fooScope fooWorld ["foo-git", "foo-git-docs"] "foo-git") =
      some .upToDate := by decide
  have hsecond : actionOf (decisions fooScope fooWorld ["foo-git-docs", "foo-git"] "foo-git") =
      some .needsRebuild := by decide
  refine ⟨fun pkgbase dir sha h => ?_, hfirst, hsecond, fun h => ?_, fun h => ?_⟩
  · have hpeek : peekUpstreamCommit fooWorld.host pkgbase dir =
        some (String.ofList (List.replicate 40 'a')) := by
      change peekUpstreamCommit fooWorld.host "foo-git" "/src/foo-git" = _
      decide
    exact Option.some.inj (hpeek.symm.trans h)
  · have heq := congrArg actionOf (h ["foo-git", "foo-git-docs"] ["foo-git-docs", "foo-git"]
      (htargets ▸ List.Perm.refl _) (htargets ▸ List.Perm.swap _ _ _) "foo-git")
    rw [hfirst, hsecond] at heq
    cases heq
  · have hsound := h ["foo-git", "foo-git-docs"] (htargets ▸ List.Perm.refl _) "foo-git"
      ⟨"/src/foo-git", "", fooGlobals, "r0-1", "r1-1"⟩
      ⟨"foo-git", by decide, rfl, by decide, by decide⟩
    exact absurd hsound (by decide)

end Sysforge.SetOrder
