import Sysforge.Install.BuildAndInstall

/-!
# What an install does to one package

Each operation is looked at from one package file and its name: what it does to the entry of the
name and to the stash of the file. An operation on other files touches neither, and an install that
is handed the file drops it, installs it or refuses it.
-/

namespace Sysforge.Install

open BuildState

variable {sys : System} {stateDir : Bool} {earlier : Artifact → Option Entry}
  {s s' : BuildState} {f g : Artifact} {p : String} {files : List Artifact}

/-! ## What an operation does to one name -/

/-- The entry of a name and the stash of a file are as they were. -/
structure Untouched (p : String) (f : Artifact) (s s' : BuildState) : Prop where
  data : s'.data.get p = s.data.get p
  stash : s'.reverted.get f.name = s.reverted.get f.name

theorem Untouched.refl (p : String) (f : Artifact) (s : BuildState) : Untouched p f s s := ⟨rfl, rfl⟩

theorem Untouched.trans {s'' : BuildState} (h : Untouched p f s s') (h' : Untouched p f s' s'') :
    Untouched p f s s'' := ⟨h'.data.trans h.data, h'.stash.trans h.stash⟩

/-- The stashes of files belong to the packages of the files. -/
def Owned (sys : System) (files : List Artifact) (s : BuildState) : Prop :=
  ∀ f ∈ files, ∀ e, s.reverted.get f.name = some e → sys.readPkgname f = some e.pkgname

/-- Stashes have only been dropped. -/
def Fewer (s s' : BuildState) : Prop :=
  ∀ n e, s'.reverted.get n = some e → s.reverted.get n = some e

theorem Fewer.refl (s : BuildState) : Fewer s s := fun _ _ h => h

theorem Fewer.trans {s'' : BuildState} (h : Fewer s s') (h' : Fewer s' s'') : Fewer s s'' :=
  fun n e he => h n e (h' n e he)

theorem Owned.mono (h : Owned sys files s) (hs : Fewer s s') : Owned sys files s' :=
  fun f hf e he => h f hf e (hs _ _ he)

theorem fewer_record (a : RecordArgs) (now : String) : Fewer s (s.record a now) := by
  intro n e h
  change (s.reverted.filter _).get n = some e at h
  rw [Dict.get_filter, Option.filter_eq_some_iff] at h
  exact h.1

theorem untouched_record {a : RecordArgs} {now : String} (ha : a.pkgname ≠ p)
    (hf : ∀ e, s.reverted.get f.name = some e → e.pkgname = p) :
    Untouched p f s (s.record a now) := by
  constructor
  · exact (Dict.get_set ..).trans (if_neg ha.symm)
  · change (s.reverted.filter _).get f.name = _
    rw [Dict.get_filter]
    cases h : s.reverted.get f.name with
    | none => rfl
    | some e => rw [Option.filter_some, if_pos (by simpa using (hf e h).trans_ne ha.symm)]

/-- A recorded name has no stash. -/
theorem stash_record {a : RecordArgs} {now : String}
    (hf : ∀ e, s.reverted.get f.name = some e → e.pkgname = a.pkgname) :
    (s.record a now).reverted.get f.name = none := by
  change (s.reverted.filter _).get f.name = _
  rw [Dict.get_filter]
  cases h : s.reverted.get f.name with
  | none => rfl
  | some e => rw [Option.filter_some, if_neg (by simpa using hf e h)]

theorem fewer_recordAll (records : List (RecordArgs × String)) (s : BuildState) :
    Fewer s (recordAll s records) := by
  induction records generalizing s with
  | nil => exact .refl s
  | cons r rs ih => exact (fewer_record r.1 r.2).trans (ih _)

theorem untouched_recordAll {records : List (RecordArgs × String)}
    (hp : p ∉ records.map fun r => r.1.pkgname)
    (hf : ∀ e, s.reverted.get f.name = some e → e.pkgname = p) :
    Untouched p f s (recordAll s records) := by
  induction records generalizing s with
  | nil => exact .refl p f s
  | cons r rs ih =>
    rw [List.map_cons, List.mem_cons, not_or] at hp
    exact (untouched_record (Ne.symm hp.1) hf).trans
      (ih hp.2 fun e he => hf e (fewer_record r.1 r.2 _ _ he))

/-- After a build that recorded the name of a file, the file has no stash. -/
theorem stash_recordAll {records : List (RecordArgs × String)}
    (hp : p ∈ records.map fun r => r.1.pkgname)
    (hf : ∀ e, s.reverted.get f.name = some e → e.pkgname = p) :
    (recordAll s records).reverted.get f.name = none := by
  induction records generalizing s with
  | nil => exact absurd hp List.not_mem_nil
  | cons r rs ih =>
    have hf' : ∀ e, (s.record r.1 r.2).reverted.get f.name = some e → e.pkgname = p :=
      fun e he => hf e (fewer_record r.1 r.2 _ _ he)
    by_cases hr : r.1.pkgname = p
    · have hnone := @stash_record s f r.1 r.2 fun e he => (hf e he).trans hr.symm
      refine Option.eq_none_iff_forall_ne_some.mpr fun e he => ?_
      rw [fewer_recordAll rs _ _ _ he] at hnone
      cases hnone
    · rw [List.map_cons, List.mem_cons] at hp
      exact ih (hp.resolve_left (Ne.symm hr)) hf'

/-! ## Restoring -/

theorem fewer_restoreReverted (n : String) : Fewer s (s.restoreReverted n) := by
  intro k e h
  rw [restoreReverted] at h
  cases hn : s.reverted.get n with
  | none =>
    rw [hn] at h
    exact h
  | some st =>
    rw [hn] at h
    have h' : (s.reverted.erase n).get k = some e := by
      dsimp only at h
      split at h <;> exact h
    rw [Dict.get_erase] at h'
    split_ifs at h' with hk
    exact h'

theorem restoreReverted_of_none {n : String} (h : s.reverted.get n = none) :
    s.restoreReverted n = s := by
  rw [restoreReverted, h]

/-- The stash of another package does not touch a name. -/
theorem untouched_restoreReverted (hg : ∀ e, s.reverted.get g.name = some e → e.pkgname ≠ p)
    (hf : ∀ e, s.reverted.get f.name = some e → e.pkgname = p) :
    Untouched p f s (s.restoreReverted g.name) := by
  cases hn : s.reverted.get g.name with
  | none =>
    rw [restoreReverted_of_none hn]
    exact .refl p f s
  | some st =>
    have hne : f.name ≠ g.name := fun e => hg st hn (hf st (e ▸ hn))
    have hstash : (s.reverted.erase g.name).get f.name = s.reverted.get f.name := by
      rw [Dict.get_erase, if_neg hne]
    rw [restoreReverted, hn]
    dsimp only
    split
    · exact ⟨rfl, hstash⟩
    · refine ⟨?_, hstash⟩
      exact (Dict.get_set ..).trans (if_neg (hg st hn).symm)

theorem restoreReverted_of_stash {e : Entry} (hp : p ≠ "")
    (h : s.reverted.get f.name = some ⟨p, e⟩) :
    (s.restoreReverted f.name).data.get p = some e ∧
      (s.restoreReverted f.name).reverted.get f.name = none := by
  rw [restoreReverted, h]
  dsimp only
  rw [if_neg hp]
  exact ⟨(Dict.get_set ..).trans (if_pos rfl), (Dict.get_erase ..).trans (if_pos rfl)⟩

/-- The state after the restores. -/
theorem restoreAll_fst (s : BuildState) (files : List Artifact) :
    (restoreAll s files).1 = files.foldl (fun s f => s.restoreReverted f.name) s := by
  have h : ∀ (files : List Artifact) (r : BuildState × List String),
      (files.foldl (fun r f => (r.1.restoreReverted f.name,
        r.2 ++ (restoredName r.1 f.name).toList)) r).1 =
          files.foldl (fun s f => s.restoreReverted f.name) r.1 := by
    intro files
    induction files with
    | nil => exact fun _ => rfl
    | cons f fs ih => exact fun r => ih _
  exact h files (s, [])

theorem data_of_restoredName_none (h : restoredName s f.name = none) :
    (s.restoreReverted f.name).data = s.data := by
  rw [restoredName, Option.filter_eq_none_iff] at h
  rw [restoreReverted]
  cases hn : s.reverted.get f.name with
  | none => rfl
  | some st =>
    have := h st.pkgname (by rw [hn]; rfl)
    dsimp only
    rw [if_pos (by simpa using this)]

/-- When nothing was restored, no entry has changed. -/
theorem data_restoreAll (h : (restoreAll s files).2 = []) :
    (restoreAll s files).1.data = s.data := by
  have hall : ∀ (files : List Artifact) (r : BuildState × List String),
      (files.foldl (fun r f => (r.1.restoreReverted f.name,
        r.2 ++ (restoredName r.1 f.name).toList)) r).2 = [] →
      r.2 = [] ∧ (files.foldl (fun r f => (r.1.restoreReverted f.name,
        r.2 ++ (restoredName r.1 f.name).toList)) r).1.data = r.1.data := by
    intro files
    induction files with
    | nil => exact fun r hr => ⟨hr, rfl⟩
    | cons f fs ih =>
      intro r hr
      obtain ⟨hnil, hdata⟩ := ih _ hr
      obtain ⟨hr2, hname⟩ := List.append_eq_nil_iff.mp hnil
      refine ⟨hr2, hdata.trans (data_of_restoredName_none ?_)⟩
      simpa using hname
  exact (hall files (s, []) h).2

theorem fewer_restoreAll (s : BuildState) (files : List Artifact) :
    Fewer s (restoreAll s files).1 := by
  rw [restoreAll_fst]
  induction files generalizing s with
  | nil => exact .refl s
  | cons f fs ih => exact (fewer_restoreReverted f.name).trans (ih _)

theorem fewer_restoreRevertedState (s : BuildState) (files : List Artifact) :
    Fewer s (restoreRevertedState s files) := by
  rw [restoreRevertedState]
  split
  · exact .refl s
  · exact fewer_restoreAll s files

theorem data_restoreRevertedState (s : BuildState) (files : List Artifact) :
    (restoreRevertedState s files).data =
      (files.foldl (fun s f => s.restoreReverted f.name) s).data := by
  rw [restoreRevertedState, ← restoreAll_fst]
  split
  next h => exact (data_restoreAll h).symm
  · rfl

section Unique

/-- `f` is the only one of the files with its name. -/
def Only (sys : System) (p : String) (f : Artifact) (files : List Artifact) : Prop :=
  ∀ g ∈ files, sys.readPkgname g = some p → g = f

theorem Only.mono {files' : List Artifact} (h : Only sys p f files) (hs : files' ⊆ files) :
    Only sys p f files' := fun g hg => h g (hs hg)

variable (hread : sys.readPkgname f = some p)
include hread

theorem Owned.stash (ho : Owned sys files s) (hf : f ∈ files) :
    ∀ e, s.reverted.get f.name = some e → e.pkgname = p := by
  intro e he
  have := ho f hf e he
  rw [hread, Option.some.injEq] at this
  exact this.symm

/-- Restoring other files does not touch a name. -/
theorem untouched_restores (ho : Owned sys files s) (honly : Only sys p f files)
    (hf : ∀ e, s.reverted.get f.name = some e → e.pkgname = p) (hmem : f ∉ files) :
    Untouched p f s (files.foldl (fun s f => s.restoreReverted f.name) s) := by
  induction files generalizing s with
  | nil => exact .refl p f s
  | cons g gs ih =>
    have hne : g ≠ f := fun e => hmem (e ▸ List.mem_cons_self)
    have hg : ∀ e, s.reverted.get g.name = some e → e.pkgname ≠ p := by
      rintro e he rfl
      exact hne (honly g List.mem_cons_self (ho g List.mem_cons_self e he))
    have hfew := fewer_restoreReverted (s := s) g.name
    refine (untouched_restoreReverted hg hf).trans (ih ?_ ?_ ?_ ?_)
    · exact fun g' hg' e he => ho g' (List.mem_cons_of_mem _ hg') e (hfew _ _ he)
    · exact fun g' hg' => honly g' (List.mem_cons_of_mem _ hg')
    · exact fun e he => hf e (hfew _ _ he)
    · exact fun h => hmem (List.mem_cons_of_mem _ h)

/-- Restoring files without a stash of the name does not touch its entry. -/
theorem data_restores_of_none (ho : Owned sys files s) (honly : Only sys p f files)
    (hf : s.reverted.get f.name = none) :
    (files.foldl (fun s f => s.restoreReverted f.name) s).data.get p = s.data.get p := by
  induction files generalizing s with
  | nil => rfl
  | cons g gs ih =>
    have hfew := fewer_restoreReverted (s := s) g.name
    have hgs : Owned sys gs (s.restoreReverted g.name) := fun g' hg' e he =>
      ho g' (List.mem_cons_of_mem _ hg') e (hfew _ _ he)
    have honly' : Only sys p f gs := honly.mono (List.subset_cons_self g gs)
    by_cases hgf : g = f
    · subst hgf
      rw [List.foldl_cons, restoreReverted_of_none hf]
      exact ih (fun g' hg' => ho g' (List.mem_cons_of_mem _ hg')) honly' hf
    · have hg : ∀ e, s.reverted.get g.name = some e → e.pkgname ≠ p := by
        rintro e he rfl
        exact hgf (honly g List.mem_cons_self (ho g List.mem_cons_self e he))
      have hun := untouched_restoreReverted (f := f) hg fun e he => by rw [hf] at he; cases he
      rw [List.foldl_cons, ih hgs honly' (hun.stash.trans hf), hun.data]

/-- Restoring a file puts its stash back. -/
theorem data_restores_of_stash {e : Entry} (ho : Owned sys files s) (honly : Only sys p f files)
    (hp : p ≠ "") (hf : s.reverted.get f.name = some ⟨p, e⟩) (hmem : f ∈ files) :
    (files.foldl (fun s f => s.restoreReverted f.name) s).data.get p = some e := by
  induction files generalizing s with
  | nil => exact absurd hmem List.not_mem_nil
  | cons g gs ih =>
    have hfew := fewer_restoreReverted (s := s) g.name
    have hgs : Owned sys gs (s.restoreReverted g.name) := fun g' hg' e he =>
      ho g' (List.mem_cons_of_mem _ hg') e (hfew _ _ he)
    have honly' : Only sys p f gs := honly.mono (List.subset_cons_self g gs)
    rw [List.foldl_cons]
    by_cases hgf : g = f
    · subst hgf
      obtain ⟨hdata, hstash⟩ := restoreReverted_of_stash hp hf
      rw [data_restores_of_none hread hgs honly' hstash, hdata]
    · have hg : ∀ e, s.reverted.get g.name = some e → e.pkgname ≠ p := by
        rintro e he rfl
        exact hgf (honly g List.mem_cons_self (ho g List.mem_cons_self e he))
      have hun := untouched_restoreReverted (f := f) hg fun e' he' => by
        rw [hf] at he'
        cases he'
        rfl
      exact ih hgs honly' (hun.stash.trans hf)
        ((List.mem_cons.mp hmem).resolve_left (Ne.symm hgf))

theorem untouched_restoreRevertedState (ho : Owned sys files s) (honly : Only sys p f files)
    (hf : ∀ e, s.reverted.get f.name = some e → e.pkgname = p) (hmem : f ∉ files) :
    Untouched p f s (restoreRevertedState s files) := by
  have h := untouched_restores hread ho honly hf hmem
  rw [← restoreAll_fst] at h
  rw [restoreRevertedState]
  split
  · exact .refl p f s
  · exact h

end Unique

/-! ## Reverting -/

/-- The same entry, up to the facts a revert carries forward. -/
def SameFacts (a b : Option Entry) : Prop := a.map Entry.sansBuildFacts = b.map Entry.sansBuildFacts

theorem data_revertRecord (s : BuildState) (p : String) (prior : Option Entry) (n : String) :
    SameFacts ((s.revertRecord p prior (some n)).data.get p) prior := by
  cases prior with
  | none => exact congrArg (Option.map _) ((Dict.get_erase ..).trans (if_pos rfl))
  | some e => exact (congrArg (Option.map _) ((Dict.get_set ..).trans (if_pos rfl))).trans rfl

theorem data_revertRecord_of_ne {q : String} (h : q ≠ p) (prior : Option Entry) (n : String) :
    (s.revertRecord q prior (some n)).data.get p = s.data.get p := by
  have hstash : ∀ o, (addStash s o).data = s.data := by
    intro o
    cases o <;> rfl
  cases prior with
  | none =>
    refine (Dict.get_erase ..).trans ((if_neg h.symm).trans ?_)
    rw [hstash]
  | some e =>
    refine (Dict.get_set ..).trans ((if_neg h.symm).trans ?_)
    rw [hstash]

section Revert

variable {prior : Dict String (Option Entry)}

theorem data_revertFile_of_ne (h : sys.readPkgname g ≠ some p) (s : BuildState) :
    (revertFile sys prior s g).data.get p = s.data.get p := by
  rw [revertFile]
  cases hg : sys.readPkgname g with
  | none => rfl
  | some q =>
    have hq : q ≠ p := fun e => h (by rw [hg, e])
    dsimp only
    cases hprior : prior.get q with
    | none => rfl
    | some e => exact data_revertRecord_of_ne hq e g.name

/-- A name without a snapshot, or none of whose files was refused, keeps its entry. -/
theorem data_reverts_of_notMem (h : prior.get p = none ∨ ∀ g ∈ files, sys.readPkgname g ≠ some p)
    (s : BuildState) : (files.foldl (revertFile sys prior) s).data.get p = s.data.get p := by
  induction files generalizing s with
  | nil => rfl
  | cons g gs ih =>
    rw [List.foldl_cons, ih (h.imp_right fun h g' hg' => h g' (List.mem_cons_of_mem _ hg'))]
    by_cases hg : sys.readPkgname g = some p
    · have hnone := h.resolve_right fun h => h g List.mem_cons_self hg
      rw [revertFile, hg]
      dsimp only
      rw [hnone]
    · exact data_revertFile_of_ne hg s

/-- A refused name with a snapshot ends with the entry of the snapshot. -/
theorem data_reverts_of_mem {e : Option Entry} (hprior : prior.get p = some e)
    (h : (∃ g ∈ files, sys.readPkgname g = some p) ∨ SameFacts (s.data.get p) e) :
    SameFacts ((files.foldl (revertFile sys prior) s).data.get p) e := by
  induction files generalizing s with
  | nil => exact h.resolve_left (by simp)
  | cons g gs ih =>
    refine ih ?_
    by_cases hg : sys.readPkgname g = some p
    · right
      rw [revertFile, hg]
      dsimp only
      rw [hprior]
      exact data_revertRecord s p e g.name
    · rw [data_revertFile_of_ne hg]
      refine h.imp_left ?_
      rintro ⟨g', hg', hp⟩
      refine ⟨g', (List.mem_cons.mp hg').resolve_left ?_, hp⟩
      rintro rfl
      exact hg hp

theorem data_revertUninstalledState_of_notMem
    (h : prior.get p = none ∨ ∀ g ∈ files, sys.readPkgname g ≠ some p) (s : BuildState) :
    (revertUninstalledState sys s files prior).data.get p = s.data.get p := by
  rw [revertUninstalledState]
  split
  · rfl
  · exact data_reverts_of_notMem h s

theorem data_revertUninstalledState_of_mem {e : Option Entry} (hprior : prior.get p = some e)
    (h : ∃ g ∈ files, sys.readPkgname g = some p) (s : BuildState) :
    SameFacts ((revertUninstalledState sys s files prior).data.get p) e := by
  rw [revertUninstalledState, if_neg]
  · exact data_reverts_of_mem hprior (.inl h)
  · intro hnil
    rw [Dict.get, hnil] at hprior
    cases hprior

end Revert

theorem get_snapshotState (s : BuildState) (names : List String) (p : String) :
    (snapshotState s names).get p = if p ∈ names then some (s.data.get p) else none := by
  rw [snapshotState, Dict.get_ofItems (f := fun pn => some (s.data.get pn))]
  · rw [Assoc.keys, List.map_map]
    change (if p ∈ names.map id then _ else _) = _
    rw [List.map_id]
  · intro q hq
    obtain ⟨pn, -, rfl⟩ := List.mem_map.mp hq
    rfl

/-! ## The log of transactions -/

/-- pacman refused a file and no later transaction installed it. -/
def Refused (log : List Transaction) (f : Artifact) : Prop :=
  ∃ l₁ t l₂, log = l₁ ++ t :: l₂ ∧ t.accepted = false ∧ f ∈ t.files ∧
    ∀ t' ∈ l₂, t'.accepted = true → f ∉ t'.files

/-- pacman installed a file. -/
def InstalledIn (log : List Transaction) (f : Artifact) : Prop :=
  ∃ t ∈ log, t.accepted = true ∧ f ∈ t.files

/-- No transaction has tried a file. -/
def Silent (log : List Transaction) (f : Artifact) : Prop := ∀ t ∈ log, f ∉ t.files

variable {log new : List Transaction}

theorem Silent.append (h : Silent log f) (h' : Silent new f) : Silent (log ++ new) f :=
  fun t ht => (List.mem_append.mp ht).elim (h t) (h' t)

theorem not_refused_of_silent (h : Silent log f) : ¬ Refused log f := by
  rintro ⟨l₁, t, l₂, rfl, -, hmem, -⟩
  exact h t (by simp) hmem

theorem not_installed_of_silent (h : Silent log f) : ¬ InstalledIn log f :=
  fun ⟨t, ht, _, hmem⟩ => h t ht hmem

theorem refused_append_silent (h : Silent new f) : Refused (log ++ new) f ↔ Refused log f := by
  constructor
  · rintro ⟨l₁, t, l₂, he, ht, hmem, hlater⟩
    rcases List.append_eq_append_iff.mp he with ⟨l, rfl, hnew⟩ | ⟨l, rfl, hl⟩
    · exact absurd hmem (h t (by rw [hnew]; simp))
    · cases l with
      | nil =>
        rw [List.nil_append] at hl
        exact absurd hmem (h t (by rw [← hl]; simp))
      | cons t' l =>
        rw [List.cons_append, List.cons.injEq] at hl
        obtain ⟨rfl, rfl⟩ := hl
        exact ⟨l₁, t, l, rfl, ht, hmem, fun t' ht' => hlater t' (List.mem_append_left _ ht')⟩
  · rintro ⟨l₁, t, l₂, rfl, ht, hmem, hlater⟩
    refine ⟨l₁, t, l₂ ++ new, by simp, ht, hmem, fun t' ht' ha => ?_⟩
    exact (List.mem_append.mp ht').elim (fun h' => hlater t' h' ha) (h t')

theorem installed_append_silent (h : Silent new f) :
    InstalledIn (log ++ new) f ↔ InstalledIn log f := by
  constructor
  · rintro ⟨t, ht, ha, hmem⟩
    exact ⟨t, (List.mem_append.mp ht).resolve_right fun h' => h t h' hmem, ha, hmem⟩
  · rintro ⟨t, ht, ha, hmem⟩
    exact ⟨t, List.mem_append_left _ ht, ha, hmem⟩

/-- A file of the last transaction is not refused when that was accepted. -/
theorem not_refused_of_last {t : Transaction} (ha : t.accepted = true) (hmem : f ∈ t.files) :
    ¬ Refused (log ++ [t]) f := by
  rintro ⟨l₁, t', l₂, he, ht', -, hlater⟩
  rcases List.eq_nil_or_concat l₂ with rfl | ⟨l, t'', rfl⟩
  · obtain ⟨-, hlast⟩ := List.append_inj' he rfl
    rw [List.cons.injEq] at hlast
    rw [hlast.1, ht'] at ha
    cases ha
  · have he' : log ++ [t] = (l₁ ++ t' :: l) ++ [t''] := by simpa using he
    obtain ⟨-, hlast⟩ := List.append_inj' he' rfl
    rw [List.cons.injEq] at hlast
    exact hlater t (by rw [hlast.1]; simp) ha hmem

/-! ## What an install does to one file -/

/-- What a file's build recorded can be had: it is the stash that an install restores, or the entry
where nothing is restored. -/
def Available (restores : Bool) (s : BuildState) (p : String) (f : Artifact) (e : Entry) : Prop :=
  restores = true ∧ p ≠ "" ∧ s.reverted.get f.name = some ⟨p, e⟩ ∨
    (restores = false ∨ s.reverted.get f.name = none) ∧ s.data.get p = some e

theorem Available.of_untouched {restores : Bool} {e : Entry} (h : Untouched p f s s')
    (ha : Available restores s p f e) : Available restores s' p f e := by
  rw [Available, h.data, h.stash]
  exact ha

/-- No transaction has tried the file. -/
structure Skips (f : Artifact) (h : Host) (r : Installed) : Prop where
  log : ∃ new, r.host.log = h.log ++ new ∧ Silent new f
  notInstalled : r.notInstalled.get f = none

/-- The last transaction installed the file. -/
structure Accepts (restores : Bool) (p : String) (f : Artifact) (h : Host) (r : Installed) :
    Prop where
  data : ∀ e, Available restores h.state p f e → r.host.state.data.get p = some e
  log : ∃ new t, r.host.log = h.log ++ new ++ [t] ∧ t.accepted = true ∧ f ∈ t.files
  notInstalled : r.notInstalled.get f = none

/-- Some transaction refused the file, and none installed it. -/
structure Refuses (p : String) (f : Artifact) (h : Host) (r : Installed) : Prop where
  data : r.host.state.data.get p = h.state.data.get p
  log : ∃ new, r.host.log = h.log ++ new ∧ ∀ t ∈ new, t.accepted = true → f ∉ t.files
  notInstalled : r.notInstalled.get f ≠ none

theorem get_sets {l : List (Artifact × String)} (d : Dict Artifact String) (f : Artifact) :
    (l.foldl (fun d p => d.set p.1 p.2) d).get f = none ↔
      f ∉ l.map Prod.fst ∧ d.get f = none := by
  induction l generalizing d with
  | nil => simp
  | cons q l ih =>
    rw [List.foldl_cons, ih, Dict.get_set, List.map_cons, List.mem_cons, not_or]
    by_cases hq : f = q.1
    · simp [hq]
    · simp [hq]

/-- The files that a round sets aside, with the reasons. -/
theorem get_aside {cs : List (Artifact × List String)} (d : Dict Artifact String) (f : Artifact) :
    (cs.foldl (fun d p => d.set p.1 ("; ".intercalate p.2)) d).get f = none ↔
      f ∉ cs.map Prod.fst ∧ d.get f = none := by
  have := @get_sets (cs.map fun p => (p.1, "; ".intercalate p.2)) d f
  rwa [List.foldl_map, List.map_map] at this

theorem get_refusedAll {pending : List Artifact} (d : Dict Artifact String) (f : Artifact) :
    (pending.foldl (fun d f => d.set f installRefusedReason) d).get f = none ↔
      f ∉ pending ∧ d.get f = none := by
  have := @get_sets (pending.map fun f => (f, installRefusedReason)) d f
  rwa [List.foldl_map, List.map_map, Function.comp_def, List.map_id'] at this

theorem mem_culprits {conflicts : Dict String (List String)} {pending : List Artifact}
    {c : Artifact × List String} (h : c ∈ culprits sys conflicts pending) : c.1 ∈ pending := by
  obtain ⟨f', hf', hbind⟩ := List.mem_filterMap.mp h
  obtain ⟨pn, -, hpn⟩ := Option.bind_eq_some_iff.mp hbind
  obtain ⟨details, -, rfl⟩ := Option.map_eq_some_iff.mp hpn
  exact hf'

/-- Files of a transaction are pending. -/
def LogIn (files : List Artifact) (h h' : Host) : Prop :=
  ∃ new, h'.log = h.log ++ new ∧ ∀ t ∈ new, t.files ⊆ files

theorem installPending_log (restores : Bool) (n : ℕ) (h : Host) (pending : List Artifact)
    (refused : Dict Artifact String) :
    LogIn pending h (installPending sys restores n h pending refused).host ∧
      Fewer h.state (installPending sys restores n h pending refused).host.state := by
  induction n generalizing h pending refused with
  | zero => cases pending <;> exact ⟨⟨[], by simp [installPending], by simp⟩, .refl _⟩
  | succ n ih =>
    cases pending with
    | nil => exact ⟨⟨[], by simp [installPending], by simp⟩, .refl _⟩
    | cons g gs =>
      rw [installPending]
      swap
      · exact List.cons_ne_nil g gs
      cases sys.transact h.asked (g :: gs) with
      | installed =>
        cases restores with
        | false => exact ⟨⟨[_], rfl, by simp⟩, .refl _⟩
        | true => exact ⟨⟨[_], rfl, by simp⟩, fewer_restoreRevertedState _ _⟩
      | refused conflicts =>
        dsimp only
        cases culprits sys conflicts (g :: gs) with
        | nil => exact ⟨⟨[_], rfl, by simp⟩, .refl _⟩
        | cons c cs =>
          obtain ⟨⟨new, hlog, hfiles⟩, hfew⟩ := ih (h.tried (g :: gs) false)
            ((g :: gs).filter fun f => f ∉ (c :: cs).map Prod.fst)
            ((c :: cs).foldl (fun d p => d.set p.1 ("; ".intercalate p.2)) refused)
          refine ⟨⟨⟨g :: gs, false⟩ :: new, ?_, fun t ht => ?_⟩, hfew⟩
          · rw [hlog, Host.tried, List.append_assoc, List.singleton_append]
          · rcases List.mem_cons.mp ht with rfl | ht
            · exact List.Subset.refl _
            · exact fun f hf => (List.mem_filter.mp (hfiles t ht hf)).1

/-- A file that is not pending is neither set aside nor taken back. -/
theorem installPending_notInstalled (restores : Bool) (n : ℕ) (h : Host) {pending : List Artifact}
    (hf : f ∉ pending) (refused : Dict Artifact String) :
    (installPending sys restores n h pending refused).notInstalled.get f = none ↔
      refused.get f = none := by
  induction n generalizing h pending refused with
  | zero => cases pending <;> exact .rfl
  | succ n ih =>
    cases pending with
    | nil => exact .rfl
    | cons g gs =>
      rw [installPending]
      swap
      · exact List.cons_ne_nil g gs
      cases sys.transact h.asked (g :: gs) with
      | installed => exact .rfl
      | refused conflicts =>
        dsimp only
        cases hc : culprits sys conflicts (g :: gs) with
        | nil => exact (get_refusedAll refused f).trans (and_iff_right hf)
        | cons c cs =>
          have hcs : f ∉ (c :: cs).map Prod.fst := by
            intro hfc
            rw [← hc] at hfc
            obtain ⟨q, hq, rfl⟩ := List.mem_map.mp hfc
            exact hf (mem_culprits hq)
          refine (ih (h.tried (g :: gs) false) (fun h => hf (List.mem_filter.mp h).1) _).trans ?_
          exact (get_aside refused f).trans (and_iff_right hcs)

section Pending

variable {restores : Bool} {pending : List Artifact} {refused : Dict Artifact String}
  (hread : sys.readPkgname f = some p)
include hread

/-- An install of other files does not touch a file. -/
theorem untouched_installPending (n : ℕ) (h : Host) (hmem : f ∉ pending)
    (ho : Owned sys pending h.state) (honly : Only sys p f pending)
    (hf : ∀ e, h.state.reverted.get f.name = some e → e.pkgname = p) :
    Untouched p f h.state (installPending sys restores n h pending refused).host.state := by
  induction n generalizing h pending refused with
  | zero => cases pending <;> exact .refl _ _ _
  | succ n ih =>
    cases pending with
    | nil => exact .refl _ _ _
    | cons g gs =>
      rw [installPending]
      swap
      · exact List.cons_ne_nil g gs
      cases sys.transact h.asked (g :: gs) with
      | installed =>
        cases restores with
        | false => exact .refl _ _ _
        | true => exact untouched_restoreRevertedState hread ho honly hf hmem
      | refused conflicts =>
        dsimp only
        cases culprits sys conflicts (g :: gs) with
        | nil => exact .refl _ _ _
        | cons c cs =>
          have hsub : ((g :: gs).filter fun f => f ∉ (c :: cs).map Prod.fst) ⊆ g :: gs :=
            fun f hf => (List.mem_filter.mp hf).1
          exact ih (h.tried (g :: gs) false) (fun h => hmem (hsub h))
            (fun g' hg' => ho g' (hsub hg')) (honly.mono hsub) hf

/-- A pending file ends up installed or refused. -/
theorem installPending_settles (n : ℕ) (h : Host) (hn : pending.length ≤ n) (hmem : f ∈ pending)
    (ho : Owned sys pending h.state) (honly : Only sys p f pending) (hnone : refused.get f = none) :
    Accepts restores p f h (installPending sys restores n h pending refused) ∨
      Refuses p f h (installPending sys restores n h pending refused) := by
  induction n generalizing h pending refused with
  | zero =>
    rw [List.length_eq_zero_iff.mp (Nat.le_zero.mp hn)] at hmem
    exact absurd hmem List.not_mem_nil
  | succ n ih =>
    cases pending with
    | nil => exact absurd hmem List.not_mem_nil
    | cons g gs =>
      rw [installPending]
      swap
      · exact List.cons_ne_nil g gs
      have hstash := Owned.stash hread ho hmem
      cases sys.transact h.asked (g :: gs) with
      | installed =>
        refine .inl ⟨fun e he => ?_, ⟨[], ⟨g :: gs, true⟩, ?_, rfl, hmem⟩, hnone⟩
        · rcases he with ⟨rfl, hp, he⟩ | ⟨hor, hdata⟩
          · refine (congrArg (Dict.get · p) (data_restoreRevertedState _ _)).trans ?_
            exact data_restores_of_stash hread ho honly hp he hmem
          · cases restores with
            | false => exact hdata
            | true =>
              refine (congrArg (Dict.get · p) (data_restoreRevertedState _ _)).trans ?_
              exact (data_restores_of_none hread ho honly (hor.resolve_left nofun)).trans hdata
        · rw [List.append_nil]
          cases restores <;> rfl
      | refused conflicts =>
        dsimp only
        cases hc : culprits sys conflicts (g :: gs) with
        | nil =>
          refine .inr ⟨rfl, ⟨[_], rfl, by simp⟩, ?_⟩
          rw [Ne, get_refusedAll, not_and_or, not_not]
          exact .inl hmem
        | cons c cs =>
          dsimp only
          have hsub : ((g :: gs).filter fun f => f ∉ (c :: cs).map Prod.fst) ⊆ g :: gs :=
            fun f hf => (List.mem_filter.mp hf).1
          have hcmem : c.1 ∈ g :: gs := @mem_culprits sys conflicts _ c (hc ▸ List.mem_cons_self)
          by_cases hfc : f ∈ (c :: cs).map Prod.fst
          · -- set aside, the rest goes on without it
            have hout : f ∉ (g :: gs).filter fun f => f ∉ (c :: cs).map Prod.fst := fun h =>
              of_decide_eq_true (List.mem_filter.mp h).2 hfc
            have hun := @untouched_installPending sys f p restores _
              ((c :: cs).foldl (fun d p => d.set p.1 ("; ".intercalate p.2)) refused) hread n
              (h.tried (g :: gs) false) hout (fun g' hg' => ho g' (hsub hg')) (honly.mono hsub)
              hstash
            obtain ⟨⟨new, hlog, hfiles⟩, -⟩ := @installPending_log sys restores n
              (h.tried (g :: gs) false) _ _
            refine .inr ⟨hun.data, ⟨⟨g :: gs, false⟩ :: new, ?_, fun t ht ha => ?_⟩, ?_⟩
            · rw [hlog, Host.tried, List.append_assoc, List.singleton_append]
            · rcases List.mem_cons.mp ht with rfl | ht
              · cases ha
              · exact fun hft => hout (hfiles t ht hft)
            · rw [Ne, installPending_notInstalled restores n _ hout, get_aside, not_and_or, not_not]
              exact .inl hfc
          · have hin : f ∈ (g :: gs).filter fun f => f ∉ (c :: cs).map Prod.fst :=
              List.mem_filter.mpr ⟨hmem, by simpa using hfc⟩
            have hlen : ((g :: gs).filter fun f => f ∉ (c :: cs).map Prod.fst).length ≤ n := by
              have : ((g :: gs).filter fun f => f ∉ (c :: cs).map Prod.fst).length <
                  (g :: gs).length := by
                refine List.length_filter_lt_length_iff_exists.mpr ⟨c.1, hcmem, ?_⟩
                simp
              omega
            have hnone' : ((c :: cs).foldl
                (fun d p => d.set p.1 ("; ".intercalate p.2)) refused).get f = none :=
              (get_aside refused f).mpr ⟨hfc, hnone⟩
            have hlift : ∀ {new : List Transaction} {h' : Host},
                h'.log = (h.tried (g :: gs) false).log ++ new →
                  h'.log = h.log ++ (⟨g :: gs, false⟩ :: new) := by
              intro new h' hlog
              rw [hlog, Host.tried, List.append_assoc, List.singleton_append]
            rcases ih (h.tried (g :: gs) false) hlen hin (fun g' hg' => ho g' (hsub hg'))
              (honly.mono hsub) hnone' with ha | hr
            · obtain ⟨new, t, hlog, hacc⟩ := ha.log
              rw [List.append_assoc] at hlog
              refine .inl ⟨ha.data, ⟨⟨g :: gs, false⟩ :: new, t, ?_, hacc⟩, ha.notInstalled⟩
              rw [hlift hlog, List.append_assoc, List.cons_append]
            · obtain ⟨new, hlog, hacc⟩ := hr.log
              refine .inr ⟨hr.data, ⟨⟨g :: gs, false⟩ :: new, hlift hlog, fun t ht ha => ?_⟩,
                hr.notInstalled⟩
              rcases List.mem_cons.mp ht with rfl | ht
              · cases ha
              · exact hacc t ht ha

end Pending

theorem delete_foldl (names : List String) (s : BuildState) :
    (names.foldl BuildState.delete s).reverted = s.reverted ∧
      (p ∉ names → (names.foldl BuildState.delete s).data.get p = s.data.get p) := by
  induction names generalizing s with
  | nil => exact ⟨rfl, fun _ => rfl⟩
  | cons n ns ih =>
    obtain ⟨hrev, hdata⟩ := ih (s.delete n)
    refine ⟨hrev, fun hp => ?_⟩
    rw [List.mem_cons, not_or] at hp
    exact (hdata hp.2).trans ((Dict.get_erase ..).trans (if_neg hp.1))

theorem untouched_forgetUninstalled {names : List String} (hp : p ∉ names)
    (installed : List String) (s : BuildState) :
    Untouched p f s (forgetUninstalled s names installed) := by
  obtain ⟨hrev, hdata⟩ := @delete_foldl p
    ((names.filter fun n => n ≠ "" && n ∉ installed).dedup.insertionSort (· ≤ ·)) s
  refine ⟨hdata fun hmem => hp ?_, congrArg (Dict.get · f.name) hrev⟩
  rw [List.mem_insertionSort, List.mem_dedup] at hmem
  exact (List.mem_filter.mp hmem).1

theorem fewer_forgetUninstalled (s : BuildState) (names installed : List String) :
    Fewer s (forgetUninstalled s names installed) := by
  intro n e h
  rw [forgetUninstalled, (delete_foldl (p := "") _ s).1] at h
  exact h

section InstallBuilt

variable {always : List String}

theorem fewer_keepInstalled (h : Host) (files : List Artifact) :
    Fewer h.state (keepInstalled sys stateDir always h files).2.state := by
  cases stateDir with
  | false => exact .refl _
  | true => exact fewer_forgetUninstalled _ _ _

/-- A name is forgotten only with a dropped file of it. -/
theorem untouched_keepInstalled (h : Host) (hkeep : ∀ g ∈ files, sys.readPkgname g = some p →
      keeps sys (sys.allInstalled h.asked ++ always) g) :
    Untouched p f h.state (keepInstalled sys stateDir always h files).2.state := by
  cases stateDir with
  | false => exact .refl _ _ _
  | true =>
    refine untouched_forgetUninstalled (fun hp => ?_) _ _
    obtain ⟨q, hq, hqp⟩ := List.mem_filterMap.mp hp
    obtain ⟨g, hg, rfl⟩ := List.mem_map.mp hq
    obtain ⟨hg, hdropped⟩ := List.mem_filter.mp hg
    rw [hkeep g hg hqp] at hdropped
    cases hdropped

theorem installBuilt_log (h : Host) (files : List Artifact) :
    LogIn files h (installBuilt sys stateDir always h files).host ∧
      Fewer h.state (installBuilt sys stateDir always h files).host.state := by
  rw [installBuilt]
  dsimp only
  split
  · exact ⟨⟨[], by simp, by simp⟩, .refl _⟩
  · have hfew := @fewer_keepInstalled sys stateDir always h files.eraseDups
    obtain ⟨⟨new, hlog, hfiles⟩, hfew'⟩ := @installPending_log sys stateDir
      (keepInstalled sys stateDir always h files.eraseDups).1.length
      (keepInstalled sys stateDir always h files.eraseDups).2 _ .empty
    refine ⟨⟨new, hlog, fun t ht f hf => ?_⟩, hfew.trans hfew'⟩
    exact List.mem_eraseDups.mp (List.mem_filter.mp (hfiles t ht hf)).1

/-- A file that is not handed over is skipped. -/
theorem installBuilt_skips (h : Host) (hmem : f ∉ files) :
    Skips f h (installBuilt sys stateDir always h files) := by
  obtain ⟨⟨new, hlog, hfiles⟩, -⟩ := @installBuilt_log sys stateDir always h files
  refine ⟨⟨new, hlog, fun t ht hft => hmem (hfiles t ht hft)⟩, ?_⟩
  rw [installBuilt]
  dsimp only
  split
  · rfl
  · refine (installPending_notInstalled _ _ _ (fun hf => hmem ?_) _).mpr rfl
    exact List.mem_eraseDups.mp (List.mem_filter.mp hf).1

variable (hread : sys.readPkgname f = some p)
include hread

/-- An install of other files does not touch a file. -/
theorem untouched_installBuilt (h : Host) (hmem : f ∉ files) (ho : Owned sys files h.state)
    (honly : Only sys p f files)
    (hf : ∀ e, h.state.reverted.get f.name = some e → e.pkgname = p) :
    Untouched p f h.state (installBuilt sys stateDir always h files).host.state := by
  have hnot : ∀ g ∈ files, sys.readPkgname g ≠ some p := fun g hg hp => hmem (honly g hg hp ▸ hg)
  have hsub : ∀ g ∈ files.eraseDups, g ∈ files := fun g hg => List.mem_eraseDups.mp hg
  rw [installBuilt]
  dsimp only
  split
  · exact .refl _ _ _
  · have hfew := @fewer_keepInstalled sys stateDir always h files.eraseDups
    have hstate := @untouched_keepInstalled sys stateDir f p files.eraseDups always h
      fun g hg hp => absurd hp (hnot g (hsub g hg))
    have hkept : ∀ g ∈ (keepInstalled sys stateDir always h files.eraseDups).1, g ∈ files :=
      fun g hg => hsub g (List.mem_filter.mp hg).1
    exact hstate.trans (untouched_installPending hread _ _ (fun hm => hmem (hkept f hm))
      (fun g hg e he => ho g (hkept g hg) e (hfew _ _ he)) (fun g hg => honly g (hkept g hg))
      fun e he => hf e (hfew _ _ he))

/-- A file that is handed over is dropped, installed or refused. -/
theorem installBuilt_settles (h : Host) (hmem : f ∈ files) (ho : Owned sys files h.state)
    (honly : Only sys p f files) :
    Skips f h (installBuilt sys stateDir always h files) ∨
      Accepts stateDir p f h (installBuilt sys stateDir always h files) ∨
      Refuses p f h (installBuilt sys stateDir always h files) := by
  have hsub : ∀ g ∈ files.eraseDups, g ∈ files := fun g hg => List.mem_eraseDups.mp hg
  have hin : f ∈ files.eraseDups := List.mem_eraseDups.mpr hmem
  rw [installBuilt]
  dsimp only
  rw [if_neg (List.ne_nil_of_mem hin)]
  have hfew := @fewer_keepInstalled sys stateDir always h files.eraseDups
  have hkept : ∀ g ∈ (keepInstalled sys stateDir always h files.eraseDups).1, g ∈ files :=
    fun g hg => hsub g (List.mem_filter.mp hg).1
  have ho' : Owned sys (keepInstalled sys stateDir always h files.eraseDups).1
      (keepInstalled sys stateDir always h files.eraseDups).2.state :=
    fun g hg e he => ho g (hkept g hg) e (hfew _ _ he)
  by_cases hkeeps : keeps sys (sys.allInstalled h.asked ++ always) f
  · right
    have hstate := @untouched_keepInstalled sys stateDir f p files.eraseDups always h
      fun g hg hp => honly g (hsub g hg) hp ▸ hkeeps
    refine (@installPending_settles sys f p stateDir _ .empty hread _ _ le_rfl
      (List.mem_filter.mpr ⟨hin, hkeeps⟩) ho' (fun g hg => honly g (hkept g hg)) rfl).imp
      (fun ha => ?_) fun hr => ?_
    · exact ⟨fun e he => ha.data e (he.of_untouched hstate), ha.log, ha.notInstalled⟩
    · exact ⟨hr.data.trans hstate.data, hr.log, hr.notInstalled⟩
  · left
    have hout : f ∉ (keepInstalled sys stateDir always h files.eraseDups).1 := fun hm =>
      hkeeps (List.mem_filter.mp hm).2
    obtain ⟨⟨new, hlog, hfiles⟩, -⟩ := @installPending_log sys stateDir
      (keepInstalled sys stateDir always h files.eraseDups).1.length
      (keepInstalled sys stateDir always h files.eraseDups).2
      (keepInstalled sys stateDir always h files.eraseDups).1 .empty
    refine ⟨⟨new, hlog, fun t ht hft => hout (hfiles t ht hft)⟩, ?_⟩
    exact (installPending_notInstalled _ _ _ hout _).mpr rfl

end InstallBuilt

end Sysforge.Install
