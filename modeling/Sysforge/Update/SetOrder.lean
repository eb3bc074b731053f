import Sysforge.Update.ToolchainDrift

/-!
# The order of the package set

`_assemble_package_set` fills the dictionary of packages from a Python set, so the packages of a
pkgbase come in any order. Three steps take what the first of them has: `group_by_pkgbase` its
entry, the version check the first recorded upstream commit, toolchain drift the first recorded
variant. `orderFree_iff_members` reads the independence of that order off the packages of each
pkgbase.
-/

namespace Sysforge.SetOrder

open BuildState OptOut Assemble VersionCheck ToolchainDrift

/-- What the assembly of the package set is given. -/
structure Scope where
  args : Args
  bs : BuildState
  env : Env
  optedOut : Rows

/-- What the later phases are given besides. -/
structure World where
  host : Host
  toolchain : Toolchain

section

variable (s : Scope) (w : World)

/-- The names of the set. -/
def targets : List String := targetNames s.args s.bs s.env s.optedOut

/-- The entry of a target. -/
def entryOf (n : String) : Package := package s.args s.bs s.env s.optedOut n

/-- The target is asked for, and no stage owns it. -/
def inScope (n : String) : Bool :=
  (decide (s.args.pkgnames = []) || n ∈ s.args.pkgnames) &&
    (stageOwned s.args s.bs s.env n).isNone

/-- The packages of `_assemble_package_set`, when the set is iterated in the given order. -/
def packagesIn (order : List String) : Dict String Package :=
  .ofItems ((order.filter (inScope s)).map fun n => (n, entryOf s n))

/-- One package of `group_by_pkgbase`. -/
def groupStep (g : Dict String (List String) × Dict String Package) (item : String × Package) :
    Dict String (List String) × Dict String Package :=
  let base := item.2.pkgbase item.1
  (g.1.set base ((g.1.get base).getD [] ++ [item.1]),
    if (g.2.get base).isSome then g.2 else g.2.set base item.2)

/-- `group_by_pkgbase`. -/
def groupByPkgbase (packages : Dict String Package) :
    Dict String (List String) × Dict String Package :=
  packages.items.foldl groupStep (.empty, .empty)

/-- The upstream commit that the first record with one has. -/
def builtCommit (pkgnames : List String) : Option String :=
  pkgnames.findSome? fun n => (s.bs.data.get n).bind fun e => truthy e.builtUpstreamCommit

/-- What an update decides for a pkgbase. -/
structure Decision where
  source : Option String
  repoClass : Option String
  pkgbuildDir : Option String
  check : Except Crash (Option UpdateResult)
  drift : Option (String × String)

/-- The decisions for a pkgbase with its packages and its entry; the result of the check without the
order of the packages. -/
def decisionFor (pkgbase : String) (pkgnames : List String) (p : Package) : Decision where
  source := p.entry.source
  repoClass := p.repoClass
  pkgbuildDir := p.entry.pkgbuildDir
  check := (checkOnePkgbase w.host s.env.installed pkgbase pkgnames p
    ((targets s).filter (unrecorded s.bs))
    (if w.host.forceDevel then builtCommit s pkgnames else none)).map
      fun r => r.map fun r => { r with pkgnames := [] }
  drift := toolchainDrift w.toolchain s.bs pkgnames

/-- The decisions of an update that iterates the set in the given order. -/
def decisions (order : List String) (pkgbase : String) : Option Decision :=
  let g := groupByPkgbase (packagesIn s order)
  match g.1.get pkgbase, g.2.get pkgbase with
  | some pkgnames, some p => some (decisionFor s w pkgbase pkgnames p)
  | _, _ => none

/-- The decisions do not depend on the order of the set. -/
def OrderFree : Prop :=
  ∀ order order', order.Perm (targets s) → order'.Perm (targets s) →
    ∀ pkgbase, decisions s w order pkgbase = decisions s w order' pkgbase

/-! ## The packages of a pkgbase -/

/-- The targets of a pkgbase, in the given order. -/
def members (order : List String) (pkgbase : String) : List String :=
  order.filter fun n => inScope s n && (entryOf s n).pkgbase n = pkgbase

/-- The decisions for the packages of a pkgbase in an order of theirs. -/
def decisionOf (pkgbase : String) (pkgnames : List String) : Option Decision :=
  pkgnames.head?.map fun n => decisionFor s w pkgbase pkgnames (entryOf s n)

end

variable {s : Scope} {w : World} {pkgbase : String} {l l' order : List String}

theorem nodup_targets : (targets s).Nodup := (s.env.installed.nodup.filter _).filter _

/-- One package joins the names of its pkgbase, and is its entry if it is the first. -/
theorem get_groupStep (g : Dict String (List String) × Dict String Package)
    (i : String × Package) :
    (i.2.pkgbase i.1 = pkgbase →
      (groupStep g i).1.get pkgbase = some ((g.1.get pkgbase).getD [] ++ [i.1]) ∧
        (groupStep g i).2.get pkgbase = (g.2.get pkgbase).or (some i.2)) ∧
    (i.2.pkgbase i.1 ≠ pkgbase → (groupStep g i).1.get pkgbase = g.1.get pkgbase ∧
      (groupStep g i).2.get pkgbase = g.2.get pkgbase) := by
  refine ⟨fun h => ?_, fun h => ?_⟩
  · subst h
    refine ⟨by rw [groupStep, Dict.get_set, if_pos rfl], ?_⟩
    dsimp only [groupStep]
    cases he : g.2.get (i.2.pkgbase i.1) with
    | none => rw [if_neg (by simp), Dict.get_set, if_pos rfl, Option.none_or]
    | some p => rw [if_pos (Option.isSome_some), he, Option.some_or]
  · refine ⟨by rw [groupStep, Dict.get_set, if_neg (Ne.symm h)], ?_⟩
    dsimp only [groupStep]
    by_cases he : (g.2.get (i.2.pkgbase i.1)).isSome = true
    · rw [if_pos he]
    · rw [if_neg he, Dict.get_set, if_neg (Ne.symm h)]

/-- Grouping lists the names of a pkgbase in their order, and takes the first entry. -/
theorem get_foldl_groupStep (items : List (String × Package))
    (g : Dict String (List String) × Dict String Package) :
    ((items.foldl groupStep g).1.get pkgbase).getD [] = (g.1.get pkgbase).getD [] ++
        (items.filter fun i => i.2.pkgbase i.1 = pkgbase).map Prod.fst ∧
      ((items.foldl groupStep g).1.get pkgbase = none ↔ g.1.get pkgbase = none ∧
        (items.filter fun i => i.2.pkgbase i.1 = pkgbase) = []) ∧
      (items.foldl groupStep g).2.get pkgbase = (g.2.get pkgbase).or
        ((items.filter fun i => i.2.pkgbase i.1 = pkgbase).head?.map Prod.snd) := by
  induction items generalizing g with
  | nil => exact ⟨(List.append_nil _).symm, by simp, (Option.or_none).symm⟩
  | cons i items ih =>
    obtain ⟨h₁, h₂, h₃⟩ := ih (groupStep g i)
    rw [List.foldl_cons, h₁, h₂, h₃]
    by_cases hi : i.2.pkgbase i.1 = pkgbase
    · obtain ⟨hn, hp⟩ := (get_groupStep g i).1 hi
      rw [List.filter_cons_of_pos (by simpa using hi), hn, hp]
      refine ⟨by simp, by simp, ?_⟩
      cases g.2.get pkgbase <;> rfl
    · obtain ⟨hn, hp⟩ := (get_groupStep g i).2 hi
      rw [List.filter_cons_of_neg (by simpa using hi), hn, hp]
      exact ⟨rfl, Iff.rfl, rfl⟩

theorem items_packagesIn (h : order.Nodup) :
    (packagesIn s order).items = (order.filter (inScope s)).map fun n => (n, entryOf s n) := by
  refine Dict.items_ofItems ?_
  rw [Assoc.keys, List.map_map]
  exact (List.map_id _).symm ▸ h.filter _

theorem filter_items_packagesIn :
    ((order.filter (inScope s)).map fun n => (n, entryOf s n)).filter
      (fun i => i.2.pkgbase i.1 = pkgbase) =
        (members s order pkgbase).map fun n => (n, entryOf s n) := by
  rw [List.filter_map, List.filter_filter, members]
  refine congrArg _ (List.filter_congr fun n _ => ?_)
  rw [Bool.and_comm]
  rfl

theorem decisions_eq (h : order.Nodup) :
    decisions s w order pkgbase = decisionOf s w pkgbase (members s order pkgbase) := by
  obtain ⟨h₁, h₂, h₃⟩ := @get_foldl_groupStep pkgbase
    ((order.filter (inScope s)).map fun n => (n, entryOf s n)) (.empty, .empty)
  rw [filter_items_packagesIn] at h₁ h₂ h₃
  rw [decisions, groupByPkgbase, items_packagesIn h, h₃, Dict.get_empty, Option.none_or, decisionOf]
  rw [Dict.get_empty, Option.getD_none, List.nil_append, List.map_map] at h₁
  have hid : (members s order pkgbase).map (Prod.fst ∘ fun n => (n, entryOf s n)) =
      members s order pkgbase := List.map_id _
  rw [hid] at h₁
  cases hm : members s order pkgbase with
  | nil =>
    rw [List.map_nil, List.head?_nil, Option.map_none, List.head?_nil, Option.map_none]
    split
    · next heq => cases heq
    · rfl
  | cons n l =>
    rw [hm] at h₁ h₂
    cases hg : (List.foldl groupStep (Dict.empty, Dict.empty)
        ((order.filter (inScope s)).map fun n => (n, entryOf s n))).1.get pkgbase with
    | none => exact absurd (h₂.mp hg).2 (List.cons_ne_nil _ _)
    | some names =>
      rw [hg, Option.getD_some] at h₁
      rw [h₁]
      rfl

theorem mem_members {n : String} : n ∈ members s order pkgbase ↔
    n ∈ order ∧ inScope s n = true ∧ (entryOf s n).pkgbase n = pkgbase := by
  rw [members, List.mem_filter, Bool.and_eq_true, decide_eq_true_eq]

/-- Every order of the packages of a pkgbase is the one of some order of the set. -/
theorem exists_order (h : l.Perm (members s (targets s) pkgbase)) :
    ∃ order, order.Perm (targets s) ∧ members s order pkgbase = l := by
  refine ⟨l ++ (targets s).filter fun n => !(inScope s n && (entryOf s n).pkgbase n = pkgbase),
    (h.append_right _).trans (List.filter_append_perm _ _), ?_⟩
  rw [members, List.filter_append, List.filter_eq_self.mpr, List.filter_filter,
    List.filter_eq_nil_iff.mpr, List.append_nil]
  · intro n _
    simp
  · intro n hn
    exact (List.mem_filter.mp (h.mem_iff.mp hn)).2

/-- The orders of the set matter through the orders of the packages of each pkgbase. -/
theorem orderFree_iff_members : OrderFree s w ↔ ∀ pkgbase l l',
    l.Perm (members s (targets s) pkgbase) → l'.Perm (members s (targets s) pkgbase) →
      decisionOf s w pkgbase l = decisionOf s w pkgbase l' := by
  constructor
  · intro h pkgbase l l' hl hl'
    obtain ⟨order, ho, rfl⟩ := exists_order hl
    obtain ⟨order', ho', rfl⟩ := exists_order hl'
    rw [← decisions_eq (ho.nodup_iff.mpr nodup_targets),
      ← decisions_eq (ho'.nodup_iff.mpr nodup_targets)]
    exact h order order' ho ho' pkgbase
  · intro h order order' ho ho' pkgbase
    rw [decisions_eq (ho.nodup_iff.mpr nodup_targets),
      decisions_eq (ho'.nodup_iff.mpr nodup_targets)]
    exact h pkgbase _ _ (ho.filter _) (ho'.filter _)

/-! ## Packages of one mind -/

section

variable (s : Scope)

/-- The upstream commit that the record of a package has. -/
def commitOf (n : String) : Option String :=
  (s.bs.data.get n).bind fun e => truthy e.builtUpstreamCommit

/-- The stamp of the record of a package. -/
def stampOf (n : String) : Option Stamp :=
  (s.bs.data.get n).bind fun e => e.toolchainVariant.map (stamp e)

/-- The version and the revision that the entry of a package records. -/
def buildOf (n : String) : Option String × String × String :=
  let e := (entryOf s n).entry
  (recordedVer e, revision e.pkgrel e.epoch)

/-- A package could be spared the evaluation of `pkgver()` for the given commit: its entry's
version is one that is installed. -/
def Ready (names : List String) (i j c : String) : Prop :=
  (entryOf s i).repoClass ≠ some "pacman" ∧ (entryOf s i).entry.pkgbuildDir ≠ none ∧
    ((commitOf s i).or (commitOf s j) = some c ∧ isSha1 c.toList = true) ∧
      ∃ m ∈ names, s.env.installed.get m = (buildOf s i).1 ∧ (buildOf s i).1 ≠ none

/-- The packages of a pkgbase agree on what the three steps take from the first of them. -/
structure MembersAgree (pkgbase : String) (names : List String) : Prop where
  source : ∀ i ∈ names, ∀ j ∈ names, (entryOf s i).entry.source = (entryOf s j).entry.source
  target : ∀ i ∈ names, ∀ j ∈ names, SameTarget pkgbase (entryOf s i) (entryOf s j)
  build : isVcsPkgbase pkgbase = true → ∀ i ∈ names, ∀ j ∈ names, ∀ c, Ready s names i j c →
    ∀ k ∈ names, buildOf s k = buildOf s i ∧ (commitOf s k = none ∨ commitOf s k = some c)
  stamp : ∀ i ∈ names, ∀ j ∈ names, ∀ a b, stampOf s i = some a → stampOf s j = some b → a = b

/-- `checkupdates` lists one newest version for the packages of a pacman-class pkgbase. -/
def OneListed (w : World) (names : List String) : Prop :=
  ∀ updates, w.host.pacmanUpdates = some updates → ∀ i ∈ names,
    (entryOf s i).repoClass = some "pacman" →
      OneNewest w.host.vercmp (names.filterMap updates.get)

end

theorem builtCommit_eq_some {c : String} (h : builtCommit s l = some c) :
    ∃ j ∈ l, commitOf s j = some c := List.exists_of_findSome?_eq_some h

theorem builtCommit_isSome {j : String} (hj : j ∈ l) (hc : (commitOf s j).isSome = true) :
    (builtCommit s l).isSome = true := by
  rw [builtCommit, List.findSome?_isSome_iff]
  exact ⟨j, hj, hc⟩

theorem stampedRecord_eq_some {r : Entry × String} (h : stampedRecord s.bs l = some r) :
    ∃ j ∈ l, stampOf s j = some (stamp r.1 r.2) := by
  obtain ⟨j, hj, h⟩ := List.exists_of_findSome?_eq_some h
  obtain ⟨e, he, h⟩ := Option.bind_eq_some_iff.mp h
  obtain ⟨v, hv, rfl⟩ := Option.map_eq_some_iff.mp h
  exact ⟨j, hj, by rw [stampOf, he, Option.bind_some, hv, Option.map_some]⟩

theorem stampedRecord_eq_none :
    stampedRecord s.bs l = none ↔ ∀ j ∈ l, stampOf s j = none := by
  rw [stampedRecord, List.findSome?_eq_none_iff]
  refine forall₂_congr fun j _ => ?_
  rw [stampOf]
  cases s.bs.data.get j with
  | none => exact iff_of_true rfl rfl
  | some e =>
    rw [Option.bind_some, Option.bind_some, Option.map_eq_none_iff, Option.map_eq_none_iff]

section

variable {names : List String} (ha : MembersAgree s pkgbase names) (hl : l.Perm names)
  (hl' : l'.Perm names)

include ha hl hl'

theorem MembersAgree.toolchainDrift_eq (t : Toolchain) :
    toolchainDrift t s.bs l = toolchainDrift t s.bs l' := by
  rw [toolchainDrift, toolchainDrift]
  by_cases ht : t.activeVariant = "system"
  · rw [if_pos ht, if_pos ht]
  rw [if_neg ht, if_neg ht]
  cases h : stampedRecord s.bs l with
  | none =>
    have h' : stampedRecord s.bs l' = none := stampedRecord_eq_none.mpr fun j hj =>
      stampedRecord_eq_none.mp h j (hl.mem_iff.mpr (hl'.mem_iff.mp hj))
    rw [h']
  | some r =>
    obtain ⟨i, hi, hri⟩ := stampedRecord_eq_some h
    cases h' : stampedRecord s.bs l' with
    | none =>
      rw [stampedRecord_eq_none.mp h' i (hl'.mem_iff.mpr (hl.mem_iff.mp hi))] at hri
      cases hri
    | some r' =>
      obtain ⟨j, hj, hrj⟩ := stampedRecord_eq_some h'
      exact recordDrift_congr (ha.stamp i (hl.mem_iff.mp hi) j (hl'.mem_iff.mp hj) _ _ hri hrj) ht

theorem MembersAgree.upstreamUnmoved_of {h : Host} {n n' : String} {c : Checked}
    (hn : n ∈ names) (hn' : n' ∈ names) (hhead : l.head? = some n)
    (hv : isVcsPkgbase pkgbase = true)
    (hc : prepare h s.env.installed pkgbase l (entryOf s n) = .compare c)
    (hu : upstreamUnmoved h pkgbase (entryOf s n) (builtCommit s l) c = true) :
    upstreamUnmoved h pkgbase (entryOf s n') (builtCommit s l') c = true := by
  obtain ⟨hclass, hdir, -, -, hver⟩ := prepare_compare hc
  simp only [upstreamUnmoved, Bool.and_eq_true, decide_eq_true_eq] at hu ⊢
  obtain ⟨⟨⟨hsome, hrec⟩, hrev⟩, hpeek⟩ := hu
  obtain ⟨sha, hsha⟩ := Option.isSome_iff_exists.mp hsome
  obtain ⟨j, hj, hcommit⟩ : ∃ j ∈ l, (commitOf s n).or (commitOf s j) = some sha := by
    cases hcn : commitOf s n with
    | none =>
      obtain ⟨j, hj, hcj⟩ := builtCommit_eq_some hsha
      exact ⟨j, hj, by rw [Option.none_or, hcj]⟩
    | some cn =>
      refine ⟨n, List.mem_of_mem_head? hhead, ?_⟩
      rw [Option.some_or, ← hsha, builtCommit, ← List.cons_head?_tail hhead,
        List.findSome?_cons_of_isSome (by rw [← commitOf, hcn]; rfl), ← commitOf, hcn]
  obtain ⟨m, hm, hget⟩ := comparedVer_eq_some hver
  have hready : Ready s names n j sha := by
    refine ⟨hclass, hdir ▸ Option.some_ne_none _, ⟨hcommit, ?_⟩, m, hl.mem_iff.mp hm, ?_, ?_⟩
    · exact peekUpstreamCommit_sha (hpeek.trans hsha)
    · rw [hget, buildOf, hrec]
    · rw [buildOf, hrec]
      exact Option.some_ne_none _
  have hall := ha.build hv n hn j (hl.mem_iff.mp hj) sha hready
  have hbuild := (hall n' hn').1
  have hsome' : (builtCommit s l').isSome = true := by
    obtain ⟨j', hj', hcj'⟩ := builtCommit_eq_some hsha
    exact builtCommit_isSome (hl'.mem_iff.mpr (hl.mem_iff.mp hj')) (by rw [hcj']; rfl)
  obtain ⟨sha', hsha'⟩ := Option.isSome_iff_exists.mp hsome'
  have heq : sha' = sha := by
    obtain ⟨j', hj', hcj'⟩ := builtCommit_eq_some hsha'
    rcases (hall j' (hl'.mem_iff.mp hj')).2 with hnone | hsame
    · rw [hcj'] at hnone
      cases hnone
    · exact Option.some.inj (hcj'.symm.trans hsame)
  refine ⟨⟨⟨hsome', ?_⟩, ?_⟩, ?_⟩
  · rw [← hrec]
    exact congrArg Prod.fst hbuild
  · rw [hrev]
    exact (congrArg Prod.snd hbuild).symm
  · rw [hpeek, hsha, hsha', heq]

theorem MembersAgree.verdict_eq {n n' : String} (hn : l.head? = some n) (hn' : l'.head? = some n')
    (hone : OneListed s w names) :
    verdict w.host s.env.installed pkgbase l (entryOf s n)
        (if w.host.forceDevel then builtCommit s l else none) =
      verdict w.host s.env.installed pkgbase l' (entryOf s n')
        (if w.host.forceDevel then builtCommit s l' else none) := by
  have hmem := hl.mem_iff.mp (List.mem_of_mem_head? hn)
  have hmem' := hl'.mem_iff.mp (List.mem_of_mem_head? hn')
  have hprep := @prepare_perm w.host s.env.installed pkgbase l l' (entryOf s n) (entryOf s n')
    (hl.trans hl'.symm) (ha.target n hmem n' hmem') fun hc updates hu =>
      (hone updates hu n hmem hc).perm (hl.symm.filterMap updates.get)
  rw [verdict, verdict, ← hprep]
  cases hc : prepare w.host s.env.installed pkgbase l (entryOf s n) with
  | done r => rfl
  | compare c =>
    have hc' := hprep.symm.trans hc
    dsimp only
    rw [VersionCheck.compare, VersionCheck.compare]
    by_cases hv : isVcsPkgbase pkgbase = true
    swap
    · rw [if_neg hv, if_neg hv]
    have hu : upstreamUnmoved w.host pkgbase (entryOf s n)
          (if w.host.forceDevel then builtCommit s l else none) c =
        upstreamUnmoved w.host pkgbase (entryOf s n')
          (if w.host.forceDevel then builtCommit s l' else none) c := by
      by_cases hf : w.host.forceDevel = true
      swap
      · rw [if_neg hf, if_neg hf]
        rfl
      rw [if_pos hf, if_pos hf, Bool.eq_iff_iff]
      exact ⟨fun hu => ha.upstreamUnmoved_of hl hl' hmem hmem' hn hv hc hu,
        fun hu => ha.upstreamUnmoved_of hl' hl hmem' hmem hn' hv hc' hu⟩
    rw [if_pos hv, if_pos hv, hu]

/-- Packages that agree decide the same in every order. -/
theorem MembersAgree.decisionOf_eq (hone : OneListed s w names) :
    decisionOf s w pkgbase l = decisionOf s w pkgbase l' := by
  have hlen : l.length = l'.length := (hl.trans hl'.symm).length_eq
  rw [decisionOf, decisionOf]
  cases hn : l.head? with
  | none =>
    rw [List.head?_eq_none_iff.mp hn, List.length_nil] at hlen
    rw [List.length_eq_zero_iff.mp hlen.symm, List.head?_nil]
    rfl
  | some n =>
    cases hn' : l'.head? with
    | none =>
      rw [List.head?_eq_none_iff.mp hn', List.length_nil] at hlen
      rw [List.length_eq_zero_iff.mp hlen] at hn
      cases hn
    | some n' =>
      have hmem := hl.mem_iff.mp (List.mem_of_mem_head? hn)
      have hmem' := hl'.mem_iff.mp (List.mem_of_mem_head? hn')
      have htarget := ha.target n hmem n' hmem'
      have hany : ∀ names : List String, l.any (· ∈ names) = l'.any (· ∈ names) :=
        fun names => (hl.trans hl'.symm).any_eq
      rw [Option.map_some, Option.map_some, decisionFor, decisionFor, checkOnePkgbase,
        checkOnePkgbase, ha.verdict_eq hl hl' hn hn' hone, ha.toolchainDrift_eq hl hl',
        ha.source n hmem n' hmem', htarget.repoClass, htarget.pkgbuildDir, hany]
      congr 2
      cases verdict w.host s.env.installed pkgbase l' (entryOf s n')
        (if w.host.forceDevel then builtCommit s l' else none) with
      | error e => rfl
      | ok r => cases r <;> rfl

end

end Sysforge.SetOrder
