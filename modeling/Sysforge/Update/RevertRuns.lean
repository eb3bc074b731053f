import Sysforge.Update.OptOutRuns
import Sysforge.Update.Revert

/-!
# What a revert leaves installed

A revert is complete when no installed member of a reverted renamed build stays under its renamed
name, the stock package of each such member is installed, and no record is deleted of a package
that stays installed as a build. A conflict-mode set is swapped as a whole; a coexist target is not:
only the one package that the target reaches is removed, and `forget_packages` still drops the
records of its siblings. `revert_complete` gives the exact condition on one target, and shows that
any list of such targets is reverted completely unless one removes what another put back.
-/

namespace Sysforge.Revert

open BuildState OptOut

variable {bs : BuildState} {entries : Dict String Entry} {ps : Packages} {m : Machine}
  {p : RevertPlan} {e e' : Entry} {k n now t : String} {names targets : List String} {w : Window}
  {rows : OptOut.Rows}

/-! ## One plan and the packages -/

/-- The names that a plan installs from the repository. -/
def fetched (p : RevertPlan) : List String :=
  match p.action with
  | .derename => p.stockPkg.toList
  | .replace => p.members.map Prod.snd
  | .reinstall | .skip => reinstallNames p

/-- The names that a plan asks `forget_packages` to forget. -/
def acted (p : RevertPlan) : List String :=
  match p.action with
  | .derename => p.pkgname.toList
  | .replace => p.members.map Prod.fst
  | .reinstall | .skip => reinstallNames p

/-- A plan removes the package. -/
def drops (entries : Dict String Entry) (p : RevertPlan) (n : String) (o : Origin) : Bool :=
  match p.action with
  | .derename => decide (n ∈ p.pkgname.toList)
  | .replace => decide (o = .built) && (p.members.map Prod.snd).any (declares entries n)
  | .reinstall | .skip => false

theorem get_reinstallRepoPkgs :
    (reinstallRepoPkgs ps names).get n = if n ∈ names then some .repo else ps.get n := by
  induction names generalizing ps with
  | nil => rfl
  | cons a names ih =>
    rw [reinstallRepoPkgs, List.foldl_cons]
    refine ih.trans ?_
    rw [Dict.get_set]
    by_cases hn : n ∈ names
    · rw [if_pos hn, if_pos (List.mem_cons_of_mem a hn)]
    · rw [if_neg hn]
      refine if_congr ?_ rfl rfl
      rw [List.mem_cons, or_iff_left hn]

theorem get_replacePkgs : (replacePkgs entries ps names).get n =
    if n ∈ names then some .repo
    else (ps.get n).filter fun o => !(decide (o = .built) && names.any (declares entries n)) := by
  rw [replacePkgs, Dict.get_filter, get_reinstallRepoPkgs]
  by_cases hn : n ∈ names
  · rw [if_pos hn, if_pos hn]
    rfl
  · rw [if_neg hn, if_neg hn]

/-- What a plan makes of each package. -/
theorem get_applyPlan : (applyPlan entries now m p).packages.get n =
    if n ∈ fetched p then some .repo
    else (m.packages.get n).filter fun o => !drops entries p n o := by
  unfold applyPlan fetched drops
  cases p.action with
  | derename =>
    dsimp only
    rw [get_reinstallRepoPkgs]
    refine if_congr Iff.rfl rfl ?_
    rw [removePkgs, Dict.get_foldl_erase]
    cases hg : m.packages.get n with
    | none => simp
    | some o => by_cases hn : n ∈ p.pkgname.toList <;> simp [hn, Option.filter_some]
  | replace => exact get_replacePkgs
  | reinstall | skip =>
    dsimp only
    rw [get_reinstallRepoPkgs]
    refine if_congr Iff.rfl rfl ?_
    cases m.packages.get n with
    | none => rfl
    | some o => rfl

/-- No build of the package is left. -/
def Out (entries : Dict String Entry) (p : RevertPlan) (n : String) : Prop :=
  n ∈ fetched p ∨ drops entries p n .built = true

theorem get_applyPlan_ne_built : (applyPlan entries now m p).packages.get n ≠ some .built ↔
    (m.packages.get n = some .built → Out entries p n) := by
  rw [get_applyPlan, Out]
  by_cases hn : n ∈ fetched p
  · simp [hn]
  · cases hg : m.packages.get n with
    | none => simp [hn]
    | some o => cases o <;> cases hd : drops entries p n .built <;> simp [hn, hd]

theorem get_applyPlan_eq_repo : (applyPlan entries now m p).packages.get n = some .repo ↔
    n ∈ fetched p ∨ m.packages.get n = some .repo ∧ drops entries p n .repo = false := by
  rw [get_applyPlan]
  by_cases hn : n ∈ fetched p
  · simp [hn]
  · cases hg : m.packages.get n with
    | none => simp [hn]
    | some o => cases o <;> cases hd : drops entries p n .repo <;> simp [hn, hd]

/-! ## One plan and the records -/

theorem mem_keys_of_get {β : Type*} {d : Dict String β} {v : β} (h : d.get n = some v) :
    n ∈ d.keys := by
  by_contra hno
  rw [Dict.get_eq_none.mpr hno] at h
  cases h

/-- The package is recorded under the pkgbase. -/
def Under (entries : Dict String Entry) (b n : String) : Prop :=
  ∃ e, entries.get n = some e ∧ e.pkgbase = some b

theorem mem_keys_of_under {b : String} (h : Under entries b n) : n ∈ entries.keys := by
  obtain ⟨e, he, -⟩ := h
  exact mem_keys_of_get he

/-- `forget_packages` of the names drops the record of the package. -/
def Forgets (entries : Dict String Entry) (names : List String) (n : String) : Prop :=
  n ∈ entries.keys ∧ ∃ a ∈ names, n = a ∨ Under entries a n

theorem mem_forgetTargets {a : String} :
    n ∈ forgetTargets entries a ↔ n ∈ entries.keys ∧ (n = a ∨ Under entries a n) := by
  rw [forgetTargets, mem_sortedSet, List.mem_filter, Under]
  refine and_congr_right' ?_
  cases entries.get n <;> simp

/-- `forget_packages` drops one record. -/
def dropRecord (s : Forgotten) (pn : String) : Forgotten :=
  { s with
    bs := s.bs.delete pn
    forgotten := if pn ∈ s.bs.data.keys then s.forgotten ++ [pn] else s.forgotten }

theorem get_foldl_dropRecord {s : Forgotten} {ns : List String} :
    (ns.foldl dropRecord s).bs.data.get n = if n ∈ ns then none else s.bs.data.get n := by
  induction ns generalizing s with
  | nil => rfl
  | cons a ns ih =>
    rw [List.foldl_cons, ih]
    by_cases hn : n ∈ ns
    · rw [if_pos hn, if_pos (List.mem_cons_of_mem a hn)]
    · rw [if_neg hn, dropRecord, BuildState.delete, Dict.get_erase]
      refine if_congr ?_ rfl rfl
      rw [List.mem_cons, or_iff_left hn]

/-- A fold that forgets nothing dropped no record. -/
theorem get_of_forgotten_eq_nil {s : Forgotten} {ns : List String}
    (h : (ns.foldl dropRecord s).forgotten = []) :
    s.forgotten = [] ∧ ∀ n, (ns.foldl dropRecord s).bs.data.get n = s.bs.data.get n := by
  induction ns generalizing s with
  | nil => exact ⟨h, fun _ => rfl⟩
  | cons a ns ih =>
    obtain ⟨hs, hget⟩ := ih h
    rw [dropRecord] at hs
    dsimp only at hs
    by_cases ha : a ∈ s.bs.data.keys
    · rw [if_pos ha] at hs
      exact absurd hs (List.append_ne_nil_of_right_ne_nil _ (List.cons_ne_nil a []))
    · rw [if_neg ha] at hs
      refine ⟨hs, fun n => (hget n).trans ?_⟩
      rw [dropRecord, BuildState.delete, Dict.get_erase]
      by_cases hn : n = a
      · rw [if_pos hn, hn, Dict.get_eq_none.mpr ha]
      · rw [if_neg hn]

theorem forgetName_eq (s : Forgotten) (a : String) :
    (forgetName entries s a).bs = ((forgetTargets entries a).foldl dropRecord s).bs ∧
      (forgetName entries s a).forgotten =
        ((forgetTargets entries a).foldl dropRecord s).forgotten := by
  unfold forgetName
  cases forgetTargets entries a with
  | nil => exact ⟨rfl, rfl⟩
  | cons b ns => exact ⟨rfl, rfl⟩

theorem get_foldl_forgetName {s : Forgotten} : (names.foldl (forgetName entries) s).bs.data.get n =
    if ∃ a ∈ names, n ∈ forgetTargets entries a then none else s.bs.data.get n := by
  induction names generalizing s with
  | nil => exact (if_neg (by simp)).symm
  | cons a names ih =>
    rw [List.foldl_cons, ih, (forgetName_eq s a).1, get_foldl_dropRecord]
    by_cases hn : ∃ a ∈ names, n ∈ forgetTargets entries a
    · rw [if_pos hn, if_pos (hn.imp fun _ h => ⟨List.mem_cons_of_mem a h.1, h.2⟩)]
    · rw [if_neg hn]
      refine if_congr ?_ rfl rfl
      simp only [List.mem_cons, exists_eq_or_imp, or_iff_left hn]

theorem get_of_forgetNames_eq_nil {s : Forgotten}
    (h : (names.foldl (forgetName entries) s).forgotten = []) :
    s.forgotten = [] ∧
      ∀ n, (names.foldl (forgetName entries) s).bs.data.get n = s.bs.data.get n := by
  induction names generalizing s with
  | nil => exact ⟨h, fun _ => rfl⟩
  | cons a names ih =>
    obtain ⟨hs, hget⟩ := ih h
    rw [(forgetName_eq s a).2] at hs
    obtain ⟨hs, hget'⟩ := get_of_forgotten_eq_nil hs
    refine ⟨hs, fun n => (hget n).trans ?_⟩
    rw [(forgetName_eq s a).1]
    exact hget' n

theorem data_foldl_clearFailure (bases : List String) (bs : BuildState) :
    (bases.foldl clearFailure bs).data = bs.data := by
  induction bases generalizing bs with
  | nil => rfl
  | cons b bases ih => exact ih _

/-- The records after `forget_packages`. -/
theorem get_forgetPackages {s : OptOut.State} {optOut : Option String} :
    (forgetPackages s names optOut now).2.bs.data.get n =
      if ∃ a ∈ names, n ∈ forgetTargets s.bs.data a then none else s.bs.data.get n := by
  rw [← get_foldl_forgetName (s := ⟨s.bs, [], []⟩), forgetPackages]
  dsimp only
  split_ifs with h
  · exact ((get_of_forgetNames_eq_nil h.1).2 n).symm
  · rw [clearUntrackedFailures]
    dsimp only
    rw [data_foldl_clearFailure]
    rfl

theorem mem_keys_forgetPackages {s : OptOut.State} {optOut : Option String} :
    n ∈ (forgetPackages s names optOut now).2.bs.data.keys ↔
      n ∈ s.bs.data.keys ∧ ¬Forgets s.bs.data names n := by
  have hget : n ∈ (forgetPackages s names optOut now).2.bs.data.keys ↔
      (∀ a ∈ names, n ∉ forgetTargets s.bs.data a) ∧ n ∈ s.bs.data.keys := by
    rw [← not_iff_not, ← Dict.get_eq_none, get_forgetPackages]
    split_ifs with h
    · exact iff_of_true rfl fun hall => h.elim fun a ha => hall.1 a ha.1 ha.2
    · rw [Dict.get_eq_none]
      refine not_congr (iff_and_self.mpr fun _ a ha hn => h ⟨a, ha, hn⟩)
  rw [hget, and_comm]
  refine and_congr_right fun hn => ?_
  simp only [mem_forgetTargets, Forgets, hn, true_and, not_exists, not_and]

theorem forgetPackages_starts {s : OptOut.State} {optOut : Option String}
    (h : (forgetPackages s names optOut now).2.bs.data.get n = some e) :
    s.bs.data.get n = some e := by
  rw [get_forgetPackages] at h
  split_ifs at h
  exact h

theorem files_applyPlan : (applyPlan entries now m p).files =
    (forgetPackages m.files (acted p) (some "revert") now).2 := by
  unfold applyPlan acted
  cases p.action <;> rfl

/-! ## The run over the plans -/

/-- A record of the state before the revert. -/
def Older (entries : Dict String Entry) (m : Machine) : Prop :=
  ∀ n e, m.files.bs.data.get n = some e → entries.get n = some e

theorem older_applyPlan (h : Older entries m) : Older entries (applyPlan entries now m p) := by
  intro n e he
  rw [files_applyPlan] at he
  exact h n e (forgetPackages_starts he)

theorem Forgets.mono (h : Older entries m) (hf : Forgets m.files.bs.data names n) :
    Forgets entries names n := by
  have hkey : ∀ n, n ∈ m.files.bs.data.keys → n ∈ entries.keys := by
    intro n hn
    cases hg : m.files.bs.data.get n with
    | none => exact absurd hn (Dict.get_eq_none.mp hg)
    | some e => exact mem_keys_of_get (h n e hg)
  obtain ⟨hk, a, ha, hn⟩ := hf
  refine ⟨hkey n hk, a, ha, hn.imp_right ?_⟩
  rintro ⟨e, he, hb⟩
  exact ⟨e, h n e he, hb⟩

/-- No plan brings a build back. -/
theorem ne_built_foldl {plans : List RevertPlan} (h : m.packages.get n ≠ some .built) :
    (plans.foldl (applyPlan entries now) m).packages.get n ≠ some .built := by
  induction plans generalizing m with
  | nil => exact h
  | cons p plans ih => exact ih (get_applyPlan_ne_built.mpr fun hb => absurd hb h)

/-- A build that one of the plans takes out is gone in the end. -/
theorem ne_built_of_out {plans : List RevertPlan} (hp : p ∈ plans) (h : Out entries p n) :
    (plans.foldl (applyPlan entries now) m).packages.get n ≠ some .built := by
  induction plans generalizing m with
  | nil => cases hp
  | cons q plans ih =>
    rcases List.mem_cons.mp hp with rfl | hp
    · exact ne_built_foldl (m := applyPlan entries now m p)
        (get_applyPlan_ne_built.mpr fun _ => h)
    · exact ih hp

/-- A stock package stays, when each plan that removes it puts it back. -/
theorem repo_foldl {plans : List RevertPlan} (h : m.packages.get n = some .repo)
    (hkeep : ∀ p ∈ plans, drops entries p n .repo = true → n ∈ fetched p) :
    (plans.foldl (applyPlan entries now) m).packages.get n = some .repo := by
  induction plans generalizing m with
  | nil => exact h
  | cons p plans ih =>
    refine ih (get_applyPlan_eq_repo.mpr ?_) fun q hq => hkeep q (List.mem_cons_of_mem p hq)
    by_cases hd : drops entries p n .repo = true
    · exact .inl (hkeep p List.mem_cons_self hd)
    · exact .inr ⟨h, Bool.not_eq_true _ ▸ hd⟩

theorem repo_of_fetched {plans : List RevertPlan} (hp : p ∈ plans) (h : n ∈ fetched p)
    (hkeep : ∀ p ∈ plans, drops entries p n .repo = true → n ∈ fetched p) :
    (plans.foldl (applyPlan entries now) m).packages.get n = some .repo := by
  induction plans generalizing m with
  | nil => cases hp
  | cons q plans ih =>
    have hkeep' : ∀ p ∈ plans, drops entries p n .repo = true → n ∈ fetched p :=
      fun r hr => hkeep r (List.mem_cons_of_mem q hr)
    rcases List.mem_cons.mp hp with rfl | hp
    · exact repo_foldl (m := applyPlan entries now m p) (get_applyPlan_eq_repo.mpr (.inl h)) hkeep'
    · exact ih hp hkeep'

/-- A record that the run dropped was forgotten by one of its plans. -/
theorem forgets_of_notMem {plans : List RevertPlan} (h : Older entries m)
    (hn : n ∈ m.files.bs.data.keys)
    (hgone : n ∉ (plans.foldl (applyPlan entries now) m).files.bs.data.keys) :
    ∃ p ∈ plans, Forgets entries (acted p) n := by
  induction plans generalizing m with
  | nil => exact absurd hn hgone
  | cons p plans ih =>
    by_cases hp : n ∈ (applyPlan entries now m p).files.bs.data.keys
    · obtain ⟨q, hq, hf⟩ := ih (older_applyPlan h) hp hgone
      exact ⟨q, List.mem_cons_of_mem p hq, hf⟩
    · rw [files_applyPlan, mem_keys_forgetPackages, not_and, not_not] at hp
      exact ⟨p, List.mem_cons_self, (hp hn).mono h⟩

theorem keys_demote (s : BuildState) (a : String) :
    n ∈ (demote s a).data.keys ↔ n ∈ s.data.keys := by
  unfold demote
  cases hg : s.data.get a with
  | none => rfl
  | some e =>
    dsimp only
    split_ifs
    · rfl
    · rw [Dict.mem_keys_set, or_iff_right_of_imp]
      rintro rfl
      exact mem_keys_of_get hg

theorem keys_consumeExternalInstalls :
    n ∈ (consumeExternalInstalls bs w).data.keys ↔ n ∈ bs.data.keys := by
  have hfold : ∀ (as : List String) (s : BuildState),
      n ∈ (as.foldl demote s).data.keys ↔ n ∈ s.data.keys := by
    intro as
    induction as with
    | nil => exact fun _ => Iff.rfl
    | cons a as ih => exact fun s => (ih (demote s a)).trans (keys_demote s a)
  rw [consumeExternalInstalls, reconcileExternalInstalls, hfold, data_foldl_clearFailure]

/-! ## Complete reverts -/

/-- The target reaches a record that is not stock already. -/
def Reaches (bs : BuildState) (t k : String) (e : Entry) : Prop :=
  k = bs.resolveInstalledName t ∧ bs.data.get k = some e ∧
    ¬(e.buildMode = none ∨ e.buildMode = some "pacman")

/-- The package is recorded with the pkgbase of the key, or is the key. -/
def Member (entries : Dict String Entry) (k n : String) (e : Entry) : Prop :=
  entries.get n = some e ∧ (n = k ∨ n ∈ siblings entries k)

/-- The stock name of a build: a coexisting build has its pkgbase in its name in the place of the
stock pkgbase, any other carries the suffix. -/
def stockOf (e : Entry) (n : String) : String :=
  match renameModeForBuildMode e.buildMode, e.pkgbase.filter (· ≠ ""),
    e.originPkgbase.filter (· ≠ "") with
  | .coexist, some b, some o =>
    if b.toList.isPrefixOf n.toList then o ++ String.ofList (n.toList.drop b.toList.length)
    else stockName n
  | _, _, _ => stockName n

/-- The package is installed as a build, and belongs to the renamed build that the target names. -/
def Reverts (bs : BuildState) (ps : Packages) (t n : String) (e' : Entry) : Prop :=
  ∃ k e, Reaches bs t k e ∧ isRenamedBuild e = true ∧ Member bs.data k n e' ∧
    ps.get n = some .built

/-- **The revert is complete**: no member of a reverted renamed build is left as a build, the stock
package of each is installed, and no record is lost of a package that is left as a build. -/
structure Complete (bs : BuildState) (ps : Packages) (targets : List String) (m : Machine) :
    Prop where
  removed : ∀ t ∈ targets, ∀ n e', Reverts bs ps t n e' → m.packages.get n ≠ some .built
  restocked : ∀ t ∈ targets, ∀ n e', Reverts bs ps t n e' →
    m.packages.get (stockOf e' n) = some .repo
  forgotten : ∀ n ∈ bs.data.keys, n ∉ m.files.bs.data.keys → m.packages.get n ≠ some .built

/-- A plan does all that a complete revert of its target needs. -/
structure Handles (bs : BuildState) (ps : Packages) (t : String) (p : RevertPlan) : Prop where
  out : ∀ n e', Reverts bs ps t n e' → Out bs.data p n
  stock : ∀ n e', Reverts bs ps t n e' → stockOf e' n ∈ fetched p ∨
    ps.get (stockOf e' n) = some .repo ∧ drops bs.data p (stockOf e' n) .repo = false
  forgot : ∀ n, Forgets bs.data (acted p) n → ps.get n = some .built → Out bs.data p n

/-- The target has a plan that acts. -/
def Acts (bs : BuildState) (ps : Packages) (t : String) : Prop :=
  (planTarget bs ps.keys t).action ≠ .skip

theorem mem_plans : p ∈ (planRevert bs targets ps.keys).filter (fun p => p.action ≠ .skip) ↔
    ∃ t ∈ targets, Acts bs ps t ∧ planTarget bs ps.keys t = p := by
  rw [planRevert, List.mem_filter, List.mem_map, decide_eq_true_iff]
  constructor
  · rintro ⟨⟨t, ht, rfl⟩, hact⟩
    exact ⟨t, ht, hact, rfl⟩
  · rintro ⟨t, ht, hact, rfl⟩
    exact ⟨⟨t, ht, rfl⟩, hact⟩

theorem planTarget_of_reaches (names : List String) (h : Reaches bs t k e) : planTarget bs names t =
    if isRenamedBuild e then
      if renameModeForBuildMode e.buildMode = .conflict then
        ⟨t, .replace,
          some ((((replaceMembers bs.data k e names).find? fun m => m.2 = originOr e k).map
            Prod.fst).getD k), some (originOr e k),
          "reinstall stock " ++ commas ((replaceMembers bs.data k e names).map Prod.snd) ++
            " (atomically replaces conflict-mode " ++
              commas ((replaceMembers bs.data k e names).map Prod.fst) ++ ")",
          replaceMembers bs.data k e names⟩
      else
        ⟨t, .derename, some k, some (originOr e k),
          "remove renamed " ++ k ++ ", reinstall stock " ++ originOr e k, []⟩
    else
      ⟨t, .reinstall, some k, some k,
        "reinstall repo " ++ commas ((reinstallMembers bs.data k e names).map Prod.fst),
        reinstallMembers bs.data k e names⟩ := by
  obtain ⟨rfl, hget, hmode⟩ := h
  rw [planTarget]
  dsimp only
  rw [hget]
  dsimp only
  rw [if_neg hmode]

theorem acts_iff : Acts bs ps t ↔ ∃ k e, Reaches bs t k e := by
  constructor
  · intro h
    rw [Acts, planTarget] at h
    cases hget : bs.data.get (bs.resolveInstalledName t) with
    | none =>
      dsimp only at h
      rw [hget] at h
      exact absurd rfl h
    | some e =>
      refine ⟨_, e, rfl, hget, fun hmode => ?_⟩
      dsimp only at h
      rw [hget] at h
      dsimp only at h
      rw [if_pos hmode] at h
      exact h rfl
  · rintro ⟨k, e, h⟩
    rw [Acts, planTarget_of_reaches _ h]
    split_ifs <;> exact fun h => nomatch h

theorem acts_of_reverts (h : Reverts bs ps t n e') : Acts bs ps t := by
  obtain ⟨k, e, h, -⟩ := h
  exact acts_iff.mpr ⟨k, e, h⟩

/-- What the revert keeps of the run over its plans. -/
theorem complete_revert_iff : Complete bs ps targets (revert targets now w ⟨ps, bs, rows⟩) ↔
    Complete bs ps targets
      (((planRevert bs targets ps.keys).filter fun p => p.action ≠ .skip).foldl
        (applyPlan bs.data now) ⟨ps, bs, rows⟩) := by
  have hkeys : ∀ n, n ∈ (revert targets now w ⟨ps, bs, rows⟩).files.bs.data.keys ↔
      n ∈ (((planRevert bs targets ps.keys).filter fun p => p.action ≠ .skip).foldl
        (applyPlan bs.data now) ⟨ps, bs, rows⟩).files.bs.data.keys :=
    fun n => keys_consumeExternalInstalls
  constructor
  · rintro ⟨h₁, h₂, h₃⟩
    exact ⟨h₁, h₂, fun n hn hgone => h₃ n hn ((hkeys n).not.mpr hgone)⟩
  · rintro ⟨h₁, h₂, h₃⟩
    exact ⟨h₁, h₂, fun n hn hgone => h₃ n hn ((hkeys n).not.mp hgone)⟩

/-- Plans that handle their targets, and keep the stock packages of one another, revert them all. -/
theorem complete_of_handles
    (h : ∀ t ∈ targets, Acts bs ps t → Handles bs ps t (planTarget bs ps.keys t))
    (hkeep : ∀ t ∈ targets, ∀ n e', Reverts bs ps t n e' → ∀ t' ∈ targets, Acts bs ps t' →
      drops bs.data (planTarget bs ps.keys t') (stockOf e' n) .repo = true →
      stockOf e' n ∈ fetched (planTarget bs ps.keys t')) :
    Complete bs ps targets (revert targets now w ⟨ps, bs, rows⟩) := by
  rw [complete_revert_iff]
  constructor
  · intro t ht n e' hr
    have hact := acts_of_reverts hr
    exact ne_built_of_out (mem_plans.mpr ⟨t, ht, hact, rfl⟩) ((h t ht hact).out n e' hr)
  · intro t ht n e' hr
    have hact := acts_of_reverts hr
    have hkeep' : ∀ p ∈ (planRevert bs targets ps.keys).filter (fun p => p.action ≠ .skip),
        drops bs.data p (stockOf e' n) .repo = true → stockOf e' n ∈ fetched p := by
      intro p hp hd
      obtain ⟨t', ht', hact', rfl⟩ := mem_plans.mp hp
      exact hkeep t ht n e' hr t' ht' hact' hd
    obtain hf | ⟨hrepo, -⟩ := (h t ht hact).stock n e' hr
    · exact repo_of_fetched (mem_plans.mpr ⟨t, ht, hact, rfl⟩) hf hkeep'
    · exact repo_foldl hrepo hkeep'
  · intro n hn hgone
    have hold : Older bs.data ⟨ps, bs, rows⟩ := fun _ _ he => he
    obtain ⟨p, hp, hf⟩ := forgets_of_notMem hold hn hgone
    obtain ⟨t, ht, hact, rfl⟩ := mem_plans.mp hp
    by_cases hb : ps.get n = some .built
    · exact ne_built_of_out hp ((h t ht hact).forgot n hf hb)
    · exact ne_built_foldl (m := ⟨ps, bs, rows⟩) hb

/-- One target is reverted completely exactly when its plan handles it. -/
theorem complete_singleton : Complete bs ps [t] (revert [t] now w ⟨ps, bs, rows⟩) ↔
    (Acts bs ps t → Handles bs ps t (planTarget bs ps.keys t)) := by
  constructor
  · intro h hact
    rw [complete_revert_iff] at h
    have hplans : (planRevert bs [t] ps.keys).filter (fun p => p.action ≠ .skip) =
        [planTarget bs ps.keys t] := by
      have hact' : decide ((planTarget bs ps.keys t).action ≠ .skip) = true := decide_eq_true hact
      rw [planRevert, List.map_cons, List.filter_cons, if_pos hact']
      rfl
    rw [hplans] at h
    have ht := List.mem_singleton_self t
    refine ⟨fun n e' hr => ?_, fun n e' hr => ?_, fun n hf hb => ?_⟩
    · have hb : ps.get n = some .built := by
        obtain ⟨_, _, _, _, _, hb⟩ := hr
        exact hb
      exact get_applyPlan_ne_built.mp (h.removed t ht n e' hr) hb
    · exact get_applyPlan_eq_repo.mp (h.restocked t ht n e' hr)
    · refine get_applyPlan_ne_built.mp (h.forgotten n hf.1 ?_) hb
      rw [List.foldl_cons, List.foldl_nil, files_applyPlan, mem_keys_forgetPackages, not_and,
        not_not]
      exact fun _ => hf
  · intro h
    refine complete_of_handles (fun t' ht' hact => ?_) fun t' ht' n e' hr t'' ht'' hact hd => ?_
    · rw [List.mem_singleton.mp ht'] at hact ⊢
      exact h hact
    · rw [List.mem_singleton.mp ht'] at hr
      rw [List.mem_singleton.mp ht''] at hact hd ⊢
      obtain hf | ⟨-, hno⟩ := (h hact).stock n e' hr
      · exact hf
      · rw [hno] at hd
        cases hd

/-! ## When a plan handles its target -/

/-- A recorded sibling that a split revert acts on. -/
def Chosen (bs : BuildState) (ps : Packages) (k n : String) : Prop :=
  n ∈ siblings bs.data k ∧ (n = k ∨ n ∈ ps.keys)

/-- **A coexist target is safe**: it is the only member of its pkgbase that is installed as a build,
its stock name is the one its record names, and no other build is recorded under its name. The
package `st` that the revert installs may count among the members. -/
structure SafeCoexist (bs : BuildState) (ps : Packages) (k st : String) : Prop where
  alone : ∀ n e', Member bs.data k n e' → ps.get n = some .built → n = k ∨ n = st
  stock : ∀ n e', Member bs.data k n e' → ps.get n = some .built →
    stockOf e' n = st ∨ ps.get (stockOf e' n) = some .repo ∧ stockOf e' n ≠ k
  under : ∀ n, Under bs.data k n → ps.get n = some .built → n = k ∨ n = st

/-- **A conflict-mode target with no recorded sibling is safe**: its stock name is the one its record
names, and no other build is recorded under its name. -/
structure SafeLone (bs : BuildState) (ps : Packages) (k st : String) : Prop where
  stock : ps.get k = some .built →
    stockName k = st ∨ k = st ∧ ps.get (stockName k) = some .repo
  under : ∀ n, Under bs.data k n → ps.get n = some .built →
    n = st ∨ declares bs.data n st = true

/-- **A conflict-mode target of a split set is safe**: its installed siblings are conflict-mode
builds too, and no further build is recorded under a name of the set. -/
structure SafeSplit (bs : BuildState) (ps : Packages) (k : String) : Prop where
  modes : ∀ n e', Member bs.data k n e' → ps.get n = some .built → isConflictBuild e' = true ∨
    (∃ a, Chosen bs ps k a ∧ stockName a = n) ∧
      ((∃ a, Chosen bs ps k a ∧ stockName a = stockOf e' n) ∨
        ps.get (stockOf e' n) = some .repo)
  under : ∀ a, Chosen bs ps k a → ∀ n, Under bs.data a n → ps.get n = some .built →
    ∃ b, Chosen bs ps k b ∧ (stockName b = n ∨ declares bs.data n (stockName b) = true)

/-- The packages that a plain revert of the key reinstalls. -/
def Reinstalls (bs : BuildState) (ps : Packages) (k : String) (e : Entry) (n : String) : Prop :=
  if e.pkgbase = some k ∧ isSplit bs.data k = true then Chosen bs ps k n else n = k

/-- **A plain target is safe**: no further build is recorded under a name that it reinstalls. -/
def SafePlain (bs : BuildState) (ps : Packages) (k : String) (e : Entry) : Prop :=
  ∀ a, Reinstalls bs ps k e a → ∀ n, Under bs.data a n → ps.get n = some .built →
    Reinstalls bs ps k e n

/-- The condition on a target. -/
def Safe (bs : BuildState) (ps : Packages) (t : String) : Prop :=
  ∀ k e, Reaches bs t k e →
    if isRenamedBuild e then
      if renameModeForBuildMode e.buildMode = .conflict then
        if isSplit bs.data k then SafeSplit bs ps k else SafeLone bs ps k (originOr e k)
      else SafeCoexist bs ps k (originOr e k)
    else SafePlain bs ps k e

theorem mem_siblings (he : bs.data.get k = some e) :
    n ∈ siblings bs.data k ↔ ∃ b, b ≠ "" ∧ e.pkgbase = some b ∧ Under bs.data b n := by
  rw [siblings, he, Option.bind_some]
  cases hb : e.pkgbase.filter (· ≠ "") with
  | none =>
    refine iff_of_false List.not_mem_nil ?_
    rintro ⟨b, hne, hb', -⟩
    rw [hb', Option.filter_some, if_pos (decide_eq_true hne)] at hb
    cases hb
  | some b =>
    obtain ⟨hb', hne⟩ := Option.filter_eq_some_iff.mp hb
    dsimp only
    rw [List.mem_insertionSort, List.mem_filter]
    constructor
    · rintro ⟨-, h⟩
      obtain ⟨e', he', hp⟩ := (Option.any_eq_true _ _).mp h
      exact ⟨b, of_decide_eq_true hne, hb', e', he', of_decide_eq_true hp⟩
    · rintro ⟨c, -, hc, e', he', hp⟩
      rw [hb', Option.some_inj] at hc
      exact ⟨mem_keys_of_get he', (Option.any_eq_true _ _).mpr ⟨e', he', decide_eq_true (hc ▸ hp)⟩⟩

/-- A key with a recorded pkgbase is among its siblings. -/
theorem self_mem_siblings (he : bs.data.get k = some e) (h : n ∈ siblings bs.data k) :
    k ∈ siblings bs.data k := by
  obtain ⟨b, hne, hb, -⟩ := (mem_siblings he).mp h
  exact (mem_siblings he).mpr ⟨b, hne, hb, e, he, hb⟩

theorem isSplit_self (he : bs.data.get k = some e) (hs : isSplit bs.data k = true) :
    k ∈ siblings bs.data k := by
  have hne : siblings bs.data k ≠ [] := fun hnil => by
    rw [isSplit, hnil] at hs
    cases hs
  obtain ⟨b, hb⟩ := List.exists_mem_of_ne_nil _ hne
  exact self_mem_siblings he hb

theorem eq_of_not_isSplit (he : bs.data.get k = some e) (hs : isSplit bs.data k = false)
    (h : n ∈ siblings bs.data k) : n = k := by
  have hlen : (siblings bs.data k).length ≤ 1 := not_lt.mp (of_decide_eq_false hs)
  have hk := self_mem_siblings he h
  cases hl : siblings bs.data k with
  | nil => rw [hl] at h; cases h
  | cons a l =>
    rw [hl] at h hk hlen
    have hnil : l = [] := List.eq_nil_of_length_eq_zero (by simpa using hlen)
    rw [hnil, List.mem_singleton] at h hk
    rw [h, hk]

theorem mem_conflictMembers (hs : isSplit bs.data k = true) {a st : String} :
    (a, st) ∈ conflictMembers bs.data k ps.keys ↔ Chosen bs ps k a ∧ st = stockName a := by
  rw [conflictMembers, if_pos (of_decide_eq_true hs), List.mem_map, Chosen]
  constructor
  · rintro ⟨b, hb, hpair⟩
    obtain ⟨rfl, rfl⟩ := Prod.mk.inj hpair
    obtain ⟨hb, hc⟩ := List.mem_filter.mp hb
    exact ⟨⟨hb, by simpa using hc⟩, rfl⟩
  · rintro ⟨⟨ha, hc⟩, rfl⟩
    exact ⟨a, List.mem_filter.mpr ⟨ha, by simpa using hc⟩, rfl⟩

theorem mem_conflictNames (hs : isSplit bs.data k = true) :
    n ∈ (conflictMembers bs.data k ps.keys).map Prod.fst ↔ Chosen bs ps k n := by
  rw [List.mem_map]
  constructor
  · rintro ⟨⟨_, st⟩, ha, rfl⟩
    exact ((mem_conflictMembers hs).mp ha).1
  · intro ha
    exact ⟨(n, stockName n), (mem_conflictMembers hs).mpr ⟨ha, rfl⟩, rfl⟩

theorem reverts_iff (h : Reaches bs t k e) (hr : isRenamedBuild e = true) :
    Reverts bs ps t n e' ↔ Member bs.data k n e' ∧ ps.get n = some .built := by
  constructor
  · rintro ⟨k', e₀, h', -, hm⟩
    have hk : k' = k := h'.1.trans h.1.symm
    rwa [← hk]
  · rintro ⟨hm, hb⟩
    exact ⟨k, e, h, hr, hm, hb⟩

theorem not_reverts (h : Reaches bs t k e) (hr : isRenamedBuild e = false) :
    ¬Reverts bs ps t n e' := by
  rintro ⟨k', e₀, h', hr', -⟩
  have hk : k' = k := h'.1.trans h.1.symm
  have he : some e₀ = some e := by rw [← h'.2.1, ← h.2.1, hk]
  rw [Option.some_inj.mp he, hr] at hr'
  cases hr'

theorem handles_coexist (h : Reaches bs t k e) (hr : isRenamedBuild e = true)
    (hc : renameModeForBuildMode e.buildMode ≠ .conflict) :
    Handles bs ps t (planTarget bs ps.keys t) ↔ SafeCoexist bs ps k (originOr e k) := by
  have hplan := planTarget_of_reaches ps.keys h
  rw [if_pos hr, if_neg hc] at hplan
  have hout : ∀ n, Out bs.data (planTarget bs ps.keys t) n ↔ n = k ∨ n = originOr e k := by
    intro n
    rw [hplan, or_comm (a := n = k)]
    simp [Out, fetched, drops]
  have hdrops : ∀ n, drops bs.data (planTarget bs ps.keys t) n .repo = false ↔ n ≠ k := by
    intro n
    rw [hplan]
    simp [drops]
  have hfetched : ∀ n, n ∈ fetched (planTarget bs ps.keys t) ↔ n = originOr e k := by
    intro n
    rw [hplan]
    simp [fetched]
  have hacted : acted (planTarget bs ps.keys t) = [k] := by
    rw [hplan]
    rfl
  constructor
  · rintro ⟨h₁, h₂, h₃⟩
    refine ⟨fun n e' hm hb => ?_, fun n e' hm hb => ?_, fun n hu hb => ?_⟩
    · exact (hout n).mp (h₁ n e' ((reverts_iff h hr).mpr ⟨hm, hb⟩))
    · have := h₂ n e' ((reverts_iff h hr).mpr ⟨hm, hb⟩)
      rwa [hfetched, hdrops] at this
    · refine (hout n).mp (h₃ n ⟨mem_keys_of_under hu, k, ?_, .inr hu⟩ hb)
      rw [hacted]
      exact List.mem_singleton_self k
  · rintro ⟨h₁, h₂, h₃⟩
    refine ⟨fun n e' hrev => ?_, fun n e' hrev => ?_, fun n hf hb => ?_⟩
    · obtain ⟨hm, hb⟩ := (reverts_iff h hr).mp hrev
      exact (hout n).mpr (h₁ n e' hm hb)
    · obtain ⟨hm, hb⟩ := (reverts_iff h hr).mp hrev
      rw [hfetched, hdrops]
      exact h₂ n e' hm hb
    · rw [hacted] at hf
      obtain ⟨-, a, ha, hn⟩ := hf
      rw [List.mem_singleton.mp ha] at hn
      rcases hn with hn | hu
      · exact (hout n).mpr (.inl hn)
      · exact (hout n).mpr (h₃ n hu hb)

/-- What a replacing plan does, by its members. -/
theorem replace_spec (ps : Packages) (h : Reaches bs t k e) (hr : isRenamedBuild e = true)
    (hc : renameModeForBuildMode e.buildMode = .conflict) :
    fetched (planTarget bs ps.keys t) = (replaceMembers bs.data k e ps.keys).map Prod.snd ∧
      acted (planTarget bs ps.keys t) = (replaceMembers bs.data k e ps.keys).map Prod.fst ∧
      (∀ n, drops bs.data (planTarget bs ps.keys t) n .repo = false) ∧
      ∀ n, drops bs.data (planTarget bs ps.keys t) n .built =
        ((replaceMembers bs.data k e ps.keys).map Prod.snd).any (declares bs.data n) := by
  have hplan := planTarget_of_reaches ps.keys h
  rw [if_pos hr, if_pos hc] at hplan
  rw [hplan]
  exact ⟨rfl, rfl, fun _ => rfl, fun _ => rfl⟩

theorem declares_iff {st : String} (he : entries.get n = some e') :
    declares entries n st = true ↔
      isConflictBuild e' = true ∧ stockName n ≠ n ∧ stockName n = st := by
  rw [declares, he, Bool.and_eq_true, Bool.and_eq_true, decide_eq_true_iff, decide_eq_true_iff,
    Option.any_some, and_assoc]

theorem stockOf_of_conflict (h : isConflictBuild e = true) : stockOf e n = stockName n := by
  have hc : renameModeForBuildMode e.buildMode = .conflict :=
    of_decide_eq_true ((Bool.and_eq_true _ _).mp h).2
  rw [stockOf, hc]

theorem handles_lone (h : Reaches bs t k e) (hr : isRenamedBuild e = true)
    (hc : renameModeForBuildMode e.buildMode = .conflict) (hs : isSplit bs.data k = false) :
    Handles bs ps t (planTarget bs ps.keys t) ↔ SafeLone bs ps k (originOr e k) := by
  have hconf : isConflictBuild e = true := Bool.and_eq_true _ _ |>.mpr ⟨hr, decide_eq_true hc⟩
  obtain ⟨hfetched, hacted, hrepo, hbuilt⟩ := replace_spec ps h hr hc
  have hmem : replaceMembers bs.data k e ps.keys = [(k, originOr e k)] := by
    rw [replaceMembers, hs]
    rfl
  rw [hmem] at hfetched hacted hbuilt
  have hout : ∀ n, Out bs.data (planTarget bs ps.keys t) n ↔
      n = originOr e k ∨ declares bs.data n (originOr e k) = true := by
    intro n
    rw [Out, hfetched, hbuilt]
    simp
  have hself : Out bs.data (planTarget bs ps.keys t) k ↔
      k = originOr e k ∨ stockName k = originOr e k := by
    rw [hout, declares_iff h.2.1]
    constructor
    · rintro (hk | ⟨-, -, hk⟩)
      · exact .inl hk
      · exact .inr hk
    · rintro (hk | hk)
      · exact .inl hk
      · by_cases hne : stockName k = k
        · exact .inl (hne.symm.trans hk)
        · exact .inr ⟨hconf, hne, hk⟩
  have hmember : ∀ n e', Member bs.data k n e' ↔ n = k ∧ e' = e := by
    rintro n e'
    constructor
    · rintro ⟨he', hn⟩
      have hnk : n = k := hn.elim id (eq_of_not_isSplit h.2.1 hs)
      refine ⟨hnk, ?_⟩
      rw [hnk, h.2.1] at he'
      exact (Option.some_inj.mp he').symm
    · rintro ⟨rfl, rfl⟩
      exact ⟨h.2.1, .inl rfl⟩
  constructor
  · rintro ⟨h₁, h₂, h₃⟩
    refine ⟨fun hb => ?_, fun n hu hb => ?_⟩
    · have hrev := (reverts_iff h hr).mpr ⟨(hmember k e).mpr ⟨rfl, rfl⟩, hb⟩
      have hst := h₂ k e hrev
      rw [stockOf_of_conflict hconf, hfetched] at hst
      obtain hst | ⟨hst, -⟩ := hst
      · exact .inl (List.mem_singleton.mp hst)
      · exact (hself.mp (h₁ k e hrev)).elim (fun hk => .inr ⟨hk, hst⟩) .inl
    · refine (hout n).mp (h₃ n ⟨mem_keys_of_under hu, k, ?_, .inr hu⟩ hb)
      rw [hacted]
      exact List.mem_singleton_self k
  · rintro ⟨h₁, h₂⟩
    have hk : ps.get k = some .built → Out bs.data (planTarget bs ps.keys t) k :=
      fun hb => hself.mpr ((h₁ hb).elim .inr fun hk => .inl hk.1)
    refine ⟨fun n e' hrev => ?_, fun n e' hrev => ?_, fun n hf hb => ?_⟩
    · obtain ⟨hm, hb⟩ := (reverts_iff h hr).mp hrev
      obtain ⟨rfl, -⟩ := (hmember n e').mp hm
      exact hk hb
    · obtain ⟨hm, hb⟩ := (reverts_iff h hr).mp hrev
      obtain ⟨rfl, rfl⟩ := (hmember n e').mp hm
      rw [stockOf_of_conflict hconf, hfetched]
      exact (h₁ hb).imp List.mem_singleton.mpr fun hst => ⟨hst.2, hrepo _⟩
    · rw [hacted] at hf
      obtain ⟨-, a, ha, hn⟩ := hf
      have hak : a = k := List.mem_singleton.mp ha
      rw [hak] at hn
      rcases hn with rfl | hu
      · exact hk hb
      · exact (hout n).mpr (h₂ n hu hb)

theorem handles_split (h : Reaches bs t k e) (hr : isRenamedBuild e = true)
    (hc : renameModeForBuildMode e.buildMode = .conflict) (hs : isSplit bs.data k = true) :
    Handles bs ps t (planTarget bs ps.keys t) ↔ SafeSplit bs ps k := by
  obtain ⟨hfetched, hacted, hrepo, hbuilt⟩ := replace_spec ps h hr hc
  have hmem : replaceMembers bs.data k e ps.keys = conflictMembers bs.data k ps.keys := by
    rw [replaceMembers, if_pos hs]
  rw [hmem] at hfetched hacted hbuilt
  have hmfetched : ∀ st, st ∈ fetched (planTarget bs ps.keys t) ↔
      ∃ a, Chosen bs ps k a ∧ stockName a = st := by
    intro st
    rw [hfetched, List.mem_map]
    constructor
    · rintro ⟨⟨a, _⟩, ha, rfl⟩
      obtain ⟨hch, rfl⟩ := (mem_conflictMembers hs).mp ha
      exact ⟨a, hch, rfl⟩
    · rintro ⟨a, ha, rfl⟩
      exact ⟨(a, stockName a), (mem_conflictMembers hs).mpr ⟨ha, rfl⟩, rfl⟩
  have hmacted : ∀ a, a ∈ acted (planTarget bs ps.keys t) ↔ Chosen bs ps k a := by
    intro a
    rw [hacted, mem_conflictNames hs]
  have hout : ∀ n, Out bs.data (planTarget bs ps.keys t) n ↔
      ∃ b, Chosen bs ps k b ∧ (stockName b = n ∨ declares bs.data n (stockName b) = true) := by
    intro n
    rw [Out, hbuilt, ← hfetched, hmfetched, List.any_eq_true]
    simp only [hmfetched]
    constructor
    · rintro (⟨a, ha, hn⟩ | ⟨_, ⟨a, ha, rfl⟩, hd⟩)
      · exact ⟨a, ha, .inl hn⟩
      · exact ⟨a, ha, .inr hd⟩
    · rintro ⟨a, ha, hn | hd⟩
      · exact .inl ⟨a, ha, hn⟩
      · exact .inr ⟨_, ⟨a, ha, rfl⟩, hd⟩
  have hchosen : ∀ n e', Member bs.data k n e' → ps.get n = some .built → Chosen bs ps k n := by
    rintro n e' ⟨-, hn⟩ hb
    refine ⟨?_, .inr (mem_keys_of_get hb)⟩
    rcases hn with rfl | hn
    · exact isSplit_self h.2.1 hs
    · exact hn
  -- a conflict-mode sibling is swapped for its own stock name
  have hown : ∀ n e', Member bs.data k n e' → ps.get n = some .built → isConflictBuild e' = true →
      Out bs.data (planTarget bs ps.keys t) n := by
    intro n e' hm hb hconf
    refine (hout n).mpr ⟨n, hchosen n e' hm hb, ?_⟩
    by_cases hne : stockName n = n
    · exact .inl hne
    · exact .inr ((declares_iff hm.1).mpr ⟨hconf, hne, rfl⟩)
  constructor
  · rintro ⟨h₁, h₂, h₃⟩
    refine ⟨fun n e' hm hb => ?_, fun a ha n hu hb => ?_⟩
    · have hrev := (reverts_iff h hr).mpr ⟨hm, hb⟩
      by_cases hconf : isConflictBuild e' = true
      · exact .inl hconf
      · refine .inr ⟨?_, ?_⟩
        · obtain ⟨b, hb', hn | hd⟩ := (hout n).mp (h₁ n e' hrev)
          · exact ⟨b, hb', hn⟩
          · exact absurd ((declares_iff hm.1).mp hd).1 hconf
        · exact (h₂ n e' hrev).imp (hmfetched _).mp And.left
    · exact (hout n).mp (h₃ n ⟨mem_keys_of_under hu, a, (hmacted a).mpr ha, .inr hu⟩ hb)
  · rintro ⟨h₁, h₂⟩
    have hfam : ∀ n e', Member bs.data k n e' → ps.get n = some .built →
        Out bs.data (planTarget bs ps.keys t) n := by
      intro n e' hm hb
      obtain hconf | ⟨⟨a, ha, hn⟩, -⟩ := h₁ n e' hm hb
      · exact hown n e' hm hb hconf
      · exact (hout n).mpr ⟨a, ha, .inl hn⟩
    refine ⟨fun n e' hrev => ?_, fun n e' hrev => ?_, fun n hf hb => ?_⟩
    · obtain ⟨hm, hb⟩ := (reverts_iff h hr).mp hrev
      exact hfam n e' hm hb
    · obtain ⟨hm, hb⟩ := (reverts_iff h hr).mp hrev
      obtain hconf | ⟨-, hst⟩ := h₁ n e' hm hb
      · rw [stockOf_of_conflict hconf]
        exact .inl ((hmfetched _).mpr ⟨n, hchosen n e' hm hb, rfl⟩)
      · exact hst.imp (hmfetched _).mpr fun hst => ⟨hst, hrepo _⟩
    · obtain ⟨hkey, a, ha, hn⟩ := hf
      have ha' := (hmacted a).mp ha
      rcases hn with rfl | hu
      · cases hg : bs.data.get n with
        | none => exact absurd hkey (Dict.get_eq_none.mp hg)
        | some e' => exact hfam n e' ⟨hg, .inr ha'.1⟩ hb
      · exact (hout n).mpr (h₂ a ha' n hu hb)

theorem reinstalls_self (he : bs.data.get k = some e) : Reinstalls bs ps k e k := by
  rw [Reinstalls]
  split_ifs with h
  · exact ⟨isSplit_self he h.2, .inl rfl⟩
  · rfl

theorem mem_reinstallMembers (n : String) :
    n ∈ (reinstallMembers bs.data k e ps.keys).map Prod.fst ↔ Reinstalls bs ps k e n := by
  rw [reinstallMembers, Reinstalls]
  by_cases h : e.pkgbase = some k ∧ isSplit bs.data k = true
  · rw [if_pos h, if_pos ⟨h.1.symm, h.2⟩, mem_conflictNames h.2]
  · rw [if_neg h, if_neg fun h' => h ⟨h'.1.symm, h'.2⟩, List.map_singleton, List.mem_singleton]

theorem handles_plain (h : Reaches bs t k e) (hr : isRenamedBuild e = false) :
    Handles bs ps t (planTarget bs ps.keys t) ↔ SafePlain bs ps k e := by
  have hplan := planTarget_of_reaches ps.keys h
  rw [hr, if_neg Bool.false_ne_true] at hplan
  have hmembers := @mem_reinstallMembers bs ps e k
  have hmem : ∀ n, n ∈ reinstallNames (planTarget bs ps.keys t) ↔ Reinstalls bs ps k e n := by
    intro n
    have hne : reinstallMembers bs.data k e ps.keys ≠ [] := by
      intro hnil
      have hk := (hmembers k).mpr (reinstalls_self h.2.1)
      rw [hnil] at hk
      cases hk
    rw [hplan, reinstallNames]
    dsimp only
    rw [if_neg hne, hmembers]
  have hout : ∀ n, Out bs.data (planTarget bs ps.keys t) n ↔ Reinstalls bs ps k e n := by
    intro n
    rw [← hmem, hplan, Out]
    exact or_iff_left Bool.false_ne_true
  have hacted : ∀ a, a ∈ acted (planTarget bs ps.keys t) ↔ Reinstalls bs ps k e a := by
    intro a
    rw [← hmem, hplan]
    rfl
  constructor
  · rintro ⟨-, -, h₃⟩ a ha n hu hb
    exact (hout n).mp (h₃ n ⟨mem_keys_of_under hu, a, (hacted a).mpr ha, .inr hu⟩ hb)
  · intro hsafe
    refine ⟨fun n e' hrev => absurd hrev (not_reverts h hr),
      fun n e' hrev => absurd hrev (not_reverts h hr), fun n hf hb => ?_⟩
    obtain ⟨-, a, ha, hn⟩ := hf
    rcases hn with rfl | hu
    · exact (hout n).mpr ((hacted n).mp ha)
    · exact (hout n).mpr (hsafe a ((hacted a).mp ha) n hu hb)

theorem handles_iff (h : Reaches bs t k e) :
    Handles bs ps t (planTarget bs ps.keys t) ↔
      if isRenamedBuild e then
        if renameModeForBuildMode e.buildMode = .conflict then
          if isSplit bs.data k then SafeSplit bs ps k else SafeLone bs ps k (originOr e k)
        else SafeCoexist bs ps k (originOr e k)
      else SafePlain bs ps k e := by
  by_cases hr : isRenamedBuild e = true
  · rw [if_pos hr]
    by_cases hc : renameModeForBuildMode e.buildMode = .conflict
    · rw [if_pos hc]
      by_cases hs : isSplit bs.data k = true
      · rw [if_pos hs]
        exact handles_split h hr hc hs
      · rw [if_neg hs]
        exact handles_lone h hr hc (Bool.not_eq_true _ ▸ hs)
    · rw [if_neg hc]
      exact handles_coexist h hr hc
  · rw [if_neg hr]
    exact handles_plain h (Bool.not_eq_true _ ▸ hr)

theorem safe_iff : Safe bs ps t ↔
    (Acts bs ps t → Handles bs ps t (planTarget bs ps.keys t)) := by
  rw [acts_iff]
  constructor
  · rintro h ⟨k, e, hreach⟩
    exact (handles_iff hreach).mpr (h k e hreach)
  · intro h k e hreach
    exact (handles_iff hreach).mp (h ⟨k, e, hreach⟩)

/-! ## Several targets -/

/-- The revert of `t'` removes the stock package of a build that `t` reverts: the coexisting build
it removes has that name, and it installs another one. -/
def Clash (bs : BuildState) (ps : Packages) (t t' : String) : Prop :=
  ∃ n e', Reverts bs ps t n e' ∧ ∃ k e, Reaches bs t' k e ∧ isRenamedBuild e = true ∧
    renameModeForBuildMode e.buildMode = .coexist ∧ stockOf e' n = k ∧ originOr e k ≠ k

theorem clash_of_drops (hrev : Reverts bs ps t n e') {t' : String} (hact : Acts bs ps t')
    (hd : drops bs.data (planTarget bs ps.keys t') (stockOf e' n) .repo = true)
    (hf : stockOf e' n ∉ fetched (planTarget bs ps.keys t')) : Clash bs ps t t' := by
  obtain ⟨k, e, h⟩ := acts_iff.mp hact
  have hplan := planTarget_of_reaches ps.keys h
  rw [hplan] at hd hf
  by_cases hr : isRenamedBuild e = true
  · rw [if_pos hr] at hd hf
    by_cases hc : renameModeForBuildMode e.buildMode = .conflict
    · rw [if_pos hc] at hd
      cases hd
    · rw [if_neg hc] at hd hf
      have hk : stockOf e' n = k := by simpa [drops] using hd
      have hco : renameModeForBuildMode e.buildMode = .coexist := by
        cases hm : renameModeForBuildMode e.buildMode with
        | conflict => exact absurd hm hc
        | coexist => rfl
      refine ⟨n, e', hrev, k, e, h, hr, hco, hk, fun ho => hf ?_⟩
      rw [hk, ho]
      exact List.mem_singleton_self k
  · rw [if_neg hr] at hd
    cases hd

/-- **When a revert is complete**: of one target, exactly when the target is safe; of any list of
safe targets, when none removes a stock package that another puts back. -/
theorem revert_complete (bs : BuildState) (rows : OptOut.Rows) (ps : Packages) (now : String)
    (w : Window) :
    (∀ t, Complete bs ps [t] (revert [t] now w ⟨ps, bs, rows⟩) ↔ Safe bs ps t) ∧
      ∀ targets, (∀ t ∈ targets, Safe bs ps t) →
        (∀ t ∈ targets, ∀ t' ∈ targets, ¬Clash bs ps t t') →
        Complete bs ps targets (revert targets now w ⟨ps, bs, rows⟩) := by
  refine ⟨fun t => complete_singleton.trans safe_iff.symm, fun targets hsafe hclash => ?_⟩
  refine complete_of_handles (fun t ht => safe_iff.mp (hsafe t ht)) ?_
  intro t ht n e' hrev t' ht' hact hd
  by_contra hf
  exact hclash t ht t' ht' (clash_of_drops hrev hact hd hf)

/-- The record of a member of a kernel built with AutoFDO. -/
def kernelEntry : Entry where
  pkgbase := some "linux-sysforge"
  originPkgbase := some "linux"
  buildMode := some "autofdo_kernel"

/-- The kernel and its headers are recorded. -/
def kernelState : BuildState where
  data := .ofItems [("linux-sysforge", kernelEntry), ("linux-sysforge-headers", kernelEntry)]
  failures := .empty
  reverted := .empty
  reviewed := .empty

/-- Both are installed. -/
def kernelPackages : Packages :=
  .ofItems [("linux-sysforge", .built), ("linux-sysforge-headers", .built)]

/-- Reverting the kernel leaves its headers installed as the renamed build, and drops their
record. -/
theorem not_complete_kernel : ¬Complete kernelState kernelPackages ["linux"]
    (revert ["linux"] "2026-01-01T00:00:00Z" ⟨[], []⟩ ⟨kernelPackages, kernelState, .empty⟩) := by
  intro h
  have hgone : "linux-sysforge-headers" ∉ (revert ["linux"] "2026-01-01T00:00:00Z" ⟨[], []⟩
      ⟨kernelPackages, kernelState, .empty⟩).files.bs.data.keys := by decide
  have hkey : "linux-sysforge-headers" ∈ kernelState.data.keys := by decide
  exact h.forgotten _ hkey hgone (by decide)

end Sysforge.Revert
