import Sysforge.Pacman.DryRun

/-!
# What a batch install may relax

The answer to conflict questions and the relaxed dependency checks hold for the whole transaction.
`confined_iff` says when they reach no further than meant: the installed packages that conflict are
all superseded, and the incoming packages that may not break something miss no version. Of the
installed packages the dry run names every holder (`mem_depsBrokenByInstall`).
-/

namespace Sysforge.Pacman

open Text

/-! ## The property -/

/-- A file of the batch supersedes the installed package. -/
def Superseded (w : World) (q : Package) : Prop :=
  ∃ f ∈ remaining w,
    q.name ∈ pkgSupersedesInstalled f.readable f.info (w.installed.map Package.name)

/-- The package has a versioned dependency that nothing satisfies. -/
def Misses (w : World) (ps : List Package) (h : Package) (dep : Text) : Prop :=
  dep ∈ h.depends ∧ constraintOf dep ≠ none ∧ satisfied w.vercmp true ps dep = false

/-- What a conflict removed is superseded, and a versioned dependency that the transaction left
unsatisfied is held by a package that may break. -/
structure Confined (w : World) (after removed : List Package) : Prop where
  conflicts : ∀ q ∈ removed, Superseded w q
  deps : ∀ h ∈ after, ∀ dep, Misses w after h dep →
    h ∈ incoming w ∨ satisfied w.vercmp true w.installed dep = true → h.name ∈ w.allowBreakDeps

/-- The installed packages in conflict with incoming ones are superseded, and incoming packages
outside `allow_break_deps` miss no version. -/
structure Narrow (w : World) : Prop where
  conflicts : ∀ q ∈ w.installed, (∀ p ∈ incoming w, p.name ≠ q.name) →
    (∃ p ∈ incoming w, inConflict w.vercmp p q = true) → Superseded w q
  deps : ∀ p ∈ incoming w, ∀ dep, Misses w (after w.vercmp w.installed (incoming w)) p dep →
    p.name ∈ w.allowBreakDeps

/-- Names and dependencies are words, and versions have no quote. -/
structure WellFormed (w : World) : Prop where
  names : ∀ p, p ∈ w.installed ∨ p ∈ incoming w → IsWord p.name
  versions : ∀ p, p ∈ w.installed ∨ p ∈ incoming w → '\'' ∉ p.version
  depends : ∀ p, p ∈ w.installed ∨ p ∈ incoming w → ∀ dep ∈ p.depends, IsWord dep

/-! ## The transaction -/

section Transaction

variable {vercmp : Text → Text → ℤ} {installed files after' removed' : List Package} {sw : Switches}
  {p q : Package} {dep : Text} {strict : Bool}

theorem mem_removed : q ∈ removed vercmp installed files ↔ q ∈ installed ∧
    (∀ p ∈ files, p.name ≠ q.name) ∧ ∃ p ∈ files, inConflict vercmp p q = true := by
  rw [removed, untouched, List.mem_filter, List.mem_filter, and_assoc, List.any_eq_true,
    List.all_eq_true]
  simp only [decide_eq_true_eq]

theorem mem_kept : q ∈ kept vercmp installed files ↔ q ∈ installed ∧
    (∀ p ∈ files, p.name ≠ q.name) ∧ ∀ p ∈ files, inConflict vercmp p q = false := by
  rw [kept, untouched, List.mem_filter, List.mem_filter, and_assoc, List.all_eq_true,
    List.all_eq_true]
  simp only [decide_eq_true_eq, Bool.not_eq_true']

/-- An installed package stays, or is upgraded or removed. -/
theorem mem_kept_or_modified (h : q ∈ installed) :
    q ∈ kept vercmp installed files ∨ q ∈ modified vercmp installed files := by
  by_cases hmod : q ∈ modified vercmp installed files
  · exact .inr hmod
  · rw [modified, List.mem_filter, and_iff_right h, Bool.not_eq_true, List.any_eq_false] at hmod
    refine .inl (mem_kept.mpr ⟨h, fun p hp hname => ?_, fun p hp => ?_⟩)
    · exact hmod p hp (by rw [decide_eq_true hname, Bool.true_or])
    · refine Bool.eq_false_iff.mpr fun hconflict => hmod p hp ?_
      rw [hconflict, Bool.or_true]

/-- A dependency of a package that stays is named, when it was satisfied and is not. -/
theorem mem_breaks (hq : q ∈ kept vercmp installed files) (hdep : dep ∈ q.depends)
    (hold : satisfied vercmp strict installed dep = true)
    (hnew : satisfied vercmp strict (after vercmp installed files) dep = false) :
    ∃ c, (c, dep, q) ∈ breaks vercmp installed files strict := by
  obtain ⟨c, hc, hsat⟩ := List.any_eq_true.mp hold
  have hmod : c ∈ modified vercmp installed files := by
    refine (mem_kept_or_modified hc).resolve_left fun hkept => ?_
    have hany : satisfied vercmp strict (after vercmp installed files) dep = true :=
      List.any_eq_true.mpr ⟨c, List.mem_append_right files hkept, hsat⟩
    exact Bool.false_ne_true (hnew.symm.trans hany)
  have hsome : ((modified vercmp installed files).find? fun c =>
      satisfies vercmp strict c dep).isSome := List.find?_isSome.mpr ⟨c, hmod, hsat⟩
  obtain ⟨c', hc'⟩ := Option.isSome_iff_exists.mp hsome
  refine ⟨c', List.mem_flatMap.mpr ⟨q, hq, List.mem_flatMap.mpr ⟨dep, ?_, ?_⟩⟩⟩
  · rw [List.mem_filter, hnew]
    exact ⟨hdep, rfl⟩
  · rw [hc']
    exact List.mem_singleton_self _

theorem of_mem_breaks {m : Package × Text × Package}
    (h : m ∈ breaks vercmp installed files strict) :
    m.1 ∈ installed ∧ m.2.2 ∈ installed ∧ m.2.1 ∈ m.2.2.depends := by
  obtain ⟨q, hq, hmem⟩ := List.mem_flatMap.mp h
  obtain ⟨dep, hdep, hmem⟩ := List.mem_flatMap.mp hmem
  obtain ⟨c, hc, rfl⟩ := Option.map_eq_some_iff.mp (Option.mem_toList.mp hmem)
  have hmod := List.mem_of_find?_eq_some hc
  exact ⟨List.mem_of_mem_filter hmod, (mem_kept.mp hq).1, List.mem_of_mem_filter hdep⟩

theorem of_mem_unmet {m : Text × Package} (h : m ∈ unmet vercmp installed files strict) :
    m.2 ∈ files ∧ m.1 ∈ m.2.depends := by
  obtain ⟨p, hp, hmem⟩ := List.mem_flatMap.mp h
  obtain ⟨dep, hdep, rfl⟩ := List.mem_map.mp hmem
  exact ⟨hp, List.mem_of_mem_filter hdep⟩

/-- What a transaction that is done went through. -/
theorem transaction_done (h : transaction vercmp installed files sw = .done after' removed') :
    after' = after vercmp installed files ∧ removed' = removed vercmp installed files ∧
      (removed vercmp installed files = [] ∨ sw.ask = true) ∧
      unmet vercmp installed files (!sw.nodeps) = [] ∧
      breaks vercmp installed files (!sw.nodeps) = [] := by
  rw [transaction] at h
  split_ifs at h with hconflict hmissing
  cases h
  refine ⟨rfl, rfl, ?_, hmissing⟩
  rw [not_and_or, not_not, Bool.not_eq_false] at hconflict
  exact hconflict

end Transaction

/-! ## The batch -/

section Batch

variable {w : World} {after' removed' : List Package} {q : Package} {dep : Text}

/-- **The dry run names** every holder whose dependency breaks, when it gets past the conflicts. -/
theorem mem_depsBrokenByInstall (hw : WellFormed w)
    (hconflict : removed w.vercmp w.installed (incoming w) = [] ∨ askFor w = true)
    {m : Package × Text × Package} (hm : m ∈ breaks w.vercmp w.installed (incoming w) true) :
    (m.2.2.name, m.2.1) ∈ depsBrokenByInstall w := by
  have hpass : ¬(removed w.vercmp w.installed (incoming w) ≠ [] ∧ askFor w = false) := by
    rw [not_and_or, not_not, Bool.not_eq_false]
    exact hconflict
  have hmissing : ¬(unmet w.vercmp w.installed (incoming w) true = [] ∧
      breaks w.vercmp w.installed (incoming w) true = []) :=
    fun h => List.ne_nil_of_mem hm h.2
  have hreply : transaction w.vercmp w.installed (incoming w) ⟨askFor w, false⟩ =
      .refused (missingOutput (incoming w) (unmet w.vercmp w.installed (incoming w) true)
        (breaks w.vercmp w.installed (incoming w) true)) := by
    rw [transaction, if_neg hpass]
    exact if_neg hmissing
  rw [depsBrokenByInstall, hreply]
  dsimp only
  rw [brokenIn_missingOutput]
  · exact List.mem_map.mpr ⟨m, hm, rfl⟩
  · intro m hm
    obtain ⟨hp, hdep⟩ := of_mem_unmet hm
    exact ⟨hw.depends m.2 (.inr hp) m.1 hdep, (hw.names m.2 (.inr hp)).quote⟩
  · intro m hm
    obtain ⟨hc, hq, hdep⟩ := of_mem_breaks hm
    exact ⟨hw.depends m.2.2 (.inl hq) m.2.1 hdep, hw.names m.2.2 (.inl hq),
      (hw.names m.1 (.inl hc)).quote, hw.versions m.1 (.inl hc)⟩

/-- A dependency of a package that stays breaks only where it may. -/
theorem mem_allow_of_breaks (hw : WellFormed w)
    (h : transaction w.vercmp w.installed (incoming w) ⟨askFor w, nodepsFor w⟩ =
      .done after' removed')
    {m : Package × Text × Package} (hm : m ∈ breaks w.vercmp w.installed (incoming w) true) :
    m.2.2.name ∈ w.allowBreakDeps := by
  obtain ⟨-, -, hconflict, -, hbreaks⟩ := transaction_done h
  cases hnodeps : nodepsFor w with
  | false =>
    rw [hnodeps] at hbreaks
    exact absurd hbreaks (List.ne_nil_of_mem hm)
  | true =>
    rw [nodepsFor, Bool.and_eq_true, Bool.and_eq_true, List.all_eq_true] at hnodeps
    exact of_decide_eq_true (hnodeps.2.2 _ (mem_depsBrokenByInstall hw hconflict hm))

/-- **A batch install is confined** exactly when what conflicts is superseded and what comes in
misses no version. -/
theorem confined_iff (hw : WellFormed w) (h : batchInstallPkgs w = some (after', removed')) :
    Confined w after' removed' ↔ Narrow w := by
  rw [batchInstallPkgs] at h
  split_ifs at h
  cases hreply : transaction w.vercmp w.installed (incoming w) ⟨askFor w, nodepsFor w⟩ with
  | refused output =>
    rw [hreply] at h
    cases h
  | done after'' removed'' =>
    rw [hreply] at h
    cases h
    obtain ⟨rfl, rfl, -, -, -⟩ := transaction_done hreply
    constructor
    · intro hconfined
      refine ⟨fun q hq hname hconflict => ?_, fun p hp dep hmiss => ?_⟩
      · exact hconfined.conflicts q (mem_removed.mpr ⟨hq, hname, hconflict⟩)
      · exact hconfined.deps p (List.mem_append_left _ hp) dep hmiss (.inl hp)
    · intro hnarrow
      refine ⟨fun q hq => ?_, fun q hq dep hmiss hleft => ?_⟩
      · obtain ⟨hinst, hname, hconflict⟩ := mem_removed.mp hq
        exact hnarrow.conflicts q hinst hname hconflict
      · by_cases hin : q ∈ incoming w
        · exact hnarrow.deps q hin dep hmiss
        · have hkept := (List.mem_append.mp hq).resolve_left hin
          obtain ⟨hdep, -, hunsat⟩ := hmiss
          obtain ⟨c, hc⟩ := mem_breaks hkept hdep (hleft.resolve_left hin) hunsat
          exact mem_allow_of_breaks hw hreply hc

end Batch

/-! ## A pin, and a drop-in beside a conflict -/

theorem IsWord.of_all {t : Text} (hne : t ≠ [])
    (h : t.all (fun c => !isSpace c && c ≠ '\'') = true) : IsWord t := by
  have hall := List.all_eq_true.mp h
  refine ⟨hne, fun c hc => ?_, fun hc => ?_⟩
  · have hchar := (Bool.and_eq_true_iff.mp (hall c hc)).1
    rwa [Bool.not_eq_true'] at hchar
  · exact of_decide_eq_true (Bool.and_eq_true_iff.mp (hall _ hc)).2 rfl

/-- Versions of one digit. -/
def digitCompare (a b : Text) : ℤ := if a = b then 0 else if a < b then -1 else 1

/-- `foo` at a version. -/
def foo (version : Text) : Package := ⟨['f', 'o', 'o'], version, [], [], [], []⟩

/-- `bar`, which pins `foo` at `1`. -/
def bar : Package := ⟨['b', 'a', 'r'], ['1'], [['f', 'o', 'o', '=', '1']], [], [], []⟩

/-- `foo` comes in at the next version. -/
def pinWorld : World where
  vercmp := digitCompare
  installed := [foo ['1'], bar]
  pkgPaths := [⟨foo ['2'], true, true⟩]
  allowBreakDeps := [bar.name]

example : depsBrokenByInstall pinWorld = [(bar.name, ['f', 'o', 'o', '=', '1'])] := by decide

theorem wellFormed_pinWorld : WellFormed pinWorld := by
  have hfoo : IsWord ['f', 'o', 'o'] := IsWord.of_all (by decide) (by decide)
  have hcases : ∀ p, p ∈ pinWorld.installed ∨ p ∈ incoming pinWorld →
      p = foo ['1'] ∨ p = bar ∨ p = foo ['2'] := by
    rintro p (hp | hp)
    · rcases List.mem_cons.mp hp with h | h
      · exact .inl h
      · exact .inr (.inl (List.mem_singleton.mp h))
    · exact .inr (.inr (List.mem_singleton.mp hp))
  refine ⟨fun p hp => ?_, fun p hp => ?_, fun p hp dep hdep => ?_⟩
  · rcases hcases p hp with rfl | rfl | rfl
    · exact hfoo
    · exact IsWord.of_all (by decide) (by decide)
    · exact hfoo
  · rcases hcases p hp with rfl | rfl | rfl
    · decide
    · decide
    · decide
  · rcases hcases p hp with rfl | rfl | rfl
    · exact absurd hdep List.not_mem_nil
    · rw [List.mem_singleton.mp hdep]
      exact IsWord.of_all (by decide) (by decide)
    · exact absurd hdep List.not_mem_nil

/-- The pin breaks, and nothing else. -/
theorem confined_pin : Confined pinWorld [foo ['2'], bar] [] := by
  refine (confined_iff wellFormed_pinWorld (by decide)).mpr ⟨?_, ?_⟩
  · rintro q hq - ⟨p, hp, hconflict⟩
    obtain rfl : p = foo ['2'] := List.mem_singleton.mp hp
    rcases List.mem_cons.mp hq with rfl | hq
    · exact absurd hconflict (by decide)
    · rw [List.mem_singleton.mp hq] at hconflict
      exact absurd hconflict (by decide)
  · rintro p hp dep ⟨hdep, -⟩
    rw [List.mem_singleton.mp hp] at hdep
    exact absurd hdep List.not_mem_nil

/-- `wg` is a drop-in for `w`, and `x` only conflicts with `y`. -/
def dropInWorld : World where
  vercmp := digitCompare
  installed := [⟨['w'], ['1'], [], [], [], []⟩, ⟨['y'], ['1'], [], [], [], []⟩]
  pkgPaths := [⟨⟨['w', 'g'], ['1'], [], [['w']], [['w']], []⟩, true, true⟩,
    ⟨⟨['x'], ['1'], [], [['y']], [], []⟩, true, true⟩]
  allowBreakDeps := []

/-- The answer for `w` removes `y` as well. -/
theorem not_confined : ¬∀ (w : World) (after' removed' : List Package), WellFormed w →
    batchInstallPkgs w = some (after', removed') → Confined w after' removed' := by
  intro h
  have hwell : WellFormed dropInWorld := by
    have hcases : ∀ p, p ∈ dropInWorld.installed ∨ p ∈ incoming dropInWorld →
        IsWord p.name ∧ '\'' ∉ p.version ∧ p.depends = [] := by
      rintro p (hp | hp) <;> rcases List.mem_cons.mp hp with rfl | hp
      · exact ⟨IsWord.of_all (by decide) (by decide), by decide, rfl⟩
      · rw [List.mem_singleton.mp hp]
        exact ⟨IsWord.of_all (by decide) (by decide), by decide, rfl⟩
      · exact ⟨IsWord.of_all (by decide) (by decide), by decide, rfl⟩
      · rw [List.mem_singleton.mp hp]
        exact ⟨IsWord.of_all (by decide) (by decide), by decide, rfl⟩
    refine ⟨fun p hp => (hcases p hp).1, fun p hp => (hcases p hp).2.1, fun p hp dep hdep => ?_⟩
    rw [(hcases p hp).2.2] at hdep
    exact absurd hdep List.not_mem_nil
  have hbatch : batchInstallPkgs dropInWorld =
      some (incoming dropInWorld, dropInWorld.installed) := by decide
  have hconfined := h dropInWorld _ _ hwell hbatch
  obtain ⟨f, hf, hsuperseded⟩ := hconfined.conflicts ⟨['y'], ['1'], [], [], [], []⟩
    (List.mem_cons_of_mem _ List.mem_cons_self)
  rcases List.mem_cons.mp hf with rfl | hf
  · exact absurd hsuperseded (by decide)
  · rw [List.mem_singleton.mp hf] at hsuperseded
    exact absurd hsuperseded (by decide)

end Sysforge.Pacman
