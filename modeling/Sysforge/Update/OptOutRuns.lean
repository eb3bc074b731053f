import Mathlib.Data.List.Induction
import Sysforge.Foundations.Run
import Sysforge.Install.InstallEffects
import Sysforge.Update.Assemble

/-!
# Opt-outs are durable

A decision of `forget_packages` covers the name it forgets, its stock spelling and its stock pkgbase.
It stands until an adoption gives a name that the pkgbase's record covers. After every sequence of
calls the record covers exactly the names with a standing decision, and the targets of an update
that names no package are exactly the installed packages that an adoption source proposes without
these.
-/

namespace Sysforge.OptOut

variable {f : Rows} {b n base via now pn : String} {names : List String} {s s₀ : State} {op : Op}
  {ops : List Op}

/-! ## What the record covers -/

/-- The record of the pkgbase covers the name. -/
def Covers (f : Rows) (b n : String) : Prop :=
  ∃ row, (load f).get b = some row ∧ n ∈ row.pkgnames

theorem mem_sortedSet : n ∈ sortedSet names ↔ n ∈ names := by
  rw [sortedSet, List.mem_insertionSort, List.mem_dedup]

theorem covers_iff : Covers f b n ↔
    ∃ row, f.get b = some row ∧ (n ∈ row.pkgnames ∧ n ≠ "" ∨ n = b) := by
  rw [Covers, load]
  simp only [Dict.get_map, Option.map_eq_some_iff]
  constructor
  · rintro ⟨_, ⟨row, hrow, rfl⟩, hn⟩
    rw [mem_sortedSet, List.mem_append, List.mem_filter, decide_eq_true_iff,
      List.mem_singleton] at hn
    exact ⟨row, hrow, hn⟩
  · rintro ⟨row, hrow, hn⟩
    refine ⟨_, ⟨row, hrow, rfl⟩, ?_⟩
    rw [mem_sortedSet, List.mem_append, List.mem_filter, decide_eq_true_iff, List.mem_singleton]
    exact hn

theorem covers_congr {g : Rows} (h : g.get b = f.get b) : Covers g b n ↔ Covers f b n := by
  rw [covers_iff, covers_iff, h]

theorem ne_of_covers (h : Covers f b n) : n ≠ "" ∨ n = b := by
  obtain ⟨row, -, hn | hn⟩ := covers_iff.mp h
  · exact .inl hn.2
  · exact .inr hn

theorem base_mem_load {row : Row} (h : (load f).get b = some row) : b ∈ row.pkgnames := by
  rw [load, Dict.get_map] at h
  obtain ⟨r, -, rfl⟩ := Option.map_eq_some_iff.mp h
  exact mem_sortedSet.mpr (List.mem_append_right _ (List.mem_singleton_self b))

/-- Reading the file twice is the same as once. -/
theorem covers_load : Covers (load f) b n ↔ Covers f b n := by
  rw [covers_iff]
  constructor
  · rintro ⟨row, hrow, hn⟩
    refine ⟨row, hrow, ?_⟩
    rcases hn with hn | hn
    · exact hn.1
    · exact hn ▸ base_mem_load hrow
  · intro h
    obtain ⟨row, hrow, hn⟩ := id h
    exact ⟨row, hrow, (ne_of_covers h).imp_left fun hne => ⟨hn, hne⟩⟩

theorem mem_prior :
    n ∈ (((load f).get b).map (·.pkgnames)).getD [] ↔ Covers f b n := by
  rw [Covers]
  cases (load f).get b with
  | none => exact iff_of_false List.not_mem_nil fun ⟨_, h, _⟩ => absurd h.symm (Option.some_ne_none _)
  | some row => exact ⟨fun h => ⟨row, rfl, h⟩, fun ⟨_, h, hn⟩ => Option.some.inj h ▸ hn⟩

/-- `add` adds the names it is given and the pkgbase to what the pkgbase's record covers. -/
theorem covers_add : Covers (add f base names via now) b n ↔
    Covers f b n ∨ b = base ∧ (n ∈ names ∧ n ≠ "" ∨ n = base) := by
  by_cases hb : b = base
  · subst hb
    have hrow : ∀ row : Row, (add f b names via now).get b = some row → (n ∈ row.pkgnames ↔
        Covers f b n ∨ n ∈ names ∧ n ≠ "" ∨ n = b) := by
      intro row hrow
      rw [add, Dict.get_set, if_pos rfl] at hrow
      obtain rfl := Option.some.inj hrow
      rw [mem_sortedSet, List.mem_append, List.mem_append, mem_prior, List.mem_filter,
        decide_eq_true_iff, List.mem_singleton, or_assoc]
    have hget : ∃ row, (add f b names via now).get b = some row :=
      ⟨_, (Dict.get_set ..).trans (if_pos rfl)⟩
    obtain ⟨row, hget⟩ := hget
    have hcov : Covers f b n → n ≠ "" ∨ n = b := ne_of_covers
    rw [covers_iff]
    constructor
    · rintro ⟨row', hrow', hn⟩
      rw [hrow row' hrow'] at hn
      tauto
    · intro h
      refine ⟨row, hget, ?_⟩
      rw [hrow row hget]
      tauto
  · have hget : (add f base names via now).get b = (load f).get b := by
      rw [add, Dict.get_set, if_neg hb]
    rw [covers_congr hget, covers_load, or_iff_left fun h => hb h.1]

theorem mem_cleared : b ∈ cleared f names ↔ ∃ m ∈ names, Covers f b m := by
  rw [cleared, List.mem_insertionSort, List.mem_map]
  constructor
  · rintro ⟨⟨b, row⟩, hp, rfl⟩
    obtain ⟨hmem, hany⟩ := List.mem_filter.mp hp
    obtain ⟨m, hm, hnames⟩ := List.any_eq_true.mp hany
    exact ⟨m, of_decide_eq_true hnames, row, Dict.mem_items.mp hmem, hm⟩
  · rintro ⟨m, hm, row, hrow, hmem⟩
    refine ⟨(b, row), List.mem_filter.mpr ⟨Dict.mem_items.mpr hrow, ?_⟩, rfl⟩
    exact List.any_eq_true.mpr ⟨m, hmem, decide_eq_true hm⟩

/-- `clear` removes every record that covers one of the names. -/
theorem covers_clear : Covers (clear f names) b n ↔
    Covers f b n ∧ ∀ m ∈ names, ¬Covers f b m := by
  have hiff : (∀ m ∈ names, ¬Covers f b m) ↔ b ∉ cleared f names := by
    rw [mem_cleared]
    push Not
    rfl
  rw [hiff, clear]
  by_cases hnil : cleared f names = []
  · rw [if_pos hnil, hnil]
    exact (and_iff_left List.not_mem_nil).symm
  · rw [if_neg hnil]
    by_cases hb : b ∈ cleared f names
    · refine iff_of_false (fun h => ?_) fun h => h.2 hb
      obtain ⟨row, hrow, -⟩ := covers_iff.mp h
      rw [Dict.get_foldl_erase, if_pos hb] at hrow
      cases hrow
    · rw [and_iff_left hb, ← @covers_load f]
      refine covers_congr ?_
      rw [Dict.get_foldl_erase, if_neg hb]

/-- An update asks whether any record covers a name. -/
theorem covering_isSome : (covering (load f) n).isSome = true ↔ ∃ b, Covers f b n := by
  rw [covering, Option.isSome_map, List.find?_isSome]
  constructor
  · rintro ⟨⟨b, row⟩, hmem, hn⟩
    exact ⟨b, row, Dict.mem_items.mp hmem, of_decide_eq_true hn⟩
  · rintro ⟨b, row, hrow, hn⟩
    exact ⟨(b, row), Dict.mem_items.mpr hrow, decide_eq_true hn⟩

/-! ## What a call decides -/

theorem covers_foldl_add {ds : List (String × List String)} :
    Covers (ds.foldl (fun f d => add f d.1 d.2 via now) f) b n ↔
      Covers f b n ∨ ∃ d ∈ ds, b = d.1 ∧ (n ∈ d.2 ∧ n ≠ "" ∨ n = d.1) := by
  induction ds generalizing f with
  | nil => simp
  | cons d ds ih => rw [List.foldl_cons, ih, covers_add, or_assoc, List.exists_mem_cons_iff]

/-- The names that forgetting one package decides on, for its pkgbase. -/
def Names (pn : String) (e : BuildState.Entry) (b n : String) : Prop :=
  b = stockBase pn e ∧ ((n = pn ∨ n = stockName pn) ∧ n ≠ "" ∨ n = b)

theorem covers_recordOptOut {allPkgs : Dict String BuildState.Entry} {forgotten : List String} :
    Covers (recordOptOut f allPkgs forgotten via now) b n ↔
      Covers f b n ∨ ∃ pn ∈ forgotten, ∃ e, allPkgs.get pn = some e ∧ Names pn e b n := by
  rw [recordOptOut, covers_foldl_add]
  refine or_congr_right ?_
  simp only [decisions, List.mem_map, mem_sortedSet, List.mem_filterMap, Option.map_eq_some_iff,
    Names]
  constructor
  · rintro ⟨_, ⟨_, ⟨_, ⟨pn, hpn, e, he, rfl⟩, rfl⟩, rfl⟩, rfl, hn⟩
    obtain ⟨hmem, hne⟩ | rfl := hn
    · obtain ⟨q, hq, hnq⟩ := List.mem_flatMap.mp hmem
      obtain ⟨hq, hbase⟩ := List.mem_filter.mp hq
      obtain ⟨pn', hpn', hq⟩ := List.mem_filterMap.mp hq
      obtain ⟨e', he', rfl⟩ := Option.map_eq_some_iff.mp hq
      refine ⟨pn', hpn', e', he', (of_decide_eq_true hbase).symm, .inl ⟨?_, hne⟩⟩
      rwa [List.mem_pair] at hnq
    · exact ⟨pn, hpn, e, he, rfl, .inr rfl⟩
  · rintro ⟨pn, hpn, e, he, rfl, hn⟩
    refine ⟨_, ⟨_, ⟨(stockBase pn e, pn), ⟨pn, hpn, e, he, rfl⟩, rfl⟩, rfl⟩, rfl, ?_⟩
    refine hn.imp_left fun hn => ⟨?_, hn.2⟩
    refine List.mem_flatMap.mpr ⟨(stockBase pn e, pn), List.mem_filter.mpr ⟨?_, decide_eq_true rfl⟩,
      List.mem_pair.mpr hn.1⟩
    exact List.mem_filterMap.mpr ⟨pn, hpn, by rw [he, Option.map_some]⟩

/-- The call decides that the pkgbase's record covers the name. -/
def Decides (s : State) (op : Op) (b n : String) : Prop :=
  ∃ names via now, op = .forget names (some via) now ∧ via ≠ "" ∧
    ∃ pn ∈ (forgetPackages s names (some via) now).1.1, ∃ e, s.bs.data.get pn = some e ∧
      Names pn e b n

/-- The call adopts no name that the pkgbase's record covers. -/
def Keeps (b : String) (s : State) (op : Op) : Prop :=
  ∀ names, op = .adopt names → ∀ m ∈ names, ¬Covers s.optOut b m

/-- `forget_packages` without a reason leaves the record as it is. -/
theorem optOut_forgetPackages_of_none {optOut : Option String}
    (h : optOut.filter (· ≠ "") = none) : (forgetPackages s names optOut now).2.optOut = s.optOut := by
  rw [forgetPackages]
  dsimp only
  split_ifs
  · rfl
  · rw [h]

theorem covers_forgetPackages (hvia : via ≠ "") :
    Covers (forgetPackages s names (some via) now).2.optOut b n ↔
      Covers s.optOut b n ∨ ∃ pn ∈ (forgetPackages s names (some via) now).1.1,
        ∃ e, s.bs.data.get pn = some e ∧ Names pn e b n := by
  have hfilter : (some via).filter (· ≠ "") = some via :=
    Option.filter_eq_some_iff.mpr ⟨rfl, decide_eq_true hvia⟩
  have hout : (forgetPackages s names (some via) now).1.1 = (forgetNames s.bs names).forgotten := rfl
  rw [hout, ← covers_recordOptOut, forgetPackages]
  dsimp only
  split_ifs with h
  · rw [h.1]
    rfl
  · rw [hfilter]

/-- What the record covers after a call. -/
theorem covers_step : Covers (step s op).optOut b n ↔
    (Covers s.optOut b n ∨ Decides s op b n) ∧ Keeps b s op := by
  cases op with
  | forget pkgnames optOut now =>
    have hkeeps : Keeps b s (.forget pkgnames optOut now) := nofun
    rw [and_iff_left hkeeps, step]
    cases hf : optOut.filter (· ≠ "") with
    | none =>
      rw [optOut_forgetPackages_of_none hf, or_iff_left]
      rintro ⟨_, via, _, hop, hvia, -⟩
      cases hop
      rw [Option.filter_some, if_pos (decide_eq_true hvia)] at hf
      cases hf
    | some via =>
      obtain ⟨rfl, hvia⟩ := Option.filter_eq_some_iff.mp hf
      rw [covers_forgetPackages (of_decide_eq_true hvia)]
      refine or_congr_right ⟨fun h => ⟨pkgnames, via, now, rfl, of_decide_eq_true hvia, h⟩, ?_⟩
      rintro ⟨_, _, _, hop, -, h⟩
      cases hop
      exact h
  | adopt names =>
    have hno : ¬Decides s (.adopt names) b n := nofun
    rw [or_iff_left hno, step, covers_clear]
    refine and_congr_right' ⟨fun h _ hop => ?_, fun h => h names rfl⟩
    cases hop
    exact h
  | rewrite bs =>
    have hno : ¬Decides s (.rewrite bs) b n := nofun
    have hkeeps : Keeps b s (.rewrite bs) := nofun
    rw [or_iff_left hno, and_iff_left hkeeps, step]

/-! ## What a sequence of calls decides -/

/-- A call of the sequence decided on the name, and no later one adopted a name that the pkgbase's
record covered. -/
def Standing (s₀ : State) (ops : List Op) (b n : String) : Prop :=
  ∃ pre op post, ops = pre ++ op :: post ∧ Decides (Run.run step s₀ pre) op b n ∧
    Run.Each step (Keeps b) (Run.run step s₀ (pre ++ [op])) post

theorem run_append_singleton (ops : List Op) (op : Op) :
    Run.run step s₀ (ops ++ [op]) = step (Run.run step s₀ ops) op :=
  List.foldl_append

theorem run_split (pre post : List Op) (op : Op) : Run.run step s₀ (pre ++ op :: post) =
    Run.run step (Run.run step s₀ (pre ++ [op])) post := by
  rw [Run.run, Run.run, Run.run, ← List.foldl_append, List.append_assoc]
  rfl

/-- A covered name stays covered while no call adopts. -/
theorem covers_of_keeps (h : Covers s.optOut b n) (hk : Run.Each step (Keeps b) s ops) :
    Covers (Run.run step s ops).optOut b n :=
  @Run.Each.invariant _ _ step _ s ops (fun s => Covers s.optOut b n) hk h
    fun _ _ _ hs hop => covers_step.mpr ⟨.inl hs, hop⟩

/-- **The record covers exactly the names with a standing decision.** -/
theorem covers_iff_standing {bs : BuildState} :
    Covers (Run.run step ⟨bs, .empty⟩ ops).optOut b n ↔ Standing ⟨bs, .empty⟩ ops b n := by
  constructor
  · induction ops using List.reverseRecOn with
    | nil =>
      rintro ⟨row, hrow, -⟩
      cases hrow
    | append_singleton ops op ih =>
      intro h
      rw [run_append_singleton, covers_step] at h
      obtain ⟨hold | hnew, hk⟩ := h
      · obtain ⟨pre, op', post, rfl, hdec, heach⟩ := ih hold
        refine ⟨pre, op', post ++ [op], by simp, hdec, Run.each_append.mpr ⟨heach, ?_, trivial⟩⟩
        exact run_split pre post op' ▸ hk
      · exact ⟨ops, op, [], rfl, hnew, trivial⟩
  · rintro ⟨pre, op, post, rfl, hdec, heach⟩
    have hk : Keeps b (Run.run step ⟨bs, .empty⟩ pre) op := by
      obtain ⟨_, _, _, rfl, -⟩ := hdec
      nofun
    have hcov : Covers (Run.run step ⟨bs, .empty⟩ (pre ++ [op])).optOut b n := by
      rw [run_append_singleton]
      exact covers_step.mpr ⟨.inr hdec, hk⟩
    rw [run_split]
    exact covers_of_keeps hcov heach

/-! ## The targets of an update -/

open Assemble Install

variable {args : Args} {bs bs₀ : BuildState} {env : Env} {optedOut : Rows}

theorem mem_assembled (hnames : args.pkgnames = []) :
    n ∈ (assemblePackageSet args bs env optedOut).packages.keys ∨
        n ∈ (assemblePackageSet args bs env optedOut).stageOwnedPackages.keys ↔
      n ∈ targetNames args bs env optedOut := by
  rw [assemblePackageSet, Dict.mem_keys_ofItems, Dict.mem_keys_ofItems]
  dsimp only
  rw [if_pos hnames, Assoc.keys, Assoc.keys, List.map_map, List.mem_map, List.mem_map]
  simp only [List.mem_filter, List.mem_filterMap, Option.map_eq_some_iff]
  constructor
  · rintro (⟨m, ⟨hm, -⟩, rfl⟩ | ⟨_, ⟨m, hm, owner, -, rfl⟩, rfl⟩)
    · exact hm
    · exact hm
  · intro hn
    cases ho : stageOwned args bs env n with
    | none => exact .inl ⟨n, ⟨hn, by rw [ho, Option.isNone_none]⟩, rfl⟩
    | some owner => exact .inr ⟨_, ⟨n, hn, owner, ho, rfl⟩, rfl⟩

theorem mem_targetNames (hnames : args.pkgnames = []) :
    n ∈ targetNames args bs env (load optedOut) ↔
      n ∈ env.installed.keys ∧ adopted bs env n = true ∧ ∀ b, ¬Covers optedOut b n := by
  have hsup : suppressed args (load optedOut) n = true ↔ ∃ b, Covers optedOut b n := by
    rw [suppressed, hnames, Bool.and_eq_true, covering_isSome]
    exact and_iff_right (decide_eq_true List.not_mem_nil)
  rw [targetNames, List.mem_filter, List.mem_filter, Bool.not_eq_true', ← Bool.not_eq_true, hsup,
    not_exists, and_assoc]

/-- **The targets of an update that names no package** are the installed packages that an adoption
source proposes and that no standing decision covers, and what their builds install was made for
such a package. -/
theorem optOut_durable (bs₀ : BuildState) (ops : List Op) (bs : BuildState) (env : Env)
    (hnames : args.pkgnames = []) :
    let s₀ : State := ⟨bs₀, .empty⟩
    let r := assemblePackageSet args bs env (load (Run.run step s₀ ops).optOut)
    (∀ n, n ∈ r.packages.keys ∨ n ∈ r.stageOwnedPackages.keys ↔
      n ∈ env.installed.keys ∧ adopted bs env n = true ∧ ∀ b, ¬Standing s₀ ops b n) ∧
    ∀ (sys : System) (makes : String → List Artifact) (bases always : List String) (h : Host),
      (∀ base ∈ bases, ∃ n p, r.packages.get n = some p ∧ p.pkgbase n = base) →
      ∃ new, (installBuilt sys true always h (bases.flatMap makes)).host.log = h.log ++ new ∧
        ∀ t ∈ new, ∀ f ∈ t.files, ∃ n p, r.packages.get n = some p ∧ f ∈ makes (p.pkgbase n) ∧
          ∀ b, ¬Standing s₀ ops b n := by
  intro s₀ r
  have htargets : ∀ n, n ∈ r.packages.keys ∨ n ∈ r.stageOwnedPackages.keys ↔
      n ∈ env.installed.keys ∧ adopted bs env n = true ∧ ∀ b, ¬Standing s₀ ops b n := by
    intro n
    rw [mem_assembled hnames, mem_targetNames hnames]
    simp only [covers_iff_standing, s₀]
  refine ⟨htargets, fun sys makes bases always h hbases => ?_⟩
  obtain ⟨⟨new, hlog, hfiles⟩, -⟩ := @installBuilt_log sys true always h (bases.flatMap makes)
  refine ⟨new, hlog, fun t ht f hf => ?_⟩
  obtain ⟨base, hbase, hmade⟩ := List.mem_flatMap.mp (hfiles t ht hf)
  obtain ⟨n, p, hp, rfl⟩ := hbases base hbase
  have hn : n ∈ r.packages.keys := by
    by_contra hno
    exact Option.some_ne_none p (hp.symm.trans (Dict.get_eq_none.mpr hno))
  exact ⟨n, p, hp, hmade, ((htargets n).mp (.inl hn)).2.2⟩

/-! ## A split package with one member forgotten -/

/-- Three members of `mesa`, all built from source. -/
def splitMesa : BuildState :=
  let e : BuildState.Entry := { pkgbase := some "mesa", buildMode := some "source_built" }
  { BuildState.empty with
    data := .ofItems [("mesa", e), ("opencl-mesa", e), ("vulkan-radeon", e)] }

/-- `sysforge state forget vulkan-radeon`. -/
def forgetRadeon : Op := .forget ["vulkan-radeon"] (some "forget") "2026-10-01T00:00:00Z"

/-- The two files after it. -/
def radeonForgotten : State := Run.run step ⟨splitMesa, .empty⟩ [forgetRadeon]

/-- The three members are installed, and only the build state proposes them. -/
def mesaHost : Env where
  installed := .ofItems [("mesa", "1-1"), ("opencl-mesa", "1-1"), ("vulkan-radeon", "1-1")]
  foreign := []
  overrides := .empty
  repoModeSource := false
  srcPath := none
  ownership := {}
  pkgbaseOf _ := none
  aurInfo _ _ := none

/-- A build of `mesa` makes a file for each member. -/
def makesMesa (base : String) : List Artifact :=
  if base = "mesa" then [⟨"/pkg", "mesa"⟩, ⟨"/pkg", "opencl-mesa"⟩, ⟨"/pkg", "vulkan-radeon"⟩]
  else []

/-- Pacman, which accepts every transaction. -/
def accepting : System where
  readPkgname f := some f.name
  readReplaces _ := []
  allInstalled _ := ["mesa", "opencl-mesa", "vulkan-radeon"]
  transact _ _ := .installed

/-- The next update. -/
def afterForget : Assembled :=
  assemblePackageSet {} radeonForgotten.bs mesaHost (load radeonForgotten.optOut)

theorem optOut_durable_radeon :
    (("vulkan-radeon" ∈ afterForget.packages.keys ∨
        "vulkan-radeon" ∈ afterForget.stageOwnedPackages.keys) ↔
      "vulkan-radeon" ∈ mesaHost.installed.keys ∧
        adopted radeonForgotten.bs mesaHost "vulkan-radeon" = true ∧
        ∀ b, ¬Standing ⟨splitMesa, .empty⟩ [forgetRadeon] b "vulkan-radeon") ∧
    ∃ new, (installBuilt accepting true [] ⟨radeonForgotten.bs, 0, []⟩
        (["mesa"].flatMap makesMesa)).host.log = [] ++ new ∧
      ∀ t ∈ new, ∀ f ∈ t.files, ∃ n p, afterForget.packages.get n = some p ∧
        f ∈ makesMesa (p.pkgbase n) ∧ ∀ b, ¬Standing ⟨splitMesa, .empty⟩ [forgetRadeon] b n := by
  obtain ⟨htargets, hinstalls⟩ := @optOut_durable {} splitMesa [forgetRadeon] radeonForgotten.bs
    mesaHost rfl
  refine ⟨htargets "vulkan-radeon", hinstalls accepting makesMesa ["mesa"] [] _ fun base hbase => ?_⟩
  obtain rfl := List.mem_singleton.mp hbase
  exact ⟨"opencl-mesa", _, rfl, by decide⟩

/-- Forgetting one member suppresses the package of the pkgbase's name, which was not forgotten, and
the rebuild for the third member installs the forgotten one. -/
theorem not_optOut_durable_radeon :
    (forgetPackages ⟨splitMesa, .empty⟩ ["vulkan-radeon"] (some "forget")
        "2026-10-01T00:00:00Z").1.1 = ["vulkan-radeon"] ∧
    "mesa" ∈ mesaHost.installed.keys ∧ adopted radeonForgotten.bs mesaHost "mesa" = true ∧
    "mesa" ∉ afterForget.packages.keys ∧ "mesa" ∉ afterForget.stageOwnedPackages.keys ∧
    afterForget.packages.keys = ["opencl-mesa"] ∧
    ⟨"/pkg", "vulkan-radeon"⟩ ∈ (installBuilt accepting true [] ⟨radeonForgotten.bs, 0, []⟩
      (makesMesa "mesa")).installed := by
  decide

end Sysforge.OptOut
