import Sysforge.Sandbox.InstallFiles

/-!
# The repository LLVM for rust targets

For a target that pulls rust, no artifact of the host that needs `llvm-libs` may go into the
container. `llvm_linked` follows the host's dependencies by package names. `swapped_iff` says that
this is enough exactly when every artifact on offer that needs `llvm-libs` over the overlaid
database, through provided names as well, is host-only and needs it in this way.
-/

namespace Sysforge.Sandbox

open Text Makepkg.Artifacts Pacman

/-! ## The property -/

/-- A package meets a requirement by its name, by the exact provide or, when the requirement does
not ask for one version, by the provided name. -/
def Meets (w : World) (dep name : Text) : Prop :=
  bareName dep = name ∨ ∃ rel ∈ overlay w name, dep ∈ rel.provides ∨
    (¬bareName dep ++ ['='] <+: dep ∧ bareName dep ∈ rel.provides.map bareName)

/-- A package has a requirement that the other one meets. -/
def Requires (w : World) (a b : Text) : Prop :=
  ∃ rel ∈ overlay w a, ∃ dep ∈ rel.depends, Meets w dep b

/-- A package is `llvm-libs` or needs it. -/
def NeedsLlvm (w : World) (name : Text) : Prop :=
  Relation.ReflTransGen (Requires w) name libllvmPkg

/-- What `fetch_repo_packages` supplied. -/
def fetched (w : World) : List Path := (fetchSwap w).getD [] ++ (fetchMultilib w).getD []

/-- Nothing on the list but repository builds needs `llvm-libs`, which is there as one. -/
structure Swapped (w : World) (list : List Path) : Prop where
  clean : ∀ p ∈ list, p ∉ fetched w → ¬NeedsLlvm w (artifactPkgname p)
  there : ∃ p ∈ list, artifactPkgname p = libllvmPkg
  repo : ∀ p ∈ list, artifactPkgname p = libllvmPkg → p ∈ fetched w

/-- There is an artifact to install: one of this run for a package that the target needs, or one at
the host's version for a host-only package that the target or the toolchain needs. -/
def Offered (w : World) (n : Text) : Prop :=
  (n ∈ w.hostOnly ∧ (∃ p ∈ installedArtifact w n, w.present p = true) ∧
    (Needed w n ∨ ToolchainNeeds w n)) ∨
  (Needed w n ∧ ∃ p ∈ sessionFiles w, artifactPkgname p = n)

/-- A name that the repository builds take off the list: one that `llvm_linked` names, and
`multilib-devel` for a 32-bit target. -/
def LeftToRepo (w : World) (n : Text) : Prop :=
  HostLinked w n ∨ (w.multilib = true ∧ n = multilibDevel)

/-! ## The list of a rust target -/

section Swap

variable {w : World} {dir : PkgDir} {out swap multilib list : List Path} {n : Text} {p : Path}

theorem offered_iff (hw : Stocked w dir) (h : gathered w = some out) :
    Offered w n ↔ ∃ p ∈ out, artifactPkgname p = n := by
  have hchain : ∀ m, m ∈ w.hostOnly → (m ∈ toolchainClosure w ↔ ToolchainNeeds w m) :=
    fun m hm => mem_toolchainClosure.trans (and_iff_right (List.ne_nil_of_mem hm))
  constructor
  · rintro (⟨hn, ⟨p, hp, hpresent⟩, hneed⟩ | ⟨hneeded, p, hp, rfl⟩)
    · refine ⟨p, (mem_gathered h).mpr (.inl ⟨hpresent, n, hn, hp, ?_⟩),
        artifactPkgname_installedArtifact hw hp⟩
      exact hneed.imp_right (hchain n hn).mpr
    · exact ⟨p, (mem_gathered h).mpr (.inr ⟨hp, hneeded⟩), rfl⟩
  · rintro ⟨p, hp, rfl⟩
    rcases (mem_gathered h).mp hp with ⟨hpresent, m, hm, hart, hneed⟩ | ⟨hsess, hneeded⟩
    · rw [artifactPkgname_installedArtifact hw hart]
      exact .inl ⟨hm, ⟨p, hart, hpresent⟩, hneed.imp_right (hchain m hm).mp⟩
    · exact .inr ⟨hneeded, p, hsess, rfl⟩

/-- **A rust target** gets nothing of the host that needs `llvm-libs` exactly when what is on offer
and needs it is left to the repositories. -/
theorem swapped_iff (hw : Stocked w dir) (hrust : needsRepoRust w = true)
    (hllvm : libllvmPkg ∈ w.hostOnly) (hlist : installArgs w = some list) :
    Swapped w list ↔ ∀ n, Offered w n → NeedsLlvm w n → LeftToRepo w n := by
  obtain ⟨out, swap, multilib, hout, hswap, hmultilib, rfl⟩ := installArgs_eq_some hlist
  have hfetched : fetched w = swap ++ multilib := by
    rw [fetched, hswap, hmultilib, Option.getD_some, Option.getD_some]
  -- a repository build has the last word on its name
  have hlast : ∀ p ∈ lastPerPkgname (out.filter (fun p => artifactPkgname p ∉ linkedFor w) ++
      (swap ++ multilib)), (∃ q ∈ swap ++ multilib, artifactPkgname q = artifactPkgname p) →
        p ∈ fetched w := by
    rintro p hp ⟨q, hq, hname⟩
    rw [mem_lastPerPkgname, lastFor_append] at hp
    cases hfetch : lastFor (swap ++ multilib) (artifactPkgname p) with
    | none => exact absurd hname (lastFor_eq_none.mp hfetch q hq)
    | some r =>
      rw [hfetch, Option.some_or] at hp
      rw [hfetched, ← Option.some.inj hp]
      exact (mem_of_lastFor hfetch).1
  have hrepo : ∃ q ∈ swap ++ multilib, artifactPkgname q = libllvmPkg := by
    obtain ⟨q, hq, hname⟩ := (mem_names_fetchSwap hw hswap).mpr
      ⟨.inl rfl, libllvmPkg_mem_linkedFor hrust hllvm⟩
    exact ⟨q, List.mem_append_left _ hq, hname⟩
  constructor
  · intro h n hoffered hneeds
    by_contra hleft
    obtain ⟨hlinked, hmulti⟩ := not_or.mp hleft
    rw [← mem_linkedFor hrust hllvm] at hlinked
    obtain ⟨p, hp, rfl⟩ := (offered_iff hw hout).mp hoffered
    have hfetch : ∀ q ∈ swap ++ multilib, artifactPkgname q ≠ artifactPkgname p := by
      intro q hq hname
      rcases List.mem_append.mp hq with hq | hq
      · exact hlinked ((mem_names_fetchSwap hw hswap).mp ⟨q, hq, hname⟩).2
      · exact hmulti ((mem_names_fetchMultilib hw hmultilib).mp ⟨q, hq, hname⟩)
    cases hlastFor : lastFor (out.filter (fun p => artifactPkgname p ∉ linkedFor w))
      (artifactPkgname p) with
    | none =>
      refine lastFor_eq_none.mp hlastFor p (List.mem_filter.mpr ⟨hp, ?_⟩) rfl
      exact decide_eq_true hlinked
    | some q =>
      obtain ⟨-, hname⟩ := mem_of_lastFor hlastFor
      refine h.clean q ?_ ?_ (hname.symm ▸ hneeds)
      · rw [mem_lastPerPkgname, lastFor_append, hname, lastFor_eq_none.mpr hfetch, Option.none_or,
          hlastFor]
      · rw [hfetched]
        exact fun hq => hfetch q hq hname
  · intro h
    refine ⟨fun p hp hnot hneeds => ?_, ?_, fun p hp hname => ?_⟩
    · have hmem := (mem_of_lastFor (mem_lastPerPkgname.mp hp)).1
      rcases List.mem_append.mp hmem with hmem | hmem
      · obtain ⟨hmem, hlinked⟩ := List.mem_filter.mp hmem
        have hlinked := of_decide_eq_true hlinked
        rcases h _ ((offered_iff hw hout).mpr ⟨p, hmem, rfl⟩) hneeds with hleft | hmulti
        · exact hlinked ((mem_linkedFor hrust hllvm).mpr hleft)
        · obtain ⟨q, hq, hname⟩ := (mem_names_fetchMultilib hw hmultilib).mpr hmulti
          exact hnot (hlast p hp ⟨q, List.mem_append_right _ hq, hname⟩)
      · exact hnot (hfetched ▸ hmem)
    · obtain ⟨q, hq, hname⟩ := hrepo
      cases hfetch : lastFor (swap ++ multilib) libllvmPkg with
      | none => exact absurd hname (lastFor_eq_none.mp hfetch q hq)
      | some r =>
        refine ⟨r, ?_, (mem_of_lastFor hfetch).2⟩
        rw [mem_lastPerPkgname, lastFor_append, (mem_of_lastFor hfetch).2, hfetch, Option.some_or]
    · exact hlast p hp (hname ▸ hrepo)

end Swap

/-! ## A build with rust and a library -/

/-- `llvm-libs-1-1-any.pkg.tar`, in the cache of pacman. -/
def repoLlvm : Path :=
  ⟨['c'], libllvmPkg ++ ['-', '1', '-', '1', '-', 'a', 'n', 'y', '.', 'p', 'k', 'g', '.', 't', 'a',
    'r']⟩

/-- `foo-1-1-any.pkg.tar`, in the directory of built packages. -/
def fooFile : Path := ⟨['d'], fooArtifact.filename⟩

/-- The host has its own `foo` and its own `llvm-libs`, which provides `s=1`. -/
def rustWorld (depends : List Text) : World where
  db := .ofItems [(fooArtifact.name.text, ⟨depends, []⟩), (libllvmPkg, ⟨[], [['s', '=', '1']]⟩)]
  hostOnly := [fooArtifact.name.text, libllvmPkg]
  session := []
  present _ := true
  pkginfo _ := ⟨[], []⟩
  version n := if n = fooArtifact.name.text then some ['1', '-', '1'] else none
  searchDir := ['d']
  archive := [fooArtifact.filename]
  builddeps := some [['r', 'u', 's', 't'], fooArtifact.name.text]
  toolchain := []
  multilib := false
  row n := if n = libllvmPkg then some (['e'], repoLlvm.name) else none
  downloads _ := true
  cached f := if f = repoLlvm.name then some repoLlvm else none

theorem stocked_rustWorld (depends : List Text) :
    Stocked (rustWorld depends) [(fooArtifact, false)] where
  archive := rfl
  epochs a ha := by
    rw [(Prod.mk.inj (List.mem_singleton.mp ha)).1]
    exact (Option.some_ne_none _).symm
  exts a ha e he := by
    rw [(Prod.mk.inj (List.mem_singleton.mp ha)).1] at he
    exact absurd he (Option.not_mem_none e)
  row n r hr p hp := by
    have hr : (if n = libllvmPkg then some (['e'], repoLlvm.name) else none) = some r := hr
    have hp : (if r.2 = repoLlvm.name then some repoLlvm else none) = some p := hp
    split_ifs at hr hp with hn
    rw [hn, ← Option.some.inj hp]
    decide

/-- A package that names `llvm-libs` is left out. -/
theorem swapped_named : Swapped (rustWorld [libllvmPkg]) [repoLlvm] := by
  refine (swapped_iff (stocked_rustWorld _) (by decide) (by decide) (by decide)).mpr ?_
  rintro n (⟨hn, -, -⟩ | ⟨-, p, hp, -⟩) -
  · refine .inl ⟨hn, ?_⟩
    have hcases : n = fooArtifact.name.text ∨ n = libllvmPkg := by
      rcases List.mem_cons.mp hn with h | h
      · exact .inl h
      · exact .inr (List.mem_singleton.mp h)
    rcases hcases with rfl | rfl
    · exact .single ⟨⟨[libllvmPkg], []⟩, rfl, libllvmPkg, List.mem_cons_self, by decide⟩
    · exact .refl
  · exact absurd hp List.not_mem_nil

/-- A package that needs `llvm-libs` by a name that it provides stays. -/
theorem not_swapped : ¬∀ (w : World) (dir : PkgDir) (list : List Path), Stocked w dir →
    needsRepoRust w = true → libllvmPkg ∈ w.hostOnly → installArgs w = some list →
      Swapped w list := by
  intro h
  have hswapped := h (rustWorld [['s', '=', '1']]) _ [fooFile, repoLlvm] (stocked_rustWorld _)
    (by decide) (by decide) (by decide)
  refine hswapped.clean fooFile List.mem_cons_self (by decide) (.single ?_)
  refine ⟨⟨[['s', '=', '1']], []⟩, rfl, ['s', '=', '1'], List.mem_cons_self, .inr ?_⟩
  exact ⟨⟨[], [['s', '=', '1']]⟩, rfl, .inl List.mem_cons_self⟩

end Sysforge.Sandbox
