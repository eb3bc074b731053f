import Sysforge.Toolchain.Install

/-!
# A rollback restores the toolchain

Whatever part of an install took effect, a rollback that succeeds leaves every package at the build
that was installed before: the snapshot covers the installed packages that the install can replace,
and the members that were not installed are removed. This needs the archives of the snapshot to be
there still, and to hold the builds that were installed.
-/

namespace Sysforge.Toolchain

variable {β : Type*} {host : Host β} {files : Files β} {sys sys' before : Installed β} {o : Outcome}
  {built : Dict String String} {ps names : List String} {n p : String} {b : β}

/-! ## Transactions -/

/-- The package file holds the package. -/
def Holds (files : Files β) (p n : String) : Prop := readPkgnameFromFile files p = some n

theorem get_installFile_of_not (h : ¬Holds files p n) : (installFile files sys p).get n = sys.get n := by
  rw [installFile]
  cases hp : files p with
  | none => rfl
  | some a =>
    cases ha : a.pkgname with
    | none => simp only [ha]
    | some m =>
      simp only [ha]
      rw [Dict.get_set, if_neg]
      rintro rfl
      exact h (by rw [Holds, readPkgnameFromFile, hp, Option.bind_some, ha])

/-- A package that none of the files holds is left alone. -/
theorem get_foldl_installFile_of_not (h : ∀ p ∈ ps, ¬Holds files p n) :
    (ps.foldl (installFile files) sys).get n = sys.get n := by
  induction ps generalizing sys with
  | nil => rfl
  | cons p ps ih =>
    rw [List.foldl_cons, ih fun q hq => h q (List.mem_cons_of_mem _ hq),
      get_installFile_of_not (h p List.mem_cons_self)]

theorem get_pacmanU_of_not (h : ∀ p ∈ ps, ¬Holds files p n) :
    (pacmanU files sys o ps).2.get n = sys.get n := by
  cases o with
  | ok => exact get_foldl_installFile_of_not h
  | failed done =>
    exact get_foldl_installFile_of_not fun p hp => h p (List.mem_of_mem_filter hp)

/-- The file holds the package at the build that `before` has of it. -/
def Restores (files : Files β) (before : Installed β) (p n : String) : Prop :=
  ∃ a, files p = some a ∧ a.pkgname = some n ∧ before.get n = some a.build

theorem get_installFile_of_restores (h : Restores files before p n) :
    (installFile files sys p).get n = before.get n := by
  obtain ⟨a, hp, ha, hb⟩ := h
  rw [installFile, hp]
  simp only
  rw [ha]
  simp only
  rw [Dict.get_set, if_pos rfl, hb]

/-- Installing archives of the builds of `before` brings every package to its build there, or leaves
it alone. -/
theorem get_foldl_restores (h : ∀ p ∈ ps, ∃ m, Restores files before p m)
    (hn : sys.get n = before.get n ∨ ∃ p ∈ ps, Restores files before p n) :
    (ps.foldl (installFile files) sys).get n = before.get n := by
  induction ps generalizing sys with
  | nil => exact hn.resolve_right fun ⟨_, hp, _⟩ => List.not_mem_nil hp
  | cons p ps ih =>
    rw [List.foldl_cons]
    refine ih (fun q hq => h q (List.mem_cons_of_mem _ hq)) ?_
    obtain ⟨m, hm⟩ := h p List.mem_cons_self
    by_cases hmn : m = n
    · exact .inl (get_installFile_of_restores (hmn ▸ hm))
    · have hnot : ¬Holds files p n := by
        obtain ⟨a, hp, ha, -⟩ := hm
        rw [Holds, readPkgnameFromFile, hp, Option.bind_some, ha]
        exact fun heq => hmn (Option.some.inj heq)
      rw [get_installFile_of_not hnot]
      refine hn.imp_right ?_
      rintro ⟨q, hq, hr⟩
      rcases List.mem_cons.mp hq with rfl | hq
      · obtain ⟨a, hp, ha, -⟩ := hr
        exact absurd (by rw [Holds, readPkgnameFromFile, hp, Option.bind_some, ha]) hnot
      · exact ⟨q, hq, hr⟩

/-! ## What the install changes -/

/-- What `.PKGINFO` says matches what the PKGBUILDs say: each parses, and each package it builds is
one of its names. -/
def Matches (host : Host β) (files : Files β) (built : Dict String String) : Prop :=
  ∀ dir ∈ built.items.map Prod.snd, ∃ ms, host.pkgnames dir = some ms ∧
    ∀ ps, host.packagelist dir = some ps → ∀ p ∈ ps, (files p).isSome = true →
      endsWith ".sig" p = false → ∃ m ∈ ms, Holds files p m

theorem mem_collectPgoPackages (hm : Matches host files built)
    (hp : p ∈ collectPgoPackages host files built) :
    ∃ dir ∈ built.items.map Prod.snd, ∃ ms, host.pkgnames dir = some ms ∧
      ∃ m ∈ ms, Holds files p m := by
  obtain ⟨dir, hdir, hp⟩ := List.mem_flatMap.mp hp
  obtain ⟨hlist, hkeep⟩ := List.mem_filter.mp hp
  rw [Bool.and_eq_true, Bool.not_eq_true'] at hkeep
  obtain ⟨ms, hms, hall⟩ := hm dir (List.mem_dedup.mp hdir)
  cases hl : host.packagelist dir with
  | none =>
    rw [hl] at hlist
    cases hlist
  | some l =>
    rw [hl, Option.getD_some] at hlist
    exact ⟨dir, List.mem_dedup.mp hdir, ms, hms, hall l hl p hlist hkeep.1 hkeep.2⟩

theorem selectInstallMembers_subset {wanted : List String}
    (hp : p ∈ selectInstallMembers files ps wanted) : p ∈ ps := by
  obtain ⟨q, hq, rfl⟩ := List.mem_map.mp hp
  have hkey := Dict.mem_of_get_ofItems (Dict.mem_items.mp (List.mem_of_mem_filter hq))
  obtain ⟨p', hp', heq⟩ := List.mem_map.mp hkey
  exact (Prod.mk.inj heq).1 ▸ hp'

/-- An installed member of a built PKGBUILD is in the install set. -/
theorem mem_installNames {dir : String} {ms : List String} (hdir : dir ∈ built.items.map Prod.snd)
    (hms : host.pkgnames dir = some ms) (hn : n ∈ ms) (hinst : sys.get n ≠ none) :
    n ∈ installNames host sys built := by
  refine List.mem_append_right _ (List.mem_flatMap.mpr ⟨dir, List.mem_dedup.mpr hdir, ?_⟩)
  rw [hms, Option.getD_some]
  exact List.mem_filter.mpr ⟨hn, decide_eq_true (not_not.mp (mt Dict.get_eq_none.mpr hinst))⟩

theorem isSome_getInstalledVersion : (getInstalledVersion host sys n).isSome = true ↔
    sys.get n ≠ none := by
  rw [getInstalledVersion, Option.isSome_map, Option.isSome_iff_ne_none]

/-- The snapshot has every installed package of its names. -/
theorem mem_snapshotSuite (hn : n ∈ names) (hinst : sys.get n ≠ none) :
    ∃ q, (n, q) ∈ snapshotSuite host sys built names := by
  refine ⟨_, List.mem_map.mpr ⟨n, List.mem_filter.mpr ⟨?_, ?_⟩, rfl⟩⟩
  · rw [List.mem_insertionSort, List.mem_dedup]
    exact List.mem_append_right _ hn
  · exact isSome_getInstalledVersion.mpr hinst

/-- A package that the install can replace was installed and is in the snapshot, or was not and is
among the added ones. -/
theorem snapshot_or_added (hm : Matches host files built)
    (hp : p ∈ selectInstallMembers files (collectPgoPackages host files built)
      (installNames host sys built)) (hn : Holds files p n) :
    (∃ q, (n, q) ∈ snapshotSuite host sys built (installNames host sys built)) ∨
      sys.get n = none ∧ n ∈ installAdds host files sys built (installNames host sys built) := by
  by_cases hinst : sys.get n = none
  · refine .inr ⟨hinst, List.mem_filter.mpr ⟨?_, ?_⟩⟩
    · rw [List.mem_insertionSort, List.mem_dedup]
      exact List.mem_filterMap.mpr ⟨p, hp, hn⟩
    · rw [getInstalledVersion, hinst]
      rfl
  · refine .inl (mem_snapshotSuite ?_ hinst)
    obtain ⟨dir, hdir, ms, hms, m, hmem, hold⟩ :=
      mem_collectPgoPackages hm (selectInstallMembers_subset hp)
    obtain rfl := Option.some.inj (hn.symm.trans hold)
    exact mem_installNames hdir hms hmem hinst

/-! ## What the rollback leaves -/

theorem get_removePkgs (h : (removePkgs sys o names).1 = true) :
    (removePkgs sys o names).2.get n = if n ∈ names then none else sys.get n := by
  cases o with
  | ok => exact Dict.get_foldl_erase names sys n
  | failed done => cases h

theorem get_batchInstallPkgs (h : ∀ p ∈ ps, ∃ m, Restores files before p m)
    (hok : (batchInstallPkgs files sys o ps).1 = true)
    (hn : sys.get n = before.get n ∨ ∃ p ∈ ps, Restores files before p n) :
    (batchInstallPkgs files sys o ps).2.get n = before.get n := by
  have hall : (ps.filter fun p => (files p).isSome) = ps := by
    refine List.filter_eq_self.mpr fun p hp => ?_
    obtain ⟨m, a, ha, -⟩ := h p hp
    rw [ha]
    rfl
  rw [batchInstallPkgs, hall] at hok ⊢
  split_ifs at hok ⊢ with hnil
  cases o with
  | ok => exact get_foldl_restores h hn
  | failed done => cases hok

/-- A rollback that succeeds removes the added packages that are installed and installs the archives
of the snapshot. -/
theorem rollbackToSnapshot_spec {removal install : Outcome} {added : List String}
    {snapshot : List (String × Option String)}
    (hok : (rollbackToSnapshot host files sys removal install snapshot added).1 = true) :
    (∀ q ∈ snapshot, q.2 ≠ none) ∧ ∃ s : Installed β,
      (∀ n, s.get n = if n ∈ added ∧ sys.get n ≠ none then none else sys.get n) ∧
      (batchInstallPkgs files s install (snapshot.filterMap Prod.snd)).1 = true ∧
      (rollbackToSnapshot host files sys removal install snapshot added).2 =
        (batchInstallPkgs files s install (snapshot.filterMap Prod.snd)).2 := by
  have hpresent : ∀ n, n ∈ added.filter (fun n => (getInstalledVersion host sys n).isSome) ↔
      n ∈ added ∧ sys.get n ≠ none := by
    intro n
    rw [List.mem_filter, isSome_getInstalledVersion]
  rw [rollbackToSnapshot] at hok ⊢
  by_cases hnone : snapshot.any (fun q => q.2.isNone) = true
  · rw [if_pos hnone] at hok
    cases hok
  rw [if_neg hnone] at hok ⊢
  refine ⟨fun q hq hnil => hnone ?_, ?_⟩
  · exact List.any_eq_true.mpr ⟨q, hq, Option.isNone_iff_eq_none.mpr hnil⟩
  by_cases hpaths : snapshot.filterMap Prod.snd = []
  · rw [if_pos hpaths] at hok
    cases hok
  rw [if_neg hpaths] at hok ⊢
  simp only at hok ⊢
  by_cases hnil : added.filter (fun n => (getInstalledVersion host sys n).isSome) = []
  · rw [if_pos hnil] at hok ⊢
    refine ⟨sys, fun n => ?_, hok, rfl⟩
    rw [if_neg]
    rw [← hpresent, hnil]
    exact List.not_mem_nil
  · rw [if_neg hnil] at hok ⊢
    cases hr : removePkgs sys removal
        (added.filter fun n => (getInstalledVersion host sys n).isSome) with
    | mk removed s =>
      rw [hr] at hok
      cases removed with
      | false => cases hok
      | true =>
        refine ⟨s, fun n => ?_, hok, rfl⟩
        have hget := @get_removePkgs β sys removal
          (added.filter fun n => (getInstalledVersion host sys n).isSome) n (by rw [hr])
        rw [hr] at hget
        rw [hget]
        simp only [hpresent]

/-- A package that the install changes is held by one of the selected files. -/
theorem holds_of_get_ne {dryRun : Bool} {wanted : List String}
    (h : (pgoInstall host files sys o built dryRun (some wanted)).2.get n ≠ sys.get n) :
    ∃ p ∈ selectInstallMembers files (collectPgoPackages host files built) wanted,
      Holds files p n := by
  by_contra hnot
  push Not at hnot
  refine h ?_
  rw [pgoInstall]
  split_ifs
  · rfl
  · rfl
  · exact get_pacmanU_of_not hnot

/-- **A rollback restores the toolchain**: whatever part of the install took effect, when the
rollback returns `True` every package is the build that was installed before, if the archives of the
snapshot are there still and hold these builds. -/
theorem rollback_restores (host : Host β) (files files' : Files β) (sys : Installed β)
    (built : Dict String String) (hm : Matches host files built) (dryRun : Bool)
    (o removal install : Outcome)
    (hcache : ∀ n p, (n, some p) ∈ snapshotSuite host sys built (installNames host sys built) →
      Restores files' sys p n)
    (hok : (rollbackToSnapshot host files'
      (pgoInstall host files sys o built dryRun (some (installNames host sys built))).2
      removal install (snapshotSuite host sys built (installNames host sys built))
      (installAdds host files sys built (installNames host sys built))).1 = true) (n : String) :
    (rollbackToSnapshot host files'
      (pgoInstall host files sys o built dryRun (some (installNames host sys built))).2
      removal install (snapshotSuite host sys built (installNames host sys built))
      (installAdds host files sys built (installNames host sys built))).2.get n = sys.get n := by
  obtain ⟨hsome, s, hs, hbatch, heq⟩ := rollbackToSnapshot_spec hok
  rw [heq]
  refine get_batchInstallPkgs (fun p hp => ?_) hbatch ?_
  · obtain ⟨⟨m, q⟩, hq, hqp⟩ := List.mem_filterMap.mp hp
    obtain rfl : q = some p := hqp
    exact ⟨m, hcache m p hq⟩
  by_cases hsnap : ∃ q, (n, q) ∈ snapshotSuite host sys built (installNames host sys built)
  · obtain ⟨q, hq⟩ := hsnap
    obtain ⟨p, rfl⟩ := Option.ne_none_iff_exists'.mp (hsome _ hq)
    exact .inr ⟨p, List.mem_filterMap.mpr ⟨_, hq, rfl⟩, hcache n p hq⟩
  · refine .inl ?_
    have hadds : n ∈ installAdds host files sys built (installNames host sys built) →
        sys.get n = none := by
      intro hmem
      have hnot := (List.mem_filter.mp hmem).2
      by_contra hinst
      have hsome := (@isSome_getInstalledVersion β host sys n).mpr hinst
      rw [Option.isNone_iff_eq_none.mp hnot] at hsome
      cases hsome
    rw [hs]
    split_ifs with hadded
    · exact (hadds hadded.1).symm
    · by_contra hne
      obtain ⟨p, hp, hold⟩ := holds_of_get_ne hne
      obtain ⟨hnone, hmem⟩ := (snapshot_or_added hm hp hold).resolve_left hsnap
      exact hadded ⟨hmem, fun hz => hne (hz.trans hnone.symm)⟩

/-! ## Concrete rollbacks -/

/-- A build by its version and where it comes from. -/
abbrev Origin := String × String

/-- A host that has built clang, now with its libraries split out. -/
def clangHost : Host Origin where
  version := Prod.fst
  pkgnames _ := some ["clang", "clang-libs"]
  packagelist _ := some ["/out/clang.pkg.tar", "/out/clang-libs.pkg.tar"]
  cacheDirs := [("/cache", ["clang-18-1-x86_64.pkg.tar.zst", "lld-18-1-x86_64.pkg.tar.zst"])]

/-- The archives that were built, and those in the cache. -/
def archives : Files Origin := fun p =>
  if p = "/out/clang.pkg.tar" then some ⟨some "clang", ["clang-libs"], ("19-1", "own")⟩
  else if p = "/out/clang-libs.pkg.tar" then some ⟨some "clang-libs", [], ("19-1", "own")⟩
  else if p = "/cache/clang-18-1-x86_64.pkg.tar.zst" then
    some ⟨some "clang", [], ("18-1", "repo")⟩
  else if p = "/cache/lld-18-1-x86_64.pkg.tar.zst" then some ⟨some "lld", [], ("18-1", "repo")⟩
  else none

/-- What a run builds: clang, from its PKGBUILD. -/
def builtClang : Dict String String := Dict.empty.set "clang" "/src/clang"

/-- The installed packages: clang and lld. -/
def installedFrom (clang : String) : Installed Origin :=
  (Dict.empty.set "clang" ("18-1", clang)).set "lld" ("18-1", "repo")

/-- The rollback after an install of the built packages. -/
def rolledBack (files : Files Origin) (sys : Installed Origin) : Bool × Installed Origin :=
  rollbackToSnapshot clangHost files
    (pgoInstall clangHost archives sys .ok builtClang false
      (some (installNames clangHost sys builtClang))).2
    .ok .ok (snapshotSuite clangHost sys builtClang (installNames clangHost sys builtClang))
    (installAdds clangHost archives sys builtClang
      (installNames clangHost sys builtClang))

theorem matches_builtClang : Matches clangHost archives builtClang := by
  intro dir _
  refine ⟨_, rfl, fun ps hps p hp _ _ => ?_⟩
  obtain rfl := Option.some.inj hps
  rcases List.mem_pair.mp hp with rfl | rfl
  · exact ⟨"clang", List.mem_cons_self, rfl⟩
  · exact ⟨"clang-libs", List.mem_cons_of_mem _ List.mem_cons_self, rfl⟩

theorem snapshotSuite_builtClang : snapshotSuite clangHost (installedFrom "repo") builtClang
    (installNames clangHost (installedFrom "repo") builtClang) =
      [("clang", some "/cache/clang-18-1-x86_64.pkg.tar.zst"),
        ("lld", some "/cache/lld-18-1-x86_64.pkg.tar.zst")] := by
  decide

/-- The witness: clang is restored, and the libraries that the run added are gone. -/
theorem rollback_restores_clang :
    (rolledBack archives (installedFrom "repo")).2.get "clang" =
      (installedFrom "repo").get "clang" ∧
    (rolledBack archives (installedFrom "repo")).2.get "clang-libs" =
      (installedFrom "repo").get "clang-libs" := by
  have hcache : ∀ n p, (n, some p) ∈ snapshotSuite clangHost (installedFrom "repo") builtClang
      (installNames clangHost (installedFrom "repo") builtClang) →
      Restores archives (installedFrom "repo") p n := by
    intro n p hp
    rw [snapshotSuite_builtClang] at hp
    rcases List.mem_pair.mp hp with heq | heq
    · obtain ⟨rfl, hpath⟩ := Prod.mk.inj heq
      obtain rfl := Option.some.inj hpath
      exact ⟨_, rfl, rfl, rfl⟩
    · obtain ⟨rfl, hpath⟩ := Prod.mk.inj heq
      obtain rfl := Option.some.inj hpath
      exact ⟨_, rfl, rfl, rfl⟩
  have hok : (rolledBack archives (installedFrom "repo")).1 = true := by decide
  exact ⟨rollback_restores clangHost archives archives (installedFrom "repo")
      builtClang matches_builtClang false .ok .ok .ok hcache hok "clang",
    rollback_restores clangHost archives archives (installedFrom "repo")
      builtClang matches_builtClang false .ok .ok .ok hcache hok "clang-libs"⟩

/-- The cached archive of clang is gone. -/
def archivesGone : Files Origin := fun p =>
  if p = "/cache/clang-18-1-x86_64.pkg.tar.zst" then none else archives p

/-- The counterexample: the installed clang was built here, at the version of the archive that the
cache has from the repo; and an archive that was there for the snapshot is gone at the rollback. -/
theorem rollback_replaces :
    (rolledBack archives (installedFrom "own")).1 = true ∧
      (rolledBack archives (installedFrom "own")).2.get "clang" ≠
        (installedFrom "own").get "clang" ∧
    (rolledBack archivesGone (installedFrom "repo")).1 = true ∧
      (rolledBack archivesGone (installedFrom "repo")).2.get "clang" ≠
        (installedFrom "repo").get "clang" := by
  decide

end Sysforge.Toolchain
