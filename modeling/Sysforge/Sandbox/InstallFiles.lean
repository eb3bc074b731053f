import Sysforge.Makepkg.ArtifactLookup
import Sysforge.Sandbox.Closure

/-!
# The files on the install list

The last file of a name decides (`mem_lastPerPkgname`), so the list is read off from its parts:
the artifacts that are gathered (`mem_gathered`), what `llvm_linked` takes away (`mem_linkedFor`)
and the repository builds (`names_fetchRepoPackages`).
-/

namespace Sysforge.Sandbox

open Text ResolvingWalk Makepkg.Artifacts

/-! ## The archive -/

/-- The archive holds built packages, and what pacman downloads for a name is of that name. -/
structure Stocked (w : World) (dir : PkgDir) : Prop where
  archive : w.archive = fileNames dir
  epochs : ∀ a, (a, false) ∈ dir → a.epoch ≠ some ['0']
  exts : ∀ a, (a, false) ∈ dir → ∀ e ∈ a.ext, '-' ∉ e
  row : ∀ n, ∀ r ∈ w.row n, ∀ p ∈ w.cached r.2, artifactPkgname p = n

section Archive

variable {w : World} {dir : PkgDir} {a : Artifact} {n : Text} {p : Path}

theorem hyphen_notMem_extText (h : ∀ e ∈ a.ext, '-' ∉ e) : '-' ∉ a.extText := by
  unfold Artifact.extText
  cases he : a.ext with
  | none => decide
  | some e =>
    rw [List.mem_append, List.mem_cons]
    refine not_or.mpr ⟨by decide, not_or.mpr ⟨by decide, h e he⟩⟩

/-- The name of a package is what stands before the last three hyphens. -/
theorem artifactPkgname_filename (h : ∀ e ∈ a.ext, '-' ∉ e) (d : Text) :
    artifactPkgname ⟨d, a.filename⟩ = a.name.text := by
  have hfile : a.filename = a.name.text ++ '-' :: (a.fullVer ++ '-' :: (a.rel ++ '-' ::
      (a.arch ++ a.extText))) := by
    rw [Artifact.filename, Artifact.stemText]
    simp only [List.append_assoc, List.cons_append]
  have hlast : '-' ∉ a.arch ++ a.extText := fun hmem =>
    (List.mem_append.mp hmem).elim a.arch_field.hyphen (hyphen_notMem_extText h)
  have hsplit : split '-' a.filename =
      split '-' a.name.text ++ [a.fullVer, a.rel, a.arch ++ a.extText] := by
    rw [hfile, split_append_sep, split_append a.hyphen_notMem_fullVer,
      split_append a.rel_field.hyphen, split_of_notMem hlast]
  have hpos : 0 < (split '-' a.name.text).length := List.length_pos_iff.mpr (split_ne_nil _ _)
  have hlength : max 1 ((split '-' a.filename).length - 3) = (split '-' a.name.text).length := by
    rw [hsplit, List.length_append, List.length_cons, List.length_cons, List.length_cons,
      List.length_nil]
    omega
  rw [artifactPkgname, hlength, hsplit, List.take_left, intercalate_split]

/-- The installed artifact is one of the archive, of that name and at the installed version. -/
theorem installedArtifact_eq_some (hw : Stocked w dir) (h : installedArtifact w n = some p) :
    ∃ a, (a, false) ∈ dir ∧ p = ⟨w.searchDir, a.filename⟩ ∧ a.name.text = n ∧
      w.version n = some a.version := by
  rw [installedArtifact] at h
  cases hver : (w.version n).filter fun v => v ≠ [] with
  | none =>
    rw [hver] at h
    cases h
  | some version =>
    rw [hver] at h
    obtain ⟨f, hf, rfl⟩ := Option.map_eq_some_iff.mp h
    have hmem := List.mem_of_find?_eq_some hf
    rw [hw.archive] at hmem
    obtain ⟨a, ha, rfl, hname, hversion⟩ := exact_of_findExact hw.epochs hmem
    exact ⟨a, ha, rfl, hname, hversion ▸ (Option.filter_eq_some_iff.mp hver).1⟩

theorem artifactPkgname_installedArtifact (hw : Stocked w dir)
    (h : installedArtifact w n = some p) : artifactPkgname p = n := by
  obtain ⟨a, ha, rfl, hname, -⟩ := installedArtifact_eq_some hw h
  rw [artifactPkgname_filename (hw.exts a ha), hname]

theorem fnmatch_exactPattern (a : Artifact) :
    fnmatch (exactPattern a.name.text) a.filename = true := by
  have htail : fnmatch (pkgTar ++ ['*']) a.extText = true := by
    have hext : ∃ u, a.extText = pkgTar ++ u := by
      unfold Artifact.extText
      cases a.ext with
      | none => exact ⟨[], (List.append_nil pkgTar).symm⟩
      | some e => exact ⟨'.' :: e, rfl⟩
    obtain ⟨u, hu⟩ := hext
    have hstar := fnmatch_star (p := []) (s := []) u rfl
    rw [List.append_nil] at hstar
    rw [hu, fnmatch_plain (by decide), hstar]
  have hhyphen : ∀ p s : Text, fnmatch ('-' :: p) ('-' :: s) = fnmatch p s := fun p s =>
    fnmatch_plain (t := ['-']) (by decide)
  have hfile : a.filename = a.name.text ++ '-' :: (a.fullVer ++ '-' :: (a.rel ++ '-' ::
      a.arch) ++ a.extText) := by
    rw [Artifact.filename, Artifact.stemText]
    simp only [List.append_assoc, List.cons_append]
  rw [hfile, exactPattern, fnmatch_plain a.name.plain.1]
  exact (hhyphen _ _).trans (fnmatch_star _ htail)

/-- An artifact at the installed version is found. -/
theorem exists_installedArtifact (hw : Stocked w dir) (ha : (a, false) ∈ dir)
    (hver : w.version a.name.text = some a.version) :
    ∃ p, installedArtifact w a.name.text = some p := by
  have hne : a.version ≠ [] := List.append_ne_nil_of_right_ne_nil _ (List.cons_ne_nil _ _)
  have hglob : a.filename ∈ (glob w.archive (exactPattern a.name.text)).insertionSort (· ≤ ·) := by
    have hslash : '/' ∉ exactPattern a.name.text := fun h =>
      (List.mem_append.mp h).elim a.name.plain.2 (by decide)
    rw [List.mem_insertionSort, glob, if_neg hslash, List.mem_filter, hw.archive]
    exact ⟨(mem_fileNames.mpr ⟨a, ha, rfl⟩).1, fnmatch_exactPattern a⟩
  have hfound : ((!isSig a.filename && versionOf a.name.text a.filename = some a.version) : Bool) =
      true := by
    rw [isSig_filename, versionOf_filename (hw.epochs a ha), if_pos rfl]
    exact decide_eq_true rfl
  have hsome : (((glob w.archive (exactPattern a.name.text)).insertionSort (· ≤ ·)).find? fun f =>
      !isSig f && versionOf a.name.text f = some a.version).isSome :=
    List.find?_isSome.mpr ⟨_, hglob, hfound⟩
  obtain ⟨f, hf⟩ := Option.isSome_iff_exists.mp hsome
  have hpred := List.find?_some hf
  refine ⟨⟨w.searchDir, f⟩, ?_⟩
  rw [installedArtifact, hver, Option.filter_some, if_pos (decide_eq_true hne)]
  dsimp only
  rw [findExact, hf, Option.toList_some, List.find?_cons, (Bool.and_eq_true_iff.mp hpred).1]
  rfl

end Archive

/-! ## What is left out -/

section Linked

variable {w : World} {n : Text}

/-- A host-only package that is `llvm-libs` or needs it by names, as the host has it installed. -/
def HostLinked (w : World) (name : Text) : Prop :=
  name ∈ w.hostOnly ∧ Relation.ReflTransGen (HostRequires w) (stripVersion name) libllvmPkg

theorem hostOnlyFor_eq (hrust : needsRepoRust w = true) : hostOnlyFor w = w.hostOnly :=
  if_pos (.inr hrust)

theorem graphFor_eq (hrust : needsRepoRust w = true) (hllvm : libllvmPkg ∈ w.hostOnly) :
    graphFor w = allPackageDepends w.db := by
  rw [graphFor, hostOnlyFor_eq hrust, if_pos (List.ne_nil_of_mem hllvm)]

/-- `llvm_linked` names the host-only packages that need `llvm-libs` by names. -/
theorem mem_linkedFor (hrust : needsRepoRust w = true) (hllvm : libllvmPkg ∈ w.hostOnly) :
    n ∈ linkedFor w ↔ HostLinked w n := by
  have hnext : ∀ a, dependsOf (allPackageDepends w.db) a ≠ [] →
      a ∈ (allPackageDepends w.db).keys := fun _ => mem_keys_of_dependsOf
  have hfinds : finds (fun dep => some (stripVersion dep)) (dependsOf (allPackageDepends w.db))
      libllvmPkg (fuelFor (allPackageDepends w.db) [n]) [] [n] = true ↔ _ :=
    finds_iff (allPackageDepends w.db).nodup hnext (Nat.le_refl _)
  rw [step_eq_hostRequires] at hfinds
  rw [linkedFor, if_pos hrust, hostOnlyFor_eq hrust, graphFor_eq hrust hllvm, llvmLinked,
    if_neg (not_not.mpr hllvm), List.mem_filter, HostLinked, hfinds]
  refine and_congr_right fun _ => ⟨?_, fun h => ?_⟩
  · rintro ⟨d, hd, b, hb, hreach⟩
    rw [List.mem_singleton.mp hd] at hb
    rw [Option.some.inj hb]
    exact hreach
  · exact ⟨n, List.mem_singleton_self n, stripVersion n, rfl, h⟩

theorem mem_linkedFor_iff : n ∈ linkedFor w ↔
    needsRepoRust w = true ∧ libllvmPkg ∈ w.hostOnly ∧ HostLinked w n := by
  by_cases hrust : needsRepoRust w = true
  · by_cases hllvm : libllvmPkg ∈ w.hostOnly
    · rw [mem_linkedFor hrust hllvm, and_iff_right hrust, and_iff_right hllvm]
    · rw [linkedFor, if_pos hrust, llvmLinked, hostOnlyFor_eq hrust, if_pos hllvm]
      exact iff_of_false List.not_mem_nil fun h => hllvm h.2.1
  · rw [linkedFor, if_neg hrust]
    exact iff_of_false List.not_mem_nil fun h => hrust h.1

theorem libllvmPkg_mem_linkedFor (hrust : needsRepoRust w = true)
    (hllvm : libllvmPkg ∈ w.hostOnly) : libllvmPkg ∈ linkedFor w := by
  have hstrip : stripVersion libllvmPkg = libllvmPkg := by decide
  refine (mem_linkedFor hrust hllvm).mpr ⟨hllvm, ?_⟩
  rw [hstrip]

end Linked

/-! ## What is fetched -/

section Fetched

variable {w : World} {dir : PkgDir} {names : List Text} {paths swap multilib : List Path}
  {n : Text}

theorem names_of_mapM (hw : Stocked w dir) {rows : List (Text × Text)}
    (hrows : names.mapM w.row = some rows)
    (hpaths : rows.mapM (fun r => w.cached r.2) = some paths) :
    paths.map artifactPkgname = names := by
  induction names generalizing rows paths with
  | nil =>
    obtain rfl : [] = rows := Option.some.inj hrows
    obtain rfl : [] = paths := Option.some.inj hpaths
    rfl
  | cons n names ih =>
    rw [List.mapM_cons] at hrows
    obtain ⟨r, hr, hrows⟩ := Option.bind_eq_some_iff.mp hrows
    obtain ⟨rows', hrows', hcons⟩ := Option.bind_eq_some_iff.mp hrows
    obtain rfl : r :: rows' = rows := Option.some.inj hcons
    rw [List.mapM_cons] at hpaths
    obtain ⟨p, hp, hpaths⟩ := Option.bind_eq_some_iff.mp hpaths
    obtain ⟨paths', hpaths', hcons'⟩ := Option.bind_eq_some_iff.mp hpaths
    obtain rfl : p :: paths' = paths := Option.some.inj hcons'
    rw [List.map_cons, hw.row n r hr p hp, ih hrows' hpaths']

theorem names_fetchRepoPackages (hw : Stocked w dir)
    (h : fetchRepoPackages w names = some paths) :
    paths.map artifactPkgname = sortedSet names := by
  rw [fetchRepoPackages] at h
  split_ifs at h with hnil
  · rw [← Option.some.inj h, hnil]
    rfl
  · obtain ⟨rows, hrows, h⟩ := Option.bind_eq_some_iff.mp h
    split_ifs at h
    exact names_of_mapM hw hrows h

theorem mem_names_fetchRepoPackages (hw : Stocked w dir)
    (h : fetchRepoPackages w names = some paths) :
    (∃ p ∈ paths, artifactPkgname p = n) ↔ n ∈ names := by
  rw [← mem_sortedSet, ← names_fetchRepoPackages hw h, List.mem_map]

theorem mem_names_fetchMultilib (hw : Stocked w dir) (h : fetchMultilib w = some multilib) :
    (∃ p ∈ multilib, artifactPkgname p = n) ↔ w.multilib = true ∧ n = multilibDevel := by
  rw [fetchMultilib] at h
  split_ifs at h with hmulti
  · rw [mem_names_fetchRepoPackages hw h, List.mem_singleton, and_iff_right hmulti]
  · rw [← Option.some.inj h]
    exact iff_of_false (fun ⟨p, hp, _⟩ => List.not_mem_nil hp) fun h => hmulti h.1

theorem mem_names_fetchSwap (hw : Stocked w dir) (h : fetchSwap w = some swap) :
    (∃ p ∈ swap, artifactPkgname p = n) ↔
      (n = libllvmPkg ∨ n ∈ toolchainClosure w) ∧ n ∈ linkedFor w := by
  rw [fetchSwap] at h
  split_ifs at h with hnil
  · rw [← Option.some.inj h, hnil]
    exact iff_of_false (fun ⟨p, hp, _⟩ => List.not_mem_nil hp) fun h => List.not_mem_nil h.2
  · rw [mem_names_fetchRepoPackages hw h, swapFor, List.mem_filter, List.mem_cons,
      decide_eq_true_eq]

end Fetched

/-! ## What is gathered -/

section Gathered

variable {w : World} {dir : PkgDir} {out resolved session : List Path} {names hostOnly : List Text}
  {n : Text} {p : Path}

theorem mem_addToolchain : p ∈ addToolchain w hostOnly resolved n ↔
    p ∈ resolved ∨ (n ∈ hostOnly ∧ installedArtifact w n = some p) := by
  rw [addToolchain]
  split_ifs with hn
  · cases hart : installedArtifact w n with
    | none => exact (or_iff_left fun h => Option.some_ne_none p h.2.symm).symm
    | some art =>
      dsimp only
      split_ifs with hmem
      · refine (or_iff_left_of_imp fun h => ?_).symm
        exact Option.some.inj h.2 ▸ hmem
      · rw [List.mem_append, List.mem_singleton, Option.some.injEq, and_iff_right hn, eq_comm]
  · exact (or_iff_left fun h => hn h.1).symm

theorem mem_foldl_addToolchain : p ∈ names.foldl (addToolchain w hostOnly) resolved ↔
    p ∈ resolved ∨ ∃ n ∈ names, n ∈ hostOnly ∧ installedArtifact w n = some p := by
  induction names generalizing resolved with
  | nil =>
    exact (or_iff_left fun ⟨n, hn, _⟩ => List.not_mem_nil hn).symm
  | cons m names ih =>
    rw [List.foldl_cons, ih, mem_addToolchain, or_assoc]
    simp only [List.mem_cons, exists_eq_or_imp]

theorem mem_resolveDepArtifacts (h : resolveDepArtifacts w = some resolved) :
    p ∈ resolved ↔ ∃ n, Needed w n ∧ n ∈ w.hostOnly ∧ installedArtifact w n = some p := by
  rw [resolveDepArtifacts] at h
  split_ifs at h with hnil
  · rw [← Option.some.inj h, hnil]
    exact iff_of_false List.not_mem_nil fun ⟨n, _, hn, _⟩ => List.not_mem_nil hn
  · obtain ⟨closure, hclosure, rfl⟩ := Option.map_eq_some_iff.mp h
    rw [List.mem_filterMap]
    refine exists_congr fun n => and_congr (mem_depClosure hclosure) ?_
    split_ifs with hn
    · exact (and_iff_right hn).symm
    · exact iff_of_false not_false fun h => hn h.1

theorem mem_sessionNeeded (h : sessionNeeded w = some session) :
    p ∈ session ↔ p ∈ sessionFiles w ∧ Needed w (artifactPkgname p) := by
  rw [sessionNeeded] at h
  split_ifs at h with hnil
  · rw [← Option.some.inj h, hnil]
    exact iff_of_false List.not_mem_nil fun hp => List.not_mem_nil hp.1
  · obtain ⟨closure, hclosure, rfl⟩ := Option.map_eq_some_iff.mp h
    rw [List.mem_filter, decide_eq_true_eq, mem_depClosure hclosure]

theorem hostOnlyFor_of_mem (h : n ∈ toolchainClosure w) : hostOnlyFor w = w.hostOnly := by
  refine if_pos (.inl fun hnil => ?_)
  rw [toolchainClosure, if_neg fun h => h.2 hnil] at h
  exact List.not_mem_nil h

/-- What is gathered: artifacts of the host for what the target or the toolchain needs, and
artifacts of this run for what the target needs. -/
theorem mem_gathered (h : gathered w = some out) : p ∈ out ↔
    (w.present p = true ∧ ∃ n ∈ w.hostOnly, installedArtifact w n = some p ∧
      (Needed w n ∨ n ∈ toolchainClosure w)) ∨
    (p ∈ sessionFiles w ∧ Needed w (artifactPkgname p)) := by
  obtain ⟨resolved, hresolved, h⟩ := Option.bind_eq_some_iff.mp h
  obtain ⟨session, hsession, h⟩ := Option.bind_eq_some_iff.mp h
  rw [← Option.some.inj h, List.mem_append, mem_sessionNeeded hsession, List.mem_filter,
    mem_foldl_addToolchain, mem_resolveDepArtifacts hresolved, Bool.and_eq_true,
    decide_eq_true_eq, mem_sessionNeeded hsession]
  constructor
  · rintro (⟨⟨n, hneeded, hn, hart⟩ | ⟨n, hchain, hn, hart⟩, hpresent, -⟩ | hmem)
    · exact .inl ⟨hpresent, n, hn, hart, .inl hneeded⟩
    · exact .inl ⟨hpresent, n, hostOnlyFor_of_mem hchain ▸ hn, hart, .inr hchain⟩
    · exact .inr hmem
  · rintro (⟨hpresent, n, hn, hart, hneed⟩ | hmem)
    · by_cases hsess : p ∈ sessionFiles w ∧ Needed w (artifactPkgname p)
      · exact .inr hsess
      · refine .inl ⟨?_, hpresent, hsess⟩
        rcases hneed with hneeded | hchain
        · exact .inl ⟨n, hneeded, hn, hart⟩
        · exact .inr ⟨n, hchain, (hostOnlyFor_of_mem hchain).symm ▸ hn, hart⟩
    · exact .inr hmem

/-- The files of this run that the target needs: all those of a name, or none. -/
theorem lastFor_sessionNeeded (h : sessionNeeded w = some session) (hn : Needed w n) :
    lastFor session n = lastFor (sessionFiles w) n := by
  rw [sessionNeeded] at h
  split_ifs at h with hnil
  · rw [← Option.some.inj h, hnil]
  · obtain ⟨closure, hclosure, rfl⟩ := Option.map_eq_some_iff.mp h
    refine lastFor_filter fun p _ hname => decide_eq_true ?_
    rw [hname]
    exact (mem_depClosure hclosure).mpr hn

/-- The artifacts of the host come before those of this run. -/
theorem gathered_eq_append (h : gathered w = some out) : ∃ host session,
    sessionNeeded w = some session ∧ out = host ++ session ∧
      ∀ p ∈ host, ∃ n, installedArtifact w n = some p := by
  obtain ⟨resolved, hresolved, h⟩ := Option.bind_eq_some_iff.mp h
  obtain ⟨session, hsession, h⟩ := Option.bind_eq_some_iff.mp h
  refine ⟨_, session, hsession, (Option.some.inj h).symm, fun p hp => ?_⟩
  rcases mem_foldl_addToolchain.mp (List.mem_of_mem_filter hp) with hmem | ⟨n, -, -, hart⟩
  · obtain ⟨n, -, -, hart⟩ := (mem_resolveDepArtifacts hresolved).mp hmem
    exact ⟨n, hart⟩
  · exact ⟨n, hart⟩

/-- The list, from its parts. -/
theorem installArgs_eq_some {list : List Path} (h : installArgs w = some list) :
    ∃ out swap multilib, gathered w = some out ∧ fetchSwap w = some swap ∧
      fetchMultilib w = some multilib ∧ list = lastPerPkgname
        (out.filter (fun p => artifactPkgname p ∉ linkedFor w) ++ (swap ++ multilib)) := by
  obtain ⟨out, hout, h⟩ := Option.bind_eq_some_iff.mp h
  obtain ⟨swap, hswap, h⟩ := Option.bind_eq_some_iff.mp h
  obtain ⟨multilib, hmultilib, h⟩ := Option.bind_eq_some_iff.mp h
  refine ⟨out, swap, multilib, hout, hswap, hmultilib, ?_⟩
  rw [← List.append_assoc]
  exact (Option.some.inj h).symm

end Gathered

end Sysforge.Sandbox
