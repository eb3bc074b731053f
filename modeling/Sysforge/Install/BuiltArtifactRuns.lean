import Sysforge.Install.BuiltArtifacts

/-!
# Installing right after a build

The install takes this build's files when the build recorded its manifest. A build without a rename
records none and leaves the manifest of an earlier one where it is; a manifest that could not be
recorded is not removed either. Then the files that an older manifest names are installed, or those
that the names and the version of the unpatched PKGBUILD select. `takes_iff` says exactly when these
are the files of the build, for every content and every history.
-/

namespace Sysforge.BuiltArtifacts

open Text

variable {β : Type*} {w : World β} {b : Build β} {f g : File β} {fs : List (File β)}
  {globals : Dict String Global}

/-! ## What is found -/

theorem names_foldl_addFile (n : Text) :
    n ∈ (fs.foldl addFile []).map File.name ↔ n ∈ fs.map File.name := by
  induction fs using List.reverseRecOn with
  | nil => rfl
  | append_singleton fs g ih =>
    rw [List.foldl_append, List.foldl_cons, List.foldl_nil, List.map_append, List.mem_append, ← ih,
      List.map_singleton, List.mem_singleton, addFile]
    split_ifs with hg
    · exact ⟨.inl, fun h => h.elim id fun h => h ▸ hg⟩
    · rw [List.map_append, List.mem_append, List.map_singleton, List.mem_singleton]

/-- A file that is found is the first with its name. -/
theorem find_of_mem_foldl (h : f ∈ fs.foldl addFile []) :
    fs.find? (fun g => g.name = f.name) = some f := by
  induction fs using List.reverseRecOn with
  | nil => cases h
  | append_singleton fs g ih =>
    rw [List.foldl_append, List.foldl_cons, List.foldl_nil, addFile] at h
    rw [List.find?_append]
    by_cases hg : g.name ∈ (fs.foldl addFile []).map File.name
    · rw [if_pos hg] at h
      rw [ih h, Option.some_or]
    · rw [if_neg hg] at h
      rcases List.mem_append.mp h with h | h
      · rw [ih h, Option.some_or]
      · rw [List.mem_singleton.mp h]
        have hnone : fs.find? (fun g' => g'.name = g.name) = none := by
          rw [List.find?_eq_none]
          intro x hx hname
          rw [names_foldl_addFile] at hg
          exact hg (of_decide_eq_true hname ▸ List.mem_map_of_mem hx)
        rw [hnone, Option.none_or, List.find?_singleton, if_pos (decide_eq_true rfl)]

theorem nodup_names_foldl (fs : List (File β)) : ((fs.foldl addFile []).map File.name).Nodup := by
  induction fs using List.reverseRecOn with
  | nil => exact List.nodup_nil
  | append_singleton fs g ih =>
    rw [List.foldl_append, List.foldl_cons, List.foldl_nil, addFile]
    split_ifs with hg
    · exact ih
    · rw [List.map_append, List.map_singleton]
      refine List.nodup_append.mpr ⟨ih, List.nodup_singleton _, fun a ha c hc => ?_⟩
      rw [List.mem_singleton.mp hc]
      exact fun h => hg (h ▸ ha)

theorem get_emit (d : Dict Text β) (n : Text) :
    (emit b d).get n = if n ∈ b.names then some (b.contents n) else d.get n := by
  rw [emit]
  generalize b.names = ns
  induction ns generalizing d with
  | nil => rfl
  | cons a ns ih =>
    rw [List.foldl_cons, ih, Dict.get_set]
    by_cases hn : n ∈ ns
    · rw [if_pos hn, if_pos (List.mem_cons_of_mem a hn)]
    · rw [if_neg hn]
      by_cases ha : n = a
      · rw [if_pos ha, if_pos (List.mem_cons.mpr (.inl ha)), ha]
      · rw [if_neg ha, if_neg (fun h => (List.mem_cons.mp h).elim ha hn)]

theorem mem_filesOf {d : Dict Text β} {i : Bool} : f ∈ filesOf i d ↔
    f.inPkgdest = i ∧ isBuiltPackage f.name = true ∧ d.get f.name = some f.content := by
  rw [filesOf, List.mem_map]
  constructor
  · rintro ⟨p, hp, rfl⟩
    obtain ⟨hmem, hb⟩ := List.mem_filter.mp hp
    exact ⟨rfl, hb, Dict.mem_items.mp hmem⟩
  · rintro ⟨rfl, hb, hget⟩
    exact ⟨(f.name, f.content), List.mem_filter.mpr ⟨Dict.mem_items.mpr hget, hb⟩, rfl⟩

/-- After a fresh build, what is found under one of its names is what it put there. -/
theorem content_of_fresh (hfresh : b.already = false) (hf : f ∈ findArtifacts (makepkg w b))
    (hname : f.name ∈ b.names) : f.content = b.contents f.name := by
  have hfirst := find_of_mem_foldl hf
  have hbuilt := (b.plain _ hname).2.2.2
  rw [makepkg, hfresh, if_neg Bool.false_ne_true] at hfirst
  cases hp : w.pkgdest with
  | some d =>
    rw [hp] at hfirst
    dsimp only at hfirst
    rw [allFiles, List.find?_append] at hfirst
    rw [Option.toList_some, List.flatMap_singleton] at hfirst
    cases hfind : (filesOf true (emit b d)).find? (fun g => g.name = f.name) with
    | some g =>
      rw [hfind, Option.some_or, Option.some_inj] at hfirst
      rw [← hfirst]
      have hg := (mem_filesOf.mp (List.mem_of_find?_eq_some hfind)).2.2
      rw [get_emit, hfirst, if_pos hname, Option.some_inj] at hg
      rw [hfirst]
      exact hg.symm
    | none =>
      refine absurd (decide_eq_true rfl) (List.find?_eq_none.mp hfind
        ⟨true, f.name, b.contents f.name⟩ (mem_filesOf.mpr ⟨rfl, hbuilt, ?_⟩))
      rw [get_emit, if_pos hname]
  | none =>
    rw [hp] at hfirst
    have hmem := List.mem_of_find?_eq_some hfirst
    rw [allFiles] at hmem
    have hg := (mem_filesOf.mp hmem).2.2
    rw [get_emit, if_pos hname, Option.some_inj] at hg
    exact hg.symm

/-! ## What the install takes -/

/-- The manifest names a file that is found. -/
def Hits (w : World β) (wanted : List Text) : Prop := ∃ f ∈ findArtifacts w, f.name ∈ wanted

/-- A file of one of the PKGBUILD's names. -/
def Own (globals : Dict String Global) (f : File β) : Prop :=
  (versionOf (pkgnames globals) f.name).isSome = true

/-- A file of one of the PKGBUILD's names, at the PKGBUILD's version. -/
def Current (globals : Dict String Global) (f : File β) : Prop :=
  Own globals f ∧ versionOf (pkgnames globals) f.name = pkgbuildVersion globals

/-- **The PKGBUILD selects the files of the build**: when it cannot be read or has no names, there
is no other file; else the files of its names at its version are those of the build or, when no file
has its version, the files of its names. -/
def Scoped (w : World β) (names : List Text) : Prop :=
  match w.pkgbuild with
  | none => ∀ f ∈ findArtifacts w, f.name ∈ names
  | some globals =>
    if pkgnames globals = [] then ∀ f ∈ findArtifacts w, f.name ∈ names
    else
      ((∃ f ∈ findArtifacts w, Current globals f) ∧
          ∀ f ∈ findArtifacts w, Current globals f ↔ f.name ∈ names) ∨
        (¬∃ f ∈ findArtifacts w, Current globals f) ∧
          ∀ f ∈ findArtifacts w, Own globals f ↔ f.name ∈ names

/-- The install takes exactly the files found under the names. -/
def Selects (w : World β) (names : List Text) : Prop :=
  ∀ f, f ∈ artifactsForPkgbuild w ↔ f ∈ findArtifacts w ∧ f.name ∈ names

theorem artifacts_of_hits (h : Hits w (readBuiltManifest w)) :
    f ∈ artifactsForPkgbuild w ↔ f ∈ findArtifacts w ∧ f.name ∈ readBuiltManifest w := by
  obtain ⟨g, hg, hname⟩ := h
  have hne : ((findArtifacts w).filter fun f => f.name ∈ readBuiltManifest w).isEmpty = false :=
    List.isEmpty_eq_false_iff.mpr (List.ne_nil_of_mem
      (List.mem_filter.mpr ⟨hg, decide_eq_true hname⟩))
  rw [artifactsForPkgbuild, hne]
  exact List.mem_filter.trans (and_congr_right' decide_eq_true_iff)

theorem artifacts_of_not_hits (h : ¬Hits w (readBuiltManifest w)) : artifactsForPkgbuild w =
    match w.pkgbuild with
    | none => findArtifacts w
    | some globals => scopedArtifacts (findArtifacts w) globals := by
  have hnil : ((findArtifacts w).filter fun f => f.name ∈ readBuiltManifest w).isEmpty = true :=
    List.isEmpty_iff.mpr (List.filter_eq_nil_iff.mpr fun f hf hname =>
      h ⟨f, hf, of_decide_eq_true hname⟩)
  rw [artifactsForPkgbuild, hnil]
  rfl

theorem selects_iff_of_hits {names : List Text} (h : Hits w (readBuiltManifest w)) :
    Selects w names ↔
      ∀ f ∈ findArtifacts w, f.name ∈ readBuiltManifest w ↔ f.name ∈ names := by
  constructor
  · intro hs f hf
    have hf' := (artifacts_of_hits h).symm.trans (hs f)
    rwa [and_iff_right hf, and_iff_right hf] at hf'
  · intro hs f
    rw [artifacts_of_hits h]
    exact and_congr_right (hs f)

theorem mem_scopedArtifacts (hne : pkgnames globals ≠ []) :
    f ∈ scopedArtifacts fs globals ↔ f ∈ fs ∧
      ((∃ g ∈ fs, Current globals g) ∧ Current globals f ∨
        (¬∃ g ∈ fs, Current globals g) ∧ Own globals f) := by
  rw [scopedArtifacts, if_neg hne]
  have hcurrent : ∀ g, g ∈ (fs.filter fun f => (versionOf (pkgnames globals) f.name).isSome).filter
      (fun f => versionOf (pkgnames globals) f.name = pkgbuildVersion globals) ↔
      g ∈ fs ∧ Current globals g := by
    intro g
    rw [List.mem_filter, List.mem_filter, decide_eq_true_iff, and_assoc]
    rfl
  by_cases hex : ∃ g ∈ fs, Current globals g
  · obtain ⟨g, hg⟩ := id hex
    have hne' := List.isEmpty_eq_false_iff.mpr (List.ne_nil_of_mem ((hcurrent g).mpr hg))
    dsimp only
    rw [hne', if_neg Bool.false_ne_true, hcurrent, and_iff_right hex, or_iff_left]
    exact fun h => h.1 hex
  · have hnil := List.isEmpty_iff.mpr (List.eq_nil_iff_forall_not_mem.mpr fun g hg =>
      hex ⟨g, (hcurrent g).mp hg⟩)
    dsimp only
    rw [hnil, if_pos rfl, List.mem_filter, and_iff_right hex, or_iff_right]
    · rfl
    · exact fun h => hex h.1

theorem selects_iff_of_not_hits {names : List Text} (h : ¬Hits w (readBuiltManifest w)) :
    Selects w names ↔ Scoped w names := by
  have hall : (∀ f, f ∈ findArtifacts w ↔ f ∈ findArtifacts w ∧ f.name ∈ names) ↔
      ∀ f ∈ findArtifacts w, f.name ∈ names :=
    forall_congr' fun f => iff_self_and
  rw [Selects, artifacts_of_not_hits h, Scoped]
  cases w.pkgbuild with
  | none => exact hall
  | some globals =>
    dsimp only
    by_cases hne : pkgnames globals = []
    · rw [if_pos hne, scopedArtifacts, if_pos hne]
      exact hall
    · rw [if_neg hne]
      simp only [mem_scopedArtifacts hne]
      by_cases hex : ∃ g ∈ findArtifacts w, Current globals g
      · simp only [hex, true_and, not_true_eq_false, false_and, or_false]
        exact forall_congr' fun f => and_congr_right_iff
      · simp only [hex, false_and, not_false_eq_true, true_and, false_or]
        exact forall_congr' fun f => and_congr_right_iff

/-! ## The manifest of a build -/

theorem baseName_append_slash (x : Text) {n : Text} (hn : '/' ∉ n) :
    baseName (x ++ '/' :: n) = n := by
  have hall : ∀ c ∈ n.reverse, decide (c ≠ '/') = true := fun c hc =>
    decide_eq_true fun h => hn (h ▸ List.mem_reverse.mp hc)
  rw [baseName, List.rtakeWhile, List.reverse_append, List.reverse_cons, List.append_assoc,
    List.takeWhile_append_of_pos hall, List.singleton_append, List.takeWhile_cons_of_neg (by simp),
    List.append_nil, List.reverse_reverse]

theorem oneLine_of_noSpace {n : Text} (h : NoSpace n) : OneLine n := by
  intro c hc
  cases hb : isLineBreak c with
  | false => rfl
  | true =>
    have hspace := h c hc
    rw [isSpace_of_isLineBreak hb] at hspace
    cases hspace

theorem strip_of_noSpace {n : Text} (h : NoSpace n) : strip n = n :=
  strip_eq_self_of (fun c hc => h c (List.mem_of_mem_head? hc))
    fun c hc => h c (List.mem_of_getLast? hc)

/-- A printed path keeps its name when it is stripped. -/
theorem baseName_strip (d : Text) {n : Text} (hne : n ≠ []) (hslash : '/' ∉ n) (hn : NoSpace n) :
    baseName (strip (d ++ '/' :: n)) = n := by
  have hsplit : strip (d ++ '/' :: n) = strip (d.dropWhile isSpace ++ '/' :: n) := by
    conv_lhs => rw [← @List.takeWhile_append_dropWhile _ isSpace d]
    rw [List.append_assoc]
    exact strip_append_left fun c hc => List.mem_takeWhile_imp hc
  have hself : strip (d.dropWhile isSpace ++ '/' :: n) = d.dropWhile isSpace ++ '/' :: n := by
    refine strip_eq_self_of (fun c hc => ?_) fun c hc => ?_
    · cases hd : d.dropWhile isSpace with
      | nil =>
        rw [hd] at hc
        cases hc
        decide
      | cons a l =>
        rw [hd] at hc
        cases hc
        have hhead := List.head?_dropWhile_not isSpace d
        rw [hd] at hhead
        simpa using hhead
    · refine hn c ?_
      rw [List.getLast?_append, List.getLast?_cons, List.getLast?_eq_getLast_of_ne_nil hne] at hc
      cases hc
      exact List.getLast_mem hne
  rw [hsplit, hself, baseName_append_slash _ hslash]

theorem captureBuiltManifest_packagelist (manifest : Option Text) :
    captureBuiltManifest (some (packagelist b)) manifest = some (unlines b.names) := by
  have hlines : splitlines (packagelist b) = b.names.map fun n => b.dest ++ '/' :: n := by
    refine splitlines_unlines fun l hl => ?_
    obtain ⟨n, hn, rfl⟩ := List.mem_map.mp hl
    exact b.dest_oneLine.append (OneLine.append (s := ['/']) (by decide)
      (oneLine_of_noSpace (b.plain n hn).2.2.1))
  have hnames : (((splitlines (packagelist b)).map strip).filter (· ≠ [])).map baseName =
      b.names := by
    rw [hlines, List.map_map, List.filter_eq_self.mpr, List.map_map]
    · refine (List.map_congr_left fun n hn => ?_).trans (List.map_id _)
      obtain ⟨hne, hslash, hspace, -⟩ := b.plain n hn
      exact baseName_strip b.dest hne hslash hspace
    · intro l hl
      obtain ⟨n, hn, rfl⟩ := List.mem_map.mp hl
      obtain ⟨hne, hslash, hspace, -⟩ := b.plain n hn
      refine decide_eq_true fun hnil => hne ?_
      rw [← baseName_strip b.dest hne hslash hspace]
      exact congrArg baseName hnil
  rw [captureBuiltManifest, hnames, if_neg b.nonempty]

theorem readBuiltManifest_unlines (h : w.manifest = some (unlines b.names)) :
    readBuiltManifest w = b.names := by
  rw [readBuiltManifest, h]
  dsimp only
  rw [splitlines_unlines fun l hl => oneLine_of_noSpace (b.plain l hl).2.2.1]
  have hmap : b.names.map strip = b.names :=
    (List.map_congr_left fun n hn => strip_of_noSpace (b.plain n hn).2.2.1).trans (List.map_id _)
  rw [hmap]
  exact List.filter_eq_self.mpr fun n hn => decide_eq_true (b.plain n hn).1

/-! ## Right after a build -/

/-- **The install takes this build's packages**: it hands over exactly the files found under the
names of the build, at most one for each package and, when the build was fresh, with the content it
wrote; and it raises exactly when none is found. -/
structure Takes (w : World β) (b : Build β) : Prop where
  files : ∀ fs, handed w = .ok fs → ∀ f, f ∈ fs ↔ f ∈ findArtifacts w ∧ f.name ∈ b.names
  once : ∀ fs, handed w = .ok fs → (fs.map fun f => pkgnameOf f.name).Nodup
  contents : ∀ fs, handed w = .ok fs → b.already = false →
    ∀ f ∈ fs, f.content = b.contents f.name
  raises : (∃ e, handed w = .error e) ↔ ∀ f ∈ findArtifacts w, f.name ∉ b.names

/-- The manifest that an earlier build left, and that this one neither replaces nor removes. -/
def stale (w : World β) (b : Build β) : List Text :=
  if b.recorded = true ∧ b.captures = true ∨ b.recorded = false ∧ b.already = true then []
  else readBuiltManifest w

/-- One of the files of the build is there after it. -/
def Present (w : World β) (b : Build β) : Prop := ∃ f ∈ findArtifacts (makepkg w b), f.name ∈ b.names

/-- **When this is so**: the build recorded its manifest and a file of it is there; or a manifest
left behind that still names a file names just the files of this build; or no such manifest is left,
and the PKGBUILD selects the files of the build. -/
def Clear (w : World β) (b : Build β) : Prop :=
  b.recorded = true ∧ b.captures = true ∧ Present w b ∨
    ¬(b.recorded = true ∧ b.captures = true ∧ Present w b) ∧
      ((Hits (makepkg w b) (stale w b) ∧
          ∀ f ∈ findArtifacts (makepkg w b), f.name ∈ stale w b ↔ f.name ∈ b.names) ∨
        ¬Hits (makepkg w b) (stale w b) ∧ Scoped (makepkg w b) b.names)

theorem findArtifacts_build : findArtifacts (build w b) = findArtifacts (makepkg w b) := by
  rw [build]
  split_ifs <;> rfl

theorem pkgbuild_build : (build w b).pkgbuild = (makepkg w b).pkgbuild := by
  rw [build]
  split_ifs <;> rfl

theorem manifest_makepkg : (makepkg w b).manifest = w.manifest := by
  rw [makepkg]
  split_ifs
  · rfl
  · cases w.pkgdest <;> rfl

theorem readBuiltManifest_congr {w' : World β} (h : w'.manifest = w.manifest) :
    readBuiltManifest w' = readBuiltManifest w := by
  rw [readBuiltManifest, readBuiltManifest, h]

/-- The manifest after a build. -/
theorem readBuiltManifest_build : readBuiltManifest (build w b) =
    if b.recorded = true ∧ b.captures = true then b.names else stale w b := by
  by_cases hr : b.recorded = true
  · by_cases hc : b.captures = true
    · rw [if_pos ⟨hr, hc⟩]
      refine readBuiltManifest_unlines ?_
      rw [build, if_pos hr, if_pos hc]
      exact captureBuiltManifest_packagelist _
    · rw [if_neg fun h => hc h.2, stale, if_neg fun h => h.elim (fun h => hc h.2) fun h =>
        Bool.false_ne_true (h.1.symm.trans hr), build, if_pos hr, if_neg hc]
      exact readBuiltManifest_congr manifest_makepkg
  · rw [if_neg fun h => hr h.1, stale, build, if_neg hr]
    by_cases ha : b.already = true
    · rw [if_pos ha, if_pos (.inr ⟨Bool.not_eq_true _ ▸ hr, ha⟩)]
      rfl
    · rw [if_neg ha, if_neg fun h => h.elim (fun h => hr h.1) fun h => ha h.2]
      exact readBuiltManifest_congr manifest_makepkg

theorem hits_build {names : List Text} : Hits (build w b) names ↔ Hits (makepkg w b) names := by
  rw [Hits, Hits, findArtifacts_build]

theorem scoped_build {names : List Text} :
    Scoped (build w b) names ↔ Scoped (makepkg w b) names := by
  rw [Scoped, Scoped, findArtifacts_build, pkgbuild_build]

theorem selects_build_iff : Selects (build w b) b.names ↔ Clear w b := by
  by_cases hcap : b.recorded = true ∧ b.captures = true
  · have hread := (readBuiltManifest_build (w := w)).trans (if_pos hcap)
    have hstale : stale w b = [] := if_pos (.inl hcap)
    have hnone : ¬Hits (makepkg w b) (stale w b) := by
      rw [hstale]
      rintro ⟨f, -, hf⟩
      cases hf
    by_cases hp : Present w b
    · have hhits : Hits (build w b) (readBuiltManifest (build w b)) := by
        rw [hread]
        exact hits_build.mpr hp
      refine iff_of_true ((selects_iff_of_hits hhits).mpr fun f _ => ?_) (.inl ⟨hcap.1, hcap.2, hp⟩)
      rw [hread]
    · have hhits : ¬Hits (build w b) (readBuiltManifest (build w b)) := by
        rw [hread]
        exact fun h => hp (hits_build.mp h)
      have hno : ¬(b.recorded = true ∧ b.captures = true ∧ Present w b) := fun h => hp h.2.2
      rw [selects_iff_of_not_hits hhits, scoped_build, Clear, or_iff_right hno, and_iff_right hno,
        or_iff_right fun h => hnone h.1, and_iff_right hnone]
  · have hread := (readBuiltManifest_build (w := w)).trans (if_neg hcap)
    have hno : ¬(b.recorded = true ∧ b.captures = true ∧ Present w b) := fun h =>
      hcap ⟨h.1, h.2.1⟩
    rw [Clear, or_iff_right hno, and_iff_right hno]
    by_cases hh : Hits (makepkg w b) (stale w b)
    · have hhits : Hits (build w b) (readBuiltManifest (build w b)) := by
        rw [hread]
        exact hits_build.mpr hh
      rw [selects_iff_of_hits hhits, hread, findArtifacts_build, and_iff_right hh,
        or_iff_left fun h => h.1 hh]
    · have hhits : ¬Hits (build w b) (readBuiltManifest (build w b)) := by
        rw [hread]
        exact fun h => hh (hits_build.mp h)
      rw [selects_iff_of_not_hits hhits, scoped_build, or_iff_right fun h => hh h.1,
        and_iff_right hh]

theorem sublist_scopedArtifacts : (scopedArtifacts fs globals).Sublist fs := by
  rw [scopedArtifacts]
  split_ifs
  · exact List.Sublist.refl fs
  · dsimp only
    split_ifs
    · exact List.filter_sublist
    · exact List.filter_sublist.trans List.filter_sublist

theorem sublist_artifacts : (artifactsForPkgbuild w).Sublist (findArtifacts w) := by
  rw [artifactsForPkgbuild]
  split_ifs
  · exact List.filter_sublist
  · cases w.pkgbuild with
    | none => exact List.Sublist.refl _
    | some globals => exact sublist_scopedArtifacts

theorem handed_eq_ok : handed w = .ok fs ↔ artifactsForPkgbuild w = fs ∧ fs ≠ [] := by
  rw [handed]
  split_ifs with h
  · refine iff_of_false nofun fun hfs => hfs.2 ?_
    rw [← hfs.1]
    exact List.isEmpty_iff.mp h
  · rw [List.isEmpty_iff] at h
    constructor
    · intro hfs
      cases hfs
      exact ⟨rfl, h⟩
    · rintro ⟨rfl, -⟩
      rfl

theorem handed_eq_error : (∃ e, handed w = .error e) ↔ artifactsForPkgbuild w = [] := by
  rw [handed]
  split_ifs with h
  · exact iff_of_true ⟨_, rfl⟩ (List.isEmpty_iff.mp h)
  · exact iff_of_false (fun ⟨e, he⟩ => nomatch he) fun hnil => h (List.isEmpty_iff.mpr hnil)

theorem takes_build_iff : Takes (build w b) b ↔ Selects (build w b) b.names := by
  constructor
  · rintro ⟨hfiles, -, -, hraises⟩ f
    by_cases hnil : artifactsForPkgbuild (build w b) = []
    · rw [hnil]
      refine iff_of_false List.not_mem_nil fun h => ?_
      exact hraises.mp (handed_eq_error.mpr hnil) f h.1 h.2
    · exact hfiles _ (handed_eq_ok.mpr ⟨rfl, hnil⟩) f
  · intro hs
    refine ⟨fun fs hfs f => ?_, fun fs hfs => ?_, fun fs hfs hfresh f hf => ?_, ?_⟩
    · rw [← (handed_eq_ok.mp hfs).1]
      exact hs f
    · -- the files have distinct names, and the packages of the names are distinct
      obtain ⟨rfl, -⟩ := handed_eq_ok.mp hfs
      have hnames : ((artifactsForPkgbuild (build w b)).map File.name).Nodup :=
        (nodup_names_foldl (allFiles (build w b))).sublist
          (sublist_artifacts.map File.name)
      have hmap : (artifactsForPkgbuild (build w b)).map (fun f => pkgnameOf f.name) =
          ((artifactsForPkgbuild (build w b)).map File.name).map pkgnameOf := by
        rw [List.map_map]
        rfl
      rw [hmap]
      refine (List.nodup_map_iff_inj_on hnames).mpr fun m hm n hn heq => ?_
      obtain ⟨f, hf, rfl⟩ := List.mem_map.mp hm
      obtain ⟨g, hg, rfl⟩ := List.mem_map.mp hn
      exact List.inj_on_of_nodup_map b.once ((hs f).mp hf).2 ((hs g).mp hg).2 heq
    · obtain ⟨rfl, -⟩ := handed_eq_ok.mp hfs
      obtain ⟨hfound, hname⟩ := (hs f).mp hf
      rw [findArtifacts_build] at hfound
      exact content_of_fresh hfresh hfound hname
    · rw [handed_eq_error]
      constructor
      · intro hnil f hf hname
        have hmem := (hs f).mpr ⟨hf, hname⟩
        rw [hnil] at hmem
        cases hmem
      · intro hno
        refine List.eq_nil_iff_forall_not_mem.mpr fun f hf => ?_
        exact hno f ((hs f).mp hf).1 ((hs f).mp hf).2

/-- **The install right after a build**: after every history, it takes the packages of the last build
exactly when the state before that build is clear for it. -/
theorem takes_iff (w : World β) (ops : List (Op β)) (b : Build β) :
    Takes (Run.run step w (ops ++ [.build b])) b ↔ Clear (Run.run step w ops) b := by
  have hrun : Run.run step w (ops ++ [.build b]) = build (Run.run step w ops) b :=
    List.foldl_append
  rw [hrun, takes_build_iff, selects_build_iff]

/-! ## A manifest left behind -/

/-- A renamed build that was not installed. -/
def renamedBuild : Build Unit where
  names := ["foo-sysforge-1-1-x86_64.pkg.tar.zst".toList]
  dest := "/srv/packages".toList
  contents _ := ()
  already := false
  recorded := true
  captures := true
  dest_oneLine := by decide
  plain := by decide
  nonempty := by decide
  once := by decide

/-- A plain build after it. -/
def plainBuild : Build Unit where
  names := ["foo-1-1-x86_64.pkg.tar.zst".toList]
  dest := "/srv/packages".toList
  contents _ := ()
  already := false
  recorded := false
  captures := true
  dest_oneLine := by decide
  plain := by decide
  nonempty := by decide
  once := by decide

/-- An empty `PKGDEST`, and the PKGBUILD of `foo`. -/
def fooWorld : World Unit where
  path := "/build/foo"
  pkgdest := some .empty
  dir := .empty
  manifest := none
  pkgbuild := some (.ofItems [("pkgname", .str "foo".toList), ("pkgver", .str "1".toList),
    ("pkgrel", .str "1".toList)])

/-- After the plain build the install takes the renamed package of the earlier one. -/
theorem not_takes_plainBuild :
    ¬Takes (Run.run step fooWorld ([.build renamedBuild] ++ [.build plainBuild])) plainBuild := by
  intro h
  have hfs : ∃ fs, handed (Run.run step fooWorld ([.build renamedBuild] ++ [.build plainBuild])) =
      .ok fs ∧ fs.map File.name = ["foo-sysforge-1-1-x86_64.pkg.tar.zst".toList] := by
    refine ⟨_, rfl, ?_⟩
    decide
  obtain ⟨fs, hok, hnames⟩ := hfs
  have hmem : "foo-sysforge-1-1-x86_64.pkg.tar.zst".toList ∈ fs.map File.name :=
    hnames ▸ List.mem_singleton_self _
  obtain ⟨f, hf, hname⟩ := List.mem_map.mp hmem
  have hbad := ((h.files fs hok f).mp hf).2
  rw [hname] at hbad
  exact absurd hbad (by decide)

end Sysforge.BuiltArtifacts
