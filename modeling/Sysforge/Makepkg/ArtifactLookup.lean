import Sysforge.Makepkg.Artifacts

/-!
# Which built packages are found

The exact and the newest mode find artifacts of the asked name only, as they decode each file. The
strict stage takes all that its pattern matches: `foo-1.0-1-*` takes `foo-1.0-1-1-any`, which is
release 1 of version 1 of `foo-1.0`. `correct_iff` says when the lookup is correct.
-/

namespace Sysforge.Makepkg.Artifacts

open Text

/-! ## Looking for files -/

section Finding

variable {vercmp : Text → Text → ℤ} {dir : PkgDir} {n : PkgName} {ver path : Text}
  {installedVer : Option Text} {a : Artifact}

theorem PkgName.plain (n : PkgName) : PlainPattern n.text ∧ '/' ∉ n.text := by
  have hne : ∀ d : Char, ¬(d.isAlphanum ∨ d ∈ ['@', '.', '_', '+', '-']) → ∀ c ∈ n.text, c ≠ d := by
    rintro d hd c hc rfl
    exact hd (n.chars c hc)
  refine ⟨fun c hc => ⟨hne _ ?_ c hc, hne _ ?_ c hc, hne _ ?_ c hc⟩, fun h => hne '/' ?_ _ h rfl⟩
  all_goals decide

/-- The newest stage looks at every artifact of the name. -/
theorem fnmatch_newestPattern (h : a.name.text = n.text) :
    fnmatch (newestPattern n.text) a.filename = true := by
  have hhyphen : ∀ p s : Text, fnmatch ('-' :: p) ('-' :: s) = fnmatch p s := fun p s =>
    fnmatch_plain (t := ['-']) (by decide)
  have htail : fnmatch (pkgTar ++ ['*']) a.extText = true := by
    have hext : ∃ u, a.extText = pkgTar ++ u := by
      unfold Artifact.extText
      cases a.ext with
      | none => exact ⟨[], (List.append_nil pkgTar).symm⟩
      | some e => exact ⟨'.' :: e, rfl⟩
    obtain ⟨u, hu⟩ := hext
    have hstar := fnmatch_star (p := []) (s := []) u rfl
    rw [List.append_nil] at hstar
    rw [hu, fnmatch_plain (by decide), hstar]
  have hfile : a.filename = n.text ++ '-' :: (a.fullVer ++ '-' :: (a.rel ++ '-' ::
      (a.arch ++ a.extText))) := by
    rw [Artifact.filename, Artifact.stemText, h]
    simp only [List.append_assoc, List.cons_append]
  rw [hfile, newestPattern, fnmatch_plain n.plain.1]
  refine (hhyphen _ _).trans (fnmatch_star a.fullVer ?_)
  refine (hhyphen _ _).trans (fnmatch_star a.rel ?_)
  exact (hhyphen _ _).trans (fnmatch_star a.arch htail)

/-- The candidates are the artifacts of the name that are newer than the installed version. -/
theorem mem_candidates (hepochs : ∀ a, (a, false) ∈ dir → a.epoch ≠ some ['0']) :
    (ver, path) ∈ candidates vercmp (fileNames dir) n.text installedVer ↔
      ∃ a, (a, false) ∈ dir ∧ a.filename = path ∧ a.name.text = n.text ∧ a.version = ver ∧
        ∀ installed ∈ installedVer, 0 < vercmp ver installed := by
  have hslash : '/' ∉ newestPattern n.text := by
    intro h
    rcases List.mem_append.mp h with h | h
    · exact n.plain.2 h
    · exact absurd h (by decide)
  rw [candidates, glob, if_neg hslash, List.mem_filterMap]
  constructor
  · rintro ⟨f, hf, heq⟩
    rw [List.mem_filter] at hf
    split_ifs at heq with hsig
    obtain ⟨v, hv, heq⟩ := Option.bind_eq_some_iff.mp heq
    split_ifs at heq with hold
    obtain ⟨rfl, rfl⟩ := Prod.mk.inj (Option.some.inj heq)
    obtain ⟨a, ha, rfl⟩ := mem_fileNames.mp ⟨hf.1, Bool.eq_false_iff.mpr hsig⟩
    rw [versionOf_filename (hepochs a ha)] at hv
    split_ifs at hv with hname
    refine ⟨a, ha, rfl, hname.symm, Option.some.inj hv, fun installed hi => ?_⟩
    by_contra hle
    exact hold ⟨installed, hi, Int.not_lt.mp hle⟩
  · rintro ⟨a, ha, rfl, hname, rfl, hnew⟩
    obtain ⟨hmem, hsig⟩ := mem_fileNames.mpr ⟨a, ha, rfl⟩
    refine ⟨a.filename, List.mem_filter.mpr ⟨hmem, fnmatch_newestPattern hname⟩, ?_⟩
    rw [if_neg (ne_true_of_eq_false hsig), versionOf_filename (hepochs a ha), if_pos hname.symm,
      Option.bind_some, if_neg]
    rintro ⟨installed, hi, hle⟩
    exact Int.not_lt.mpr hle (hnew installed hi)

/-- What comes last in order is the newest. -/
theorem newest_of_findNewest (hvercmp : VersionOrder vercmp) {files : List Text} {pkgname : Text}
    (h : path ∈ findNewest vercmp files pkgname installedVer) :
    ∃ ver, (ver, path) ∈ candidates vercmp files pkgname installedVer ∧
      ∀ c ∈ candidates vercmp files pkgname installedVer, vercmp c.1 ver ≤ 0 := by
  obtain ⟨⟨ver, f⟩, hlast, rfl⟩ := Option.map_eq_some_iff.mp (Option.mem_toList.mp h)
  have hle : ∀ a b : Text × Text, ¬vercmp b.1 a.1 < 0 ↔ vercmp a.1 b.1 ≤ 0 := fun a b => by
    rw [hvercmp.swap, Int.not_lt]
  have htotal : Std.Total fun a b : Text × Text => ¬vercmp b.1 a.1 < 0 :=
    ⟨fun a b => by rw [hle, hle]; exact hvercmp.total _ _⟩
  have htrans : IsTrans (Text × Text) fun a b => ¬vercmp b.1 a.1 < 0 :=
    ⟨fun a b c hab hbc => (hle _ _).mpr (hvercmp.trans _ _ _ ((hle _ _).mp hab) ((hle _ _).mp hbc))⟩
  have hsorted := List.pairwise_insertionSort (fun a b : Text × Text => ¬vercmp b.1 a.1 < 0)
    (candidates vercmp files pkgname installedVer)
  obtain ⟨front, hfront⟩ := List.getLast?_eq_some_iff.mp hlast
  have hmem : ∀ c, c ∈ candidates vercmp files pkgname installedVer ↔ c ∈ front ++ [(ver, f)] := by
    intro c
    rw [← hfront, List.mem_insertionSort]
  refine ⟨ver, (hmem _).mpr (List.mem_append_right front List.mem_cons_self), fun c hc => ?_⟩
  rw [hfront, List.pairwise_append] at hsorted
  rcases List.mem_append.mp ((hmem c).mp hc) with hc | hc
  · exact (hle c (ver, f)).mp (hsorted.2.2 c hc _ List.mem_cons_self)
  · rw [List.mem_singleton.mp hc]
    exact (hvercmp.total ver ver).elim id id

/-- **The newest stage** finds an artifact of the name that no other one of the name exceeds. -/
theorem isNewest_of_findNewest (hvercmp : VersionOrder vercmp)
    (hepochs : ∀ a, (a, false) ∈ dir → a.epoch ≠ some ['0'])
    (h : path ∈ findNewest vercmp (fileNames dir) n.text installedVer) :
    ∃ a, (a, false) ∈ dir ∧ a.filename = path ∧ a.name.text = n.text ∧
      IsNewest vercmp dir installedVer a := by
  obtain ⟨ver, hmem, hmax⟩ := newest_of_findNewest hvercmp h
  obtain ⟨a, ha, hfile, hname, rfl, hnew⟩ := (mem_candidates hepochs).mp hmem
  refine ⟨a, ha, hfile, hname, fun b hb hbname => ?_, hnew⟩
  by_cases hold : ∀ installed ∈ installedVer, 0 < vercmp b.version installed
  · exact hmax _ ((mem_candidates hepochs).mpr ⟨b, hb, rfl, hbname.trans hname, rfl, hold⟩)
  · -- a version that is not newer than the installed one is not newer than this one either
    simp only [not_forall] at hold
    obtain ⟨installed, hi, hle⟩ := hold
    have hge : vercmp installed a.version < 0 := (hvercmp.swap _ _).mpr (hnew installed hi)
    exact hvercmp.trans _ _ _ (Int.not_lt.mp hle) hge.le

/-- The strict stage finds what its pattern takes. -/
theorem mem_findStrict : path ∈ findStrict (fileNames dir) n.text ver ↔ '/' ∉ ver ∧
    ∃ a, (a, false) ∈ dir ∧ a.filename = path ∧ fnmatch (strictPattern n.text ver) path = true := by
  have hslash : '/' ∈ strictPattern n.text ver ↔ '/' ∈ ver := by
    have hrest : '/' ∉ ['-', '*'] ++ (pkgTar ++ ['*']) := by decide
    rw [strictPattern, List.mem_append, or_iff_right n.plain.2, List.mem_cons,
      or_iff_right (by decide), List.mem_append, or_iff_left hrest]
  rw [findStrict, glob, List.mem_filter]
  split_ifs with h
  · exact iff_of_false (fun hpath => List.not_mem_nil hpath.1) fun hpath => hpath.1 (hslash.mp h)
  · rw [List.mem_filter, Bool.not_eq_true', and_right_comm, mem_fileNames]
    constructor
    · rintro ⟨⟨a, ha, hfile⟩, hmatch⟩
      exact ⟨hslash.not.mp h, a, ha, hfile, hmatch⟩
    · rintro ⟨-, a, ha, hfile, hmatch⟩
      exact ⟨⟨a, ha, hfile⟩, hmatch⟩

/-- The exact mode decodes what it finds. -/
theorem exact_of_findExact {name : Text} (hepochs : ∀ a, (a, false) ∈ dir → a.epoch ≠ some ['0'])
    (h : path ∈ findExact (fileNames dir) name ver) :
    ∃ a, (a, false) ∈ dir ∧ a.filename = path ∧ a.name.text = name ∧ a.version = ver := by
  have hfind := Option.mem_toList.mp h
  have hmem := (List.mem_insertionSort _).mp (List.mem_of_find?_eq_some hfind)
  have hpred := List.find?_some hfind
  rw [Bool.and_eq_true, Bool.not_eq_true'] at hpred
  obtain ⟨hsig, hver⟩ := hpred
  have hfile : path ∈ fileNames dir := by
    rw [glob] at hmem
    split_ifs at hmem
    · exact absurd hmem List.not_mem_nil
    · exact List.mem_of_mem_filter hmem
  obtain ⟨a, ha, rfl⟩ := mem_fileNames.mp ⟨hfile, hsig⟩
  have hsome := of_decide_eq_true hver
  rw [versionOf_filename (hepochs a ha)] at hsome
  split_ifs at hsome with hname
  exact ⟨a, ha, rfl, hname.symm, Option.some.inj hsome⟩

end Finding

/-! ## The lookup -/

section Lookup

variable {vercmp : Text → Text → ℤ} {dir : PkgDir} {pkgnames : List PkgName}
  {pkgbuildVer installedVer exactVer : Option Text}

theorem findArtifacts_singleton (files : List Text) (n : Text) :
    findArtifacts vercmp (some files) [n] pkgbuildVer installedVer exactVer =
      findFor vercmp files pkgbuildVer installedVer exactVer n := List.flatMap_singleton _ n

/-- **The lookup is correct** exactly when the strict pattern takes no other files. -/
theorem correct_iff (hvercmp : VersionOrder vercmp) :
    Correct vercmp dir pkgnames pkgbuildVer installedVer exactVer ↔
      Separated dir pkgnames pkgbuildVer exactVer := by
  constructor
  · rintro ⟨hfound, hdecoded⟩
    have hepochs : ∀ a, (a, false) ∈ dir → a.epoch ≠ some ['0'] := by
      intro a ha
      have hver := hdecoded a ha
      rw [versionOf, parse_filename, if_pos rfl, Option.map_some] at hver
      exact (versionString_parsed a).mp (Option.some.inj hver)
    refine ⟨hepochs, ?_⟩
    rintro rfl ver hver hne hslash n hn a ha hmatch
    have hfilter : pkgbuildVer.filter (fun ver => ver ≠ []) = some ver := by
      rw [Option.mem_def.mp hver, Option.filter_some, if_pos (decide_eq_true hne)]
    have hstrict : a.filename ∈ findStrict (fileNames dir) n.text ver :=
      mem_findStrict.mpr ⟨hslash, a, ha, rfl, hmatch⟩
    have hpath := hfound n hn a.filename
    rw [findArtifacts_singleton, findFor, hfilter] at hpath
    dsimp only at hpath
    rw [if_pos (List.ne_nil_of_mem hstrict)] at hpath
    obtain ⟨b, hb, hfile, hname, hwanted⟩ := hpath hstrict
    rw [Wanted, hfilter] at hwanted
    dsimp only at hwanted
    rw [hname, if_pos (List.ne_nil_of_mem hstrict)] at hwanted
    -- two artifacts of one file name have one name and version
    have hsame := versionOf_filename (hepochs a ha) n.text
    rw [← hfile, versionOf_filename (hepochs b hb), if_pos hname.symm] at hsame
    split_ifs at hsame with hn'
    exact ⟨hn'.symm, (Option.some.inj hsame).symm.trans hwanted⟩
  · rintro ⟨hepochs, hstrict⟩
    refine ⟨fun n hn path hpath => ?_, fun a ha => ?_⟩
    · rw [findArtifacts_singleton, findFor.eq_def] at hpath
      cases exactVer with
      | some ver => exact exact_of_findExact hepochs hpath
      | none =>
        dsimp only at hpath
        cases hfilter : pkgbuildVer.filter (fun ver => ver ≠ []) with
        | none =>
          rw [hfilter] at hpath
          obtain ⟨a, ha, hfile, hname, hnew⟩ := isNewest_of_findNewest hvercmp hepochs hpath
          refine ⟨a, ha, hfile, hname, ?_⟩
          rw [Wanted, hfilter]
          exact hnew
        | some ver =>
          rw [hfilter] at hpath
          dsimp only at hpath
          split_ifs at hpath with hfound
          · obtain ⟨hslash, a, ha, rfl, hmatch⟩ := mem_findStrict.mp hpath
            obtain ⟨hver, hne⟩ := Option.filter_eq_some_iff.mp hfilter
            obtain ⟨hname, hversion⟩ :=
              hstrict rfl ver hver (of_decide_eq_true hne) hslash n hn a ha hmatch
            refine ⟨a, ha, rfl, hname, ?_⟩
            rw [Wanted, hfilter]
            dsimp only
            rw [hname, if_pos hfound]
            exact hversion
          · obtain ⟨a, ha, hfile, hname, hnew⟩ := isNewest_of_findNewest hvercmp hepochs hpath
            refine ⟨a, ha, hfile, hname, ?_⟩
            rw [Wanted, hfilter]
            dsimp only
            rw [hname, if_neg hfound]
            exact hnew
    · rw [versionOf_filename (hepochs a ha), if_pos rfl]

/-- Versions in the order of their texts. -/
def textCompare (a b : Text) : ℤ := if a < b then -1 else if b < a then 1 else 0

theorem versionOrder_textCompare : VersionOrder textCompare := by
  have hle : ∀ a b, textCompare a b ≤ 0 ↔ a ≤ b := by
    intro a b
    unfold textCompare
    split_ifs with hlt hgt
    · exact iff_of_true (by decide) hlt.le
    · exact iff_of_false (by decide) (not_le.mpr hgt)
    · exact iff_of_true le_rfl (not_lt.mp hgt)
  have hlt : ∀ a b, textCompare a b < 0 ↔ a < b := by
    intro a b
    unfold textCompare
    split_ifs with hlt
    · exact iff_of_true (by decide) hlt
    · exact iff_of_false (by decide) hlt
    · exact iff_of_false (by decide) hlt
  refine ⟨fun a b => ?_, fun a b c hab hbc => ?_, fun a b => ?_⟩
  · rw [hle, hle]
    exact le_total a b
  · rw [hle] at hab hbc ⊢
    exact hab.trans hbc
  · rw [hlt, ← Int.not_le, hle, not_le]

theorem nameChars {t : Text}
    (h : t.all (fun c => c.isAlphanum || c ∈ ['@', '.', '_', '+', '-']) = true) :
    ∀ c ∈ t, c.isAlphanum ∨ c ∈ ['@', '.', '_', '+', '-'] := by
  intro c hc
  have hchar := List.all_eq_true.mp h c hc
  rw [Bool.or_eq_true] at hchar
  exact hchar.imp_right of_decide_eq_true

/-- `foo-1-1-any.pkg.tar`. -/
def fooArtifact : Artifact where
  name := ⟨['f', 'o', 'o'], by decide, nameChars (by decide), by decide⟩
  epoch := none
  ver := ['1']
  rel := ['1']
  arch := ['a', 'n', 'y']
  ext := none
  epoch_digits e he := absurd he (Option.not_mem_none e)
  ver_field := ⟨by decide, by decide, by decide, by decide⟩
  rel_field := ⟨by decide, by decide, by decide, by decide⟩
  arch_field := ⟨by decide, by decide, by decide, by decide⟩
  ext_ok e he := absurd he (Option.not_mem_none e)

/-- `foo-1-1-1-any.pkg.tar`, of the package `foo-1`. -/
def fooOneArtifact : Artifact :=
  { fooArtifact with
    name := ⟨['f', 'o', 'o', '-', '1'], by decide, nameChars (by decide), by decide⟩ }

/-- The file of `foo` at the version of its PKGBUILD. -/
theorem correct_foo : Correct textCompare [(fooArtifact, false)] [fooArtifact.name]
    (some ['1', '-', '1']) none none := by
  refine (correct_iff versionOrder_textCompare).mpr ⟨fun a ha => ?_, ?_⟩
  · rw [(Prod.mk.inj (List.mem_singleton.mp ha)).1]
    exact (Option.some_ne_none _).symm
  · intro _ ver hver _ _ n hn a ha _
    rw [(Prod.mk.inj (List.mem_singleton.mp ha)).1, List.mem_singleton.mp hn,
      ← Option.some.inj hver]
    exact ⟨rfl, rfl⟩

/-- For `foo` at `1-1` a file of `foo-1` is found. -/
theorem not_correct : ¬∀ (vercmp : Text → Text → ℤ) (dir : PkgDir) (pkgnames : List PkgName)
    (pkgbuildVer installedVer exactVer : Option Text), VersionOrder vercmp →
    Correct vercmp dir pkgnames pkgbuildVer installedVer exactVer := by
  intro h
  have hcorrect := h textCompare [(fooOneArtifact, false)] [fooArtifact.name] (some ['1', '-', '1'])
    none none versionOrder_textCompare
  have hstrict : fooOneArtifact.filename ∈
      findStrict (fileNames [(fooOneArtifact, false)]) fooArtifact.name.text ['1', '-', '1'] :=
    mem_findStrict.mpr ⟨by decide, fooOneArtifact, List.mem_cons_self, rfl, by decide⟩
  have hpath := hcorrect.found fooArtifact.name List.mem_cons_self fooOneArtifact.filename
  rw [findArtifacts_singleton, findFor] at hpath
  have hfilter : (some ['1', '-', '1']).filter (fun ver : Text => ver ≠ []) =
      some ['1', '-', '1'] := rfl
  rw [hfilter] at hpath
  dsimp only at hpath
  rw [if_pos (List.ne_nil_of_mem hstrict)] at hpath
  obtain ⟨a, ha, -, hname, -⟩ := hpath hstrict
  rw [(Prod.mk.inj (List.mem_singleton.mp ha)).1] at hname
  exact absurd hname (by decide)

end Lookup

end Sysforge.Makepkg.Artifacts
