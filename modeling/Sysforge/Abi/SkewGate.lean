import Sysforge.Abi.AbiCheck

/-!
# The skew gate

A reference that no needed library exports is found by the gate when it is attributed to a
source-built library: one that defines its version, or, when no needed library does, one that the
version is bound to, unless a library that the version is bound to is not installed. The gate finds
nothing else.
-/

namespace Sysforge.Abi

variable {t : Tools} {pkgs sourceBuilt : List Text} {pkg so lib ver soname : Text} {ref : Ref}
  {f : AbiFinding}

/-! ## What the tools say of an object -/

/-- The objects of a package that the check sees. -/
def sharedObjects (t : Tools) (pkg : Text) : List Text := extractSos t pkg (listSosInPkg t pkg)

/-- An installed library that the object needs. -/
def IsNeededLib (t : Tools) (so lib : Text) : Prop :=
  ∃ soname ∈ neededSonames t so, resolve t so soname = some lib

/-- Some needed library exports the symbol at the version. -/
def Exported (t : Tools) (so : Text) (ref : Ref) : Prop :=
  ∃ lib, IsNeededLib t so lib ∧ ref ∈ exportedVersioned t lib

/-- The library exports something at the version. -/
def Defines (t : Tools) (lib ver : Text) : Prop := ∃ sym, (sym, ver) ∈ exportedVersioned t lib

/-- The version's Verneed entry names the needed library. -/
def BoundTo (t : Tools) (so ver soname : Text) : Prop :=
  soname ∈ neededSonames t so ∧ (ver, soname) ∈ verneedMap t so

/-- The library's owner is source-built. -/
def SourceBuilt (t : Tools) (sourceBuilt : List Text) (lib : Text) : Prop :=
  ∃ o ∈ sourceBuilt, t.owner lib = some o

/-- The version is bound to a library that is source-built. -/
def BoundToSourceBuilt (t : Tools) (sourceBuilt : List Text) (so ver : Text) : Prop :=
  ∃ soname lib, BoundTo t so ver soname ∧ resolve t so soname = some lib ∧
    SourceBuilt t sourceBuilt lib

/-- A reference of an object of the package whose version is bound to a source-built library, and
that no needed library exports. -/
structure Skew (t : Tools) (sourceBuilt : List Text) (pkg so : Text) (ref : Ref) : Prop where
  so_mem : so ∈ sharedObjects t pkg
  ref_mem : ref ∈ undefinedVersioned t so
  bound : BoundToSourceBuilt t sourceBuilt so ref.2
  not_exported : ¬Exported t so ref
  not_optional : isOptionalLlvmTargetInit ref = false

/-- Of the needed libraries that define the version one is source-built, or none defines it and
every library that it is bound to is installed. -/
def Attributed (t : Tools) (sourceBuilt : List Text) (so ver : Text) : Prop :=
  (∃ lib, IsNeededLib t so lib ∧ Defines t lib ver ∧ SourceBuilt t sourceBuilt lib) ∨
    (∀ lib, IsNeededLib t so lib → ¬Defines t lib ver) ∧
      ∀ soname, BoundTo t so ver soname → resolve t so soname ≠ none

/-! ## The linkage -/

theorem lookup_neededPaths :
    (linkage t so).neededPaths.lookup soname =
      if soname ∈ neededSonames t so then resolve t so soname else none := by
  have h : ∀ l : List Text, (l.filterMap fun soname =>
      (resolve t so soname).map fun p => (soname, p)).lookup soname =
        if soname ∈ l then resolve t so soname else none := by
    intro l
    induction l with
    | nil => rfl
    | cons s l ih =>
      by_cases hs : soname = s
      · subst hs
        rw [if_pos List.mem_cons_self]
        cases hr : resolve t so soname with
        | none =>
          rw [List.filterMap_cons, hr]
          exact ih.trans (by rw [hr, ite_self])
        | some p => rw [List.filterMap_cons, hr, Option.map_some, List.lookup_cons_self]
      · have hmem : soname ∈ s :: l ↔ soname ∈ l := by
          rw [List.mem_cons, or_iff_right hs]
        rw [List.filterMap_cons, if_congr hmem rfl rfl, ← ih]
        cases resolve t so s with
        | none => rfl
        | some p =>
          have hne : (soname == s) = false := beq_eq_false_iff_ne.mpr hs
          exact (List.lookup_cons ..).trans (by rw [hne])
  exact (h _).trans (if_congr List.mem_dedup rfl rfl)

theorem mem_exports {p : Text × List Ref} :
    p ∈ (linkage t so).exports ↔ IsNeededLib t so p.1 ∧ p.2 = exportedVersioned t p.1 := by
  obtain ⟨lib, es⟩ := p
  have hpaths : lib ∈ (linkage t so).neededPaths.map Prod.snd ↔ IsNeededLib t so lib := by
    rw [List.mem_map]
    constructor
    · rintro ⟨p, hp, rfl⟩
      obtain ⟨s, hs, h⟩ := List.mem_filterMap.mp hp
      obtain ⟨q, hq, rfl⟩ := Option.map_eq_some_iff.mp h
      exact ⟨s, List.mem_dedup.mp hs, hq⟩
    · rintro ⟨s, hs, hr⟩
      refine ⟨(s, lib), List.mem_filterMap.mpr ⟨s, List.mem_dedup.mpr hs, ?_⟩, rfl⟩
      rw [hr, Option.map_some]
  constructor
  · intro h
    obtain ⟨l, hl, hpair⟩ := List.mem_map.mp h
    cases hpair
    exact ⟨hpaths.mp (List.mem_dedup.mp hl), rfl⟩
  · rintro ⟨h, he⟩
    dsimp only at h he
    rw [he]
    exact List.mem_map_of_mem (f := fun p => (p, exportedVersioned t p))
      (List.mem_dedup.mpr (hpaths.mpr h))

theorem provides_iff : (linkage t so).provides ref = true ↔ Exported t so ref := by
  rw [Linkage.provides, List.any_eq_true]
  constructor
  · rintro ⟨p, hp, href⟩
    obtain ⟨hlib, hes⟩ := mem_exports.mp hp
    exact ⟨p.1, hlib, hes ▸ of_decide_eq_true href⟩
  · rintro ⟨lib, hlib, href⟩
    exact ⟨(lib, exportedVersioned t lib), mem_exports.mpr ⟨hlib, rfl⟩, decide_eq_true href⟩

theorem mem_definers :
    lib ∈ (linkage t so).definers ver ↔ IsNeededLib t so lib ∧ Defines t lib ver := by
  rw [Linkage.definers, List.mem_map]
  constructor
  · rintro ⟨p, hp, rfl⟩
    obtain ⟨hmem, hver⟩ := List.mem_filter.mp hp
    obtain ⟨hlib, hes⟩ := mem_exports.mp hmem
    obtain ⟨q, hq, rfl⟩ := List.mem_map.mp (of_decide_eq_true hver)
    exact ⟨hlib, q.1, hes ▸ hq⟩
  · rintro ⟨hlib, sym, hsym⟩
    refine ⟨(lib, exportedVersioned t lib), List.mem_filter.mpr ⟨mem_exports.mpr ⟨hlib, rfl⟩, ?_⟩,
      rfl⟩
    exact decide_eq_true (List.mem_map.mpr ⟨_, hsym, rfl⟩)

theorem mem_bound {verneed : List (Text × Text)} :
    soname ∈ bound verneed ver ↔ (ver, soname) ∈ verneed := by
  rw [bound, List.mem_dedup, List.mem_map]
  constructor
  · rintro ⟨⟨v, s⟩, hp, rfl⟩
    obtain ⟨hmem, hv⟩ := List.mem_filter.mp hp
    exact of_decide_eq_true hv ▸ hmem
  · exact fun h => ⟨_, List.mem_filter.mpr ⟨h, decide_eq_true rfl⟩, rfl⟩

theorem mem_missingLibs : soname ∈ (linkage t so).missingLibs ↔
    soname ∈ neededSonames t so ∧ resolve t so soname = none := by
  rw [linkage, List.mem_filter, List.mem_dedup, Option.isNone_iff_eq_none]

/-! ## The verdict -/

/-- A reference is a finding only if no needed library exports it. -/
theorem not_exported_of_hard (h : (linkage t so).judge ref = .hard) : ¬Exported t so ref := by
  intro hex
  rw [Linkage.judge, if_pos (provides_iff.mpr hex)] at h
  cases h

/-- A reference whose version is bound to a needed library, and that no needed library exports, is a
finding if its version is defined, or if no library it is bound to is missing. -/
theorem judge_of_bound (hbound : BoundTo t so ref.2 soname) (hex : ¬Exported t so ref)
    (hopt : isOptionalLlvmTargetInit ref = false)
    (hmiss : (∃ lib, IsNeededLib t so lib ∧ Defines t lib ref.2) ∨
      ∀ s, BoundTo t so ref.2 s → resolve t so s ≠ none) :
    (linkage t so).judge ref = .hard := by
  have hne : (linkage t so).verneed ≠ [] := List.ne_nil_of_mem hbound.2
  have hpass : ¬(bound (linkage t so).verneed ref.2).all
      (fun s => s ∉ (linkage t so).needed) = true := fun hall =>
    of_decide_eq_true (List.all_eq_true.mp hall soname (mem_bound.mpr hbound.2)) hbound.1
  rw [Linkage.judge, if_neg (fun h => hex (provides_iff.mp h)), if_neg fun h => hpass h.2,
    if_neg hne, hopt]
  by_cases hdef : (linkage t so).definers ref.2 = []
  · rw [if_neg (not_not.mpr hdef)]
    have hnil : (bound (linkage t so).verneed ref.2).filter
        (fun s => s ∈ (linkage t so).missingLibs) = [] := by
      rw [List.filter_eq_nil_iff]
      intro s hs hmem
      obtain ⟨hneed, hnone⟩ := mem_missingLibs.mp (of_decide_eq_true hmem)
      obtain ⟨lib, hlib, hdefs⟩ | hall := hmiss
      · exact List.ne_nil_of_mem (mem_definers.mpr ⟨hlib, hdefs⟩) hdef
      · exact hall s ⟨hneed, mem_bound.mp hs⟩ hnone
    rw [if_neg (not_not.mpr hnil)]
  · rw [if_pos hdef, if_neg Bool.false_ne_true]

/-- The libraries of a finding that is attributed include a source-built one. -/
theorem sourceBuilt_libs (hbound : BoundToSourceBuilt t sourceBuilt so ver)
    (h : Attributed t sourceBuilt so ver) :
    ∃ lib ∈ (linkage t so).libs ver, SourceBuilt t sourceBuilt lib := by
  rw [Linkage.libs]
  obtain ⟨lib, hlib, hdefs, hsb⟩ | ⟨hno, -⟩ := h
  · have hmem : lib ∈ (linkage t so).definers ver := mem_definers.mpr ⟨hlib, hdefs⟩
    refine ⟨lib, (List.mem_insertionSort _).mpr ?_, hsb⟩
    rwa [if_pos (List.ne_nil_of_mem hmem)]
  · obtain ⟨soname, lib, hb, hr, hsb⟩ := hbound
    have hnil : (linkage t so).definers ver = [] := by
      rw [List.eq_nil_iff_forall_not_mem]
      intro l hl
      obtain ⟨hlib, hdefs⟩ := mem_definers.mp hl
      exact hno l hlib hdefs
    refine ⟨lib, (List.mem_insertionSort _).mpr ?_, hsb⟩
    rw [if_neg (not_not.mpr hnil), List.mem_filterMap]
    refine ⟨soname, mem_bound.mpr hb.2, ?_⟩
    rw [lookup_neededPaths, if_pos hb.1, hr]

/-! ## The gate -/

theorem mem_symbolFindings : f ∈ objectIssues t so ∧ f.kind = .symbol ↔
    Text.baseName so ∉ shimLibs ∧ neededSonames t so ≠ [] ∧
      ∃ ref ∈ undefinedVersioned t so, (linkage t so).judge ref = .hard ∧
        f = (linkage t so).symbolFinding t (Text.baseName so) ref := by
  rw [objectIssues]
  by_cases hskip : Text.baseName so ∈ shimLibs ∨ (linkage t so).undef = [] ∨
      (linkage t so).needed = []
  · rw [if_pos hskip]
    refine iff_of_false (fun h => absurd h.1 List.not_mem_nil) ?_
    rintro ⟨hshim, hneed, ref, href, -⟩
    obtain h | h | h := hskip
    · exact hshim h
    · exact List.ne_nil_of_mem href h
    · exact hneed h
  · rw [if_neg hskip, List.mem_append, List.mem_map, List.mem_map]
    obtain ⟨hshim, hrest⟩ := not_or.mp hskip
    obtain ⟨-, hneed⟩ := not_or.mp hrest
    constructor
    · rintro ⟨⟨ref, href, rfl⟩ | ⟨s, -, rfl⟩, hkind⟩
      · obtain ⟨hundef, hhard⟩ := List.mem_filter.mp ((List.mem_insertionSort _).mp href)
        exact ⟨hshim, hneed, ref, hundef, of_decide_eq_true hhard, rfl⟩
      · cases hkind
    · rintro ⟨-, -, ref, hundef, hhard, rfl⟩
      refine ⟨.inl ⟨ref, (List.mem_insertionSort _).mpr ?_, rfl⟩, rfl⟩
      exact List.mem_filter.mpr ⟨hundef, decide_eq_true hhard⟩

/-- What the gate returns. -/
theorem mem_sourceBuiltSkewFindings : f ∈ sourceBuiltSkewFindings t pkgs sourceBuilt ↔
    ∃ pkg ∈ pkgs, ".sig".toList.isSuffixOf (Text.baseName pkg) = false ∧
      ∃ so ∈ sharedObjects t pkg, f ∈ objectIssues t so ∧ f.kind = .symbol ∧
        ∃ lib ∈ f.libs, SourceBuilt t sourceBuilt lib := by
  rw [sourceBuiltSkewFindings]
  by_cases hsb : sourceBuilt = []
  · rw [if_pos hsb]
    refine iff_of_false List.not_mem_nil ?_
    rintro ⟨-, -, -, -, -, -, -, lib, -, o, ho, -⟩
    exact absurd (hsb ▸ ho) List.not_mem_nil
  · rw [if_neg hsb]
    dsimp only
    rw [List.mem_filter, List.mem_flatMap, List.any_eq_true]
    constructor
    · rintro ⟨⟨pkg, hpkg, hf⟩, lib, hlib, howner⟩
      obtain ⟨hpkg, hsig⟩ := List.mem_filter.mp hpkg
      obtain ⟨hf, hkind⟩ := List.mem_filter.mp hf
      obtain ⟨so, hso, hf⟩ := List.mem_flatMap.mp hf
      obtain ⟨o, ho, hmem⟩ := (Option.any_eq_true _ _).mp howner
      rw [Bool.and_eq_true, decide_eq_true_iff] at hkind
      exact ⟨pkg, hpkg, (Bool.not_eq_true' _).mp hsig, so, hso, hf, hkind.1, lib, hlib, o,
        of_decide_eq_true hmem, ho⟩
    · rintro ⟨pkg, hpkg, hsig, so, hso, hf, hkind, lib, hlib, o, ho, howner⟩
      refine ⟨⟨pkg, List.mem_filter.mpr ⟨hpkg, (Bool.not_eq_true' _).mpr hsig⟩,
        List.mem_filter.mpr ⟨List.mem_flatMap.mpr ⟨so, hso, hf⟩, ?_⟩⟩, lib, hlib,
        (Option.any_eq_true _ _).mpr ⟨o, howner, decide_eq_true ho⟩⟩
      rw [Bool.and_eq_true, decide_eq_true_iff, decide_eq_true_iff]
      exact ⟨hkind, List.ne_nil_of_mem hlib⟩

/-- **The gate finds every skew of an object other than the compat shims that is attributed to a
source-built library**, and only references that no needed library exports. -/
theorem skew_found (t : Tools) (pkgs sourceBuilt : List Text) :
    (∀ pkg ∈ pkgs, ".sig".toList.isSuffixOf (Text.baseName pkg) = false → ∀ so ref,
      Skew t sourceBuilt pkg so ref → Text.baseName so ∉ shimLibs →
        Attributed t sourceBuilt so ref.2 →
          (linkage t so).symbolFinding t (Text.baseName so) ref ∈
            sourceBuiltSkewFindings t pkgs sourceBuilt) ∧
    ∀ f ∈ sourceBuiltSkewFindings t pkgs sourceBuilt, ∃ pkg ∈ pkgs, ∃ so ∈ sharedObjects t pkg,
      ∃ ref ∈ undefinedVersioned t so, ¬Exported t so ref ∧
        f = (linkage t so).symbolFinding t (Text.baseName so) ref := by
  constructor
  · intro pkg hpkg hsig so ref h hshim hattr
    obtain ⟨soname, -, hb, -⟩ := h.bound
    have hhard : (linkage t so).judge ref = .hard := by
      refine judge_of_bound hb h.not_exported h.not_optional ?_
      obtain ⟨lib, hlib, hdefs, -⟩ | ⟨-, hall⟩ := hattr
      · exact .inl ⟨lib, hlib, hdefs⟩
      · exact .inr hall
    obtain ⟨hissue, hkind⟩ := mem_symbolFindings.mpr
      ⟨hshim, List.ne_nil_of_mem hb.1, ref, h.ref_mem, hhard, rfl⟩
    exact mem_sourceBuiltSkewFindings.mpr
      ⟨pkg, hpkg, hsig, so, h.so_mem, hissue, hkind, sourceBuilt_libs h.bound hattr⟩
  · intro f hf
    obtain ⟨pkg, hpkg, -, so, hso, hissue, hkind, -⟩ := mem_sourceBuiltSkewFindings.mp hf
    obtain ⟨-, -, ref, href, hhard, rfl⟩ := mem_symbolFindings.mp ⟨hissue, hkind⟩
    exact ⟨pkg, hpkg, so, hso, ref, href, not_exported_of_hard hhard, rfl⟩

/-! ## Packages with one object -/

/-- A package with one object, which needs `/a` and `/b` for the symbol `f` at the version `V1`:
its member's name, what its Verneed section says, and what `/b` exports. -/
def oneObject (member verneed exports : String) : Tools where
  listing _ := some member.toList
  extracted _ m := some m
  nm p := if p = "/a".toList then some "1 T g@@V0".toList
    else if p = "/b".toList then some exports.toList
    else some "U f@V1".toList
  dynamic _ := some "(NEEDED) Shared library: [a] (NEEDED) Shared library: [b]".toList
  versionInfo _ := some verneed.toList
  header _ := none
  ldconfig := some (if exports = "" then " a (libc6,x86-64) => /a".toList
    else " a (libc6,x86-64) => /a\n b (libc6,x86-64) => /b".toList)
  cxxfilt symbols := some (Text.joinLines symbols)
  owner p := some (Text.baseName p)
  alnum _ := false
  printable _ := true

/-- The symbol's version is bound to the library of `a`. -/
def boundToA : String := "Version needs section\nFile: a\nName: V1"

/-- The symbol's version is bound to the libraries of `a` and of `b`. -/
def boundToBoth : String := boundToA ++ "\nFile: b\nName: V1"

/-- The reference `f@V1`. -/
def fAtV1 : Ref := (['f'], ['V', '1'])

theorem skew_oneObject {member verneed exports : String} (hsb : ['a'] ∈ sourceBuilt)
    (h : let t := oneObject member verneed exports
      member.toList ∈ sharedObjects t ['p'] ∧ fAtV1 ∈ undefinedVersioned t member.toList ∧
        (['V', '1'], ['a']) ∈ verneedMap t member.toList ∧
        ['a'] ∈ neededSonames t member.toList ∧ resolve t member.toList ['a'] = some ['/', 'a'] ∧
        (linkage t member.toList).provides fAtV1 = false) :
    Skew (oneObject member verneed exports) sourceBuilt ['p'] member.toList fAtV1 := by
  obtain ⟨hso, href, hver, hneed, hres, hprov⟩ := h
  refine ⟨hso, href, ⟨['a'], ['/', 'a'], ⟨hneed, hver⟩, hres, ['a'], hsb, rfl⟩, fun hex => ?_,
    by decide⟩
  exact Bool.false_ne_true (hprov.symm.trans (provides_iff.mpr hex))

/-- The gate blocks a reference at a version that the library of `b` defines, if `b` is source-built
too. -/
theorem skew_found_oneObject :
    (linkage (oneObject "x.so" boundToA "1 T h@@V1") "x.so".toList).symbolFinding
        (oneObject "x.so" boundToA "1 T h@@V1") "x.so".toList fAtV1 ∈
      sourceBuiltSkewFindings (oneObject "x.so" boundToA "1 T h@@V1") [['p']] [['a'], ['b']] := by
  refine (skew_found (oneObject "x.so" boundToA "1 T h@@V1") [['p']] [['a'], ['b']]).1 ['p']
    (List.mem_singleton_self _) (by decide) "x.so".toList _ (skew_oneObject List.mem_cons_self ?_)
    (by decide) (.inl ⟨['/', 'b'], ⟨['b'], ?_, ?_⟩, ⟨['h'], ?_⟩, ['b'], ?_, rfl⟩) <;>
    decide

/-- The gate lets through a reference whose version another needed library defines, one that is
bound to a library that is not installed too, and the references of a compat shim. -/
theorem skew_let_through :
    (Skew (oneObject "x.so" boundToA "1 T h@@V1") [['a']] ['p'] "x.so".toList fAtV1 ∧
      sourceBuiltSkewFindings (oneObject "x.so" boundToA "1 T h@@V1") [['p']] [['a']] = []) ∧
    (Skew (oneObject "x.so" boundToBoth "") [['a']] ['p'] "x.so".toList fAtV1 ∧
      sourceBuiltSkewFindings (oneObject "x.so" boundToBoth "") [['p']] [['a']] = []) ∧
    Skew (oneObject "libnsl.so.1" boundToA "1 T h@@V2") [['a']] ['p'] "libnsl.so.1".toList fAtV1 ∧
      sourceBuiltSkewFindings (oneObject "libnsl.so.1" boundToA "1 T h@@V2") [['p']] [['a']] =
        [] := by
  refine ⟨⟨skew_oneObject List.mem_cons_self ?_, ?_⟩, ⟨skew_oneObject List.mem_cons_self ?_, ?_⟩,
    skew_oneObject List.mem_cons_self ?_, ?_⟩ <;> decide

end Sysforge.Abi
