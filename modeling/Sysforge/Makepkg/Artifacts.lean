import Mathlib.Data.Char
import Mathlib.Data.List.Lex
import Mathlib.Data.List.Sort
import Mathlib.Data.List.TakeWhile
import Sysforge.Foundations.Glob
import Sysforge.Foundations.LineBreaks

/-!
# Built packages on disk

`find_artifacts` looks for the built files of packages by shell patterns, and
`_parse_built_pkg_filename` reads a version back from a file name. Both the exact and the newest
mode decode what the pattern found; the strict stage trusts it. A version comparison that fails is
left out.
-/

namespace Sysforge.Makepkg.Artifacts

open Text

/-! ## The code -/

/-- `".pkg.tar"`. -/
def pkgTar : Text := ['.', 'p', 'k', 'g', '.', 't', 'a', 'r']

/-- `".sig"`. -/
def sigExt : Text := ['.', 's', 'i', 'g']

/-- `p.name.endswith(".sig")`. -/
def isSig (file : Text) : Bool := sigExt.isSuffixOf file

/-- `_PKG_FILENAME_EXT` at the start of a text. -/
def extAt (s : Text) : Bool :=
  let rest := s.drop pkgTar.length
  pkgTar.isPrefixOf s && (rest = [] || rest = ['\n'] ||
    (rest.head? = some '.' && rest.tail ≠ [] && '.' ∉ rest.tail))

/-- `filename[:m.start()]` for the first match of `_PKG_FILENAME_EXT`. -/
def stem : Text → Option Text
  | [] => none
  | c :: s => if extAt (c :: s) then some [] else (stem s).map fun t => c :: t

/-- `_parse_built_pkg_filename`: `(epoch, pkgver, pkgrel)`. -/
def parseBuiltPkgFilename (pkgname filename : Text) : Option (Text × Text × Text) :=
  (stem filename).bind fun stem =>
    if (pkgname ++ ['-']).isPrefixOf stem then
      match split '-' (stem.drop (pkgname ++ ['-']).length) with
      | [verPart, pkgrel, _] =>
        let epoch := if ':' ∈ verPart then verPart.takeWhile fun c => c ≠ ':' else ['0']
        let ver := if ':' ∈ verPart then (verPart.dropWhile fun c => c ≠ ':').tail else verPart
        if ver = [] ∨ pkgrel = [] then none else some (epoch, ver, pkgrel)
      | _ => none
    else none

/-- `_version_string`. -/
def versionString (parsed : Text × Text × Text) : Text :=
  if parsed.1 ≠ ['0'] then parsed.1 ++ ':' :: (parsed.2.1 ++ '-' :: parsed.2.2)
  else parsed.2.1 ++ '-' :: parsed.2.2

/-- `Path(search_dir).glob(pattern)` in a directory without directories: a pattern of several
components finds nothing. -/
def glob (files : List Text) (pattern : Text) : List Text :=
  if '/' ∈ pattern then [] else files.filter fun f => fnmatch pattern f

/-- `f"{pkgname}-*.pkg.tar*"`. -/
def exactPattern (pkgname : Text) : Text := pkgname ++ (['-', '*'] ++ (pkgTar ++ ['*']))

/-- `f"{pkgname}-{pkgbuild_ver}-*.pkg.tar*"`. -/
def strictPattern (pkgname ver : Text) : Text :=
  pkgname ++ '-' :: (ver ++ (['-', '*'] ++ (pkgTar ++ ['*'])))

/-- `f"{pkgname}-*-*-*.pkg.tar*"`. -/
def newestPattern (pkgname : Text) : Text :=
  pkgname ++ (['-', '*', '-', '*', '-', '*'] ++ (pkgTar ++ ['*']))

section Find

variable (vercmp : Text → Text → ℤ) (files : List Text)

/-- The version a file of the package has. -/
def versionOf (pkgname file : Text) : Option Text :=
  (parseBuiltPkgFilename pkgname file).map versionString

/-- The file of exactly a version. -/
def findExact (pkgname ver : Text) : List Text :=
  (((glob files (exactPattern pkgname)).insertionSort (· ≤ ·)).find? fun f =>
    !isSig f && versionOf pkgname f = some ver).toList

/-- The strict stage. -/
def findStrict (pkgname ver : Text) : List Text :=
  (glob files (strictPattern pkgname ver)).filter fun f => !isSig f

/-- The candidates of the newest stage with their versions. -/
def candidates (pkgname : Text) (installedVer : Option Text) : List (Text × Text) :=
  (glob files (newestPattern pkgname)).filterMap fun f =>
    if isSig f then none
    else (versionOf pkgname f).bind fun ver =>
      if ∃ installed ∈ installedVer, vercmp ver installed ≤ 0 then none else some (ver, f)

/-- The newest stage. -/
def findNewest (pkgname : Text) (installedVer : Option Text) : List Text :=
  (((candidates vercmp files pkgname installedVer).insertionSort fun a b =>
    ¬vercmp b.1 a.1 < 0).getLast?.map Prod.snd).toList

/-- What `find_artifacts` finds for one name. -/
def findFor (pkgbuildVer installedVer exactVer : Option Text) (pkgname : Text) : List Text :=
  match exactVer with
  | some ver => findExact files pkgname ver
  | none =>
    match pkgbuildVer.filter (fun ver => ver ≠ []) with
    | none => findNewest vercmp files pkgname installedVer
    | some ver =>
      if findStrict files pkgname ver ≠ [] then findStrict files pkgname ver
      else findNewest vercmp files pkgname installedVer

/-- `find_artifacts`; `dir` is the content of the directory, if it is one. -/
def findArtifacts (dir : Option (List Text)) (pkgnames : List Text)
    (pkgbuildVer installedVer exactVer : Option Text) : List Text :=
  match dir with
  | none => []
  | some files => pkgnames.flatMap (findFor vercmp files pkgbuildVer installedVer exactVer)

end Find

/-! ## The files of packages -/

/-- A package name over pacman's alphabet. -/
structure PkgName where
  text : Text
  ne_nil : text ≠ []
  chars : ∀ c ∈ text, c.isAlphanum ∨ c ∈ ['@', '.', '_', '+', '-']
  head : text.head? ≠ some '-' ∧ text.head? ≠ some '.'

/-- A version, a release or an architecture. -/
structure IsField (t : Text) : Prop where
  ne_nil : t ≠ []
  hyphen : '-' ∉ t
  colon : ':' ∉ t
  slash : '/' ∉ t

/-- A compression suffix. -/
structure IsExt (t : Text) : Prop where
  ne_nil : t ≠ []
  dot : '.' ∉ t
  ne_sig : t ≠ ['s', 'i', 'g']

/-- A built package. -/
structure Artifact where
  name : PkgName
  epoch : Option Text
  ver : Text
  rel : Text
  arch : Text
  ext : Option Text
  epoch_digits : ∀ e ∈ epoch, e ≠ [] ∧ ∀ c ∈ e, c.isDigit
  ver_field : IsField ver
  rel_field : IsField rel
  arch_field : IsField arch
  ext_ok : ∀ e ∈ ext, IsExt e

namespace Artifact

/-- `[epoch:]ver`. -/
def fullVer (a : Artifact) : Text :=
  match a.epoch with
  | none => a.ver
  | some e => e ++ ':' :: a.ver

/-- The version that the file name encodes. -/
def version (a : Artifact) : Text := a.fullVer ++ '-' :: a.rel

/-- `<name>-[epoch:]<ver>-<rel>-<arch>`. -/
def stemText (a : Artifact) : Text :=
  a.name.text ++ '-' :: (a.fullVer ++ '-' :: (a.rel ++ '-' :: a.arch))

/-- `.pkg.tar[.ext]`. -/
def extText (a : Artifact) : Text :=
  match a.ext with
  | none => pkgTar
  | some e => pkgTar ++ '.' :: e

/-- The file name. -/
def filename (a : Artifact) : Text := a.stemText ++ a.extText

end Artifact

/-- A directory of built packages and of signatures. -/
abbrev PkgDir := List (Artifact × Bool)

/-- The file of an artifact, or of its signature. -/
def entryName (e : Artifact × Bool) : Text := if e.2 then e.1.filename ++ sigExt else e.1.filename

/-- The names in the directory. -/
def fileNames (dir : PkgDir) : List Text := dir.map entryName

/-! ## The property -/

section Property

variable (vercmp : Text → Text → ℤ) (dir : PkgDir)

/-- `vercmp` orders the versions, equal ones included. -/
structure VersionOrder (vercmp : Text → Text → ℤ) : Prop where
  total : ∀ a b, vercmp a b ≤ 0 ∨ vercmp b a ≤ 0
  trans : ∀ a b c, vercmp a b ≤ 0 → vercmp b c ≤ 0 → vercmp a c ≤ 0
  swap : ∀ a b, vercmp a b < 0 ↔ 0 < vercmp b a

/-- No artifact of the name is newer, and the installed version is older. -/
structure IsNewest (installedVer : Option Text) (a : Artifact) : Prop where
  newest : ∀ b, (b, false) ∈ dir → b.name.text = a.name.text → vercmp b.version a.version ≤ 0
  newer : ∀ installed ∈ installedVer, 0 < vercmp a.version installed

/-- An artifact as the mode of the lookup wants it. -/
def Wanted (pkgbuildVer installedVer exactVer : Option Text) (a : Artifact) : Prop :=
  match exactVer with
  | some ver => a.version = ver
  | none =>
    match pkgbuildVer.filter (fun ver => ver ≠ []) with
    | none => IsNewest vercmp dir installedVer a
    | some ver =>
      if findStrict (fileNames dir) a.name.text ver ≠ [] then a.version = ver
      else IsNewest vercmp dir installedVer a

/-- The lookup finds for each name its own wanted artifacts only, and each artifact is read back as
the version that its file name encodes. -/
structure Correct (pkgnames : List PkgName) (pkgbuildVer installedVer exactVer : Option Text) :
    Prop where
  found : ∀ n ∈ pkgnames, ∀ path ∈ findArtifacts vercmp (some (fileNames dir)) [n.text]
    pkgbuildVer installedVer exactVer, ∃ a, (a, false) ∈ dir ∧ a.filename = path ∧
      a.name.text = n.text ∧ Wanted vercmp dir pkgbuildVer installedVer exactVer a
  decoded : ∀ a, (a, false) ∈ dir → versionOf a.name.text a.filename = some a.version

/-- No epoch is written as `0`, and where the strict stage is in use its pattern takes artifacts of
the name at the version only. -/
structure Separated (pkgnames : List PkgName) (pkgbuildVer exactVer : Option Text) : Prop where
  epochs : ∀ a, (a, false) ∈ dir → a.epoch ≠ some ['0']
  strict : exactVer = none → ∀ ver ∈ pkgbuildVer, ver ≠ [] → '/' ∉ ver → ∀ n ∈ pkgnames,
    ∀ a, (a, false) ∈ dir → fnmatch (strictPattern n.text ver) a.filename = true →
      a.name.text = n.text ∧ a.version = ver

end Property

/-! ## Reading a file name -/

section Reading

variable {s t : Text} {a : Artifact}

theorem split_pkgTar : split '.' pkgTar = [[], ['p', 'k', 'g'], ['t', 'a', 'r']] := by decide

/-- An extension splits at its two or three dots. -/
theorem split_of_extAt (h : extAt s = true) :
    (∃ l, split '.' s = [[], ['p', 'k', 'g'], l]) ∨
      ∃ m, split '.' s = [[], ['p', 'k', 'g'], ['t', 'a', 'r'], m] := by
  rw [extAt, Bool.and_eq_true, List.isPrefixOf_iff_prefix] at h
  obtain ⟨⟨rest, rfl⟩, h⟩ := h
  rw [List.drop_left, Bool.or_eq_true, Bool.or_eq_true, Bool.and_eq_true, Bool.and_eq_true] at h
  rcases h with (h | h) | ⟨⟨h, -⟩, hdot⟩
  · rw [of_decide_eq_true h, List.append_nil]
    exact .inl ⟨_, split_pkgTar⟩
  · rw [of_decide_eq_true h]
    exact .inl ⟨['t', 'a', 'r', '\n'], by decide⟩
  · obtain ⟨y, rfl⟩ := List.head?_eq_some_iff.mp (of_decide_eq_true h)
    have hy : split '.' y = [y] := split_of_notMem (of_decide_eq_true hdot)
    rw [split_append_sep, split_pkgTar, hy]
    exact .inr ⟨y, rfl⟩

/-- No extension begins before the last one. -/
theorem extAt_before {e : Text} (he : split '.' e = [['p', 'k', 'g'], ['t', 'a', 'r']] ∨
    ∃ x, split '.' e = [['p', 'k', 'g'], ['t', 'a', 'r'], x]) (ht : t ≠ []) :
    extAt (t ++ '.' :: e) = false := by
  rw [Bool.eq_false_iff]
  intro h
  have hfield : split '.' t ≠ [[]] := fun hfield => ht (split_inj.mp hfield)
  have hsplit := split_of_extAt h
  rw [split_append_sep] at hsplit
  rcases he with he | ⟨x, he⟩ <;> rw [he] at hsplit
  · rcases hsplit with ⟨l, hl⟩ | ⟨m, hm⟩
    · have happ : split '.' t ++ [['p', 'k', 'g'], ['t', 'a', 'r']] =
          [[]] ++ [['p', 'k', 'g'], l] := hl
      exact hfield (List.append_inj' happ rfl).1
    · have happ : split '.' t ++ [['p', 'k', 'g'], ['t', 'a', 'r']] =
          [[], ['p', 'k', 'g']] ++ [['t', 'a', 'r'], m] := hm
      exact absurd (List.cons.inj (List.append_inj' happ rfl).2).1 (by decide)
  · rcases hsplit with ⟨l, hl⟩ | ⟨m, hm⟩
    · have happ : split '.' t ++ [['p', 'k', 'g'], ['t', 'a', 'r'], x] =
          [] ++ [[], ['p', 'k', 'g'], l] := hl
      exact split_ne_nil '.' t (List.append_inj' happ rfl).1
    · have happ : split '.' t ++ [['p', 'k', 'g'], ['t', 'a', 'r'], x] =
          [[]] ++ [['p', 'k', 'g'], ['t', 'a', 'r'], m] := hm
      exact hfield (List.append_inj' happ rfl).1

theorem stem_append {e : Text} (he : split '.' e = [['p', 'k', 'g'], ['t', 'a', 'r']] ∨
    ∃ x, split '.' e = [['p', 'k', 'g'], ['t', 'a', 'r'], x]) (hext : extAt ('.' :: e) = true)
    (t : Text) : stem (t ++ '.' :: e) = some t := by
  induction t with
  | nil => rw [List.nil_append, stem, if_pos hext]
  | cons c t ih =>
    have hnot := extAt_before he (List.cons_ne_nil c t)
    rw [List.cons_append] at hnot ⊢
    rw [stem, if_neg (ne_true_of_eq_false hnot), ih]
    rfl

theorem stem_filename (a : Artifact) : stem a.filename = some a.stemText := by
  have htail : split '.' pkgTar.tail = [['p', 'k', 'g'], ['t', 'a', 'r']] := by decide
  unfold Artifact.filename Artifact.extText
  cases hext : a.ext with
  | none => exact stem_append (.inl htail) (by decide) a.stemText
  | some e =>
    obtain ⟨hne, hdot, -⟩ := a.ext_ok e hext
    have hfields : split '.' (pkgTar.tail ++ '.' :: e) = [['p', 'k', 'g'], ['t', 'a', 'r'], e] := by
      rw [split_append_sep, htail, split_of_notMem hdot]
      rfl
    refine stem_append (.inr ⟨e, hfields⟩) ?_ a.stemText
    rw [extAt, Bool.and_eq_true]
    refine ⟨List.isPrefixOf_iff_prefix.mpr (List.prefix_append pkgTar ('.' :: e)), ?_⟩
    rw [show ('.' :: (pkgTar.tail ++ '.' :: e)).drop pkgTar.length = '.' :: e from rfl,
      List.head?_cons, List.tail_cons, decide_eq_true hne, decide_eq_true hdot]
    simp

/-- What `_parse_built_pkg_filename` finds in the file of a package. -/
def Artifact.parsed (a : Artifact) : Text × Text × Text := (a.epoch.getD ['0'], a.ver, a.rel)

theorem Artifact.hyphen_notMem_fullVer (a : Artifact) : '-' ∉ a.fullVer := by
  unfold Artifact.fullVer
  cases he : a.epoch with
  | none => exact a.ver_field.hyphen
  | some e =>
    intro h
    rcases List.mem_append.mp h with h | h
    · exact absurd ((a.epoch_digits e he).2 _ h) (by decide)
    · rcases List.mem_cons.mp h with h | h
      · exact absurd h (by decide)
      · exact a.ver_field.hyphen h

theorem split_fields (a : Artifact) :
    split '-' (a.fullVer ++ '-' :: (a.rel ++ '-' :: a.arch)) = [a.fullVer, a.rel, a.arch] := by
  rw [split_append a.hyphen_notMem_fullVer, split_append a.rel_field.hyphen,
    split_of_notMem a.arch_field.hyphen]

/-- The name is what stands before the last three fields. -/
theorem prefix_stemText {n : Text} (h : n ++ ['-'] <+: a.stemText)
    (hthree : (split '-' (a.stemText.drop (n ++ ['-']).length)).length = 3) : n = a.name.text := by
  obtain ⟨rest, hrest⟩ := h
  rw [← hrest, List.drop_left] at hthree
  obtain ⟨x, y, z, hxyz⟩ := List.length_eq_three.mp hthree
  have hsplit := congrArg (split '-') hrest
  rw [List.append_assoc, List.singleton_append, Artifact.stemText, split_append_sep,
    split_append_sep, split_fields, hxyz] at hsplit
  exact split_inj.mp (List.append_inj' hsplit rfl).1

/-- **The file of a package is read as its own**, and as no other one's. -/
theorem parse_filename (n : Text) (a : Artifact) : parseBuiltPkgFilename n a.filename =
    if n = a.name.text then some a.parsed else none := by
  have hstem : a.stemText = (a.name.text ++ ['-']) ++
      (a.fullVer ++ '-' :: (a.rel ++ '-' :: a.arch)) := List.append_cons _ _ _
  rw [parseBuiltPkgFilename, stem_filename, Option.bind_some]
  split_ifs with hpre hn hn
  · have hdrop : a.stemText.drop (n ++ ['-']).length =
        a.fullVer ++ '-' :: (a.rel ++ '-' :: a.arch) := by
      rw [hn, hstem, List.drop_left]
    rw [hdrop, split_fields]
    dsimp only
    unfold Artifact.parsed Artifact.fullVer
    cases he : a.epoch with
    | none =>
      dsimp only
      rw [if_neg a.ver_field.colon, if_neg a.ver_field.colon, if_neg]
      · rfl
      · exact not_or.mpr ⟨a.ver_field.ne_nil, a.rel_field.ne_nil⟩
    | some e =>
      have hcolon : ∀ c ∈ e, (c ≠ ':' : Bool) = true := by
        intro c hc
        refine decide_eq_true fun h => ?_
        rw [h] at hc
        exact absurd ((a.epoch_digits e he).2 _ hc) (by decide)
      have hmem : ':' ∈ e ++ ':' :: a.ver := List.mem_append_right e List.mem_cons_self
      dsimp only
      rw [if_pos hmem, if_pos hmem, List.takeWhile_append_of_pos hcolon,
        List.dropWhile_append_of_pos hcolon, List.takeWhile_cons_of_neg (by decide),
        List.dropWhile_cons_of_neg (by decide), List.tail_cons, List.append_nil, if_neg]
      · rfl
      · exact not_or.mpr ⟨a.ver_field.ne_nil, a.rel_field.ne_nil⟩
  · split
    · next x y z hsplit =>
      have hthree := congrArg List.length hsplit
      exact absurd (prefix_stemText (List.isPrefixOf_iff_prefix.mp hpre) hthree) hn
    · rfl
  · refine absurd (List.isPrefixOf_iff_prefix.mpr ?_) hpre
    rw [hn, hstem]
    exact List.prefix_append _ _
  · rfl

/-- An epoch is printed unless it is `0`. -/
theorem versionString_parsed (a : Artifact) :
    versionString a.parsed = a.version ↔ a.epoch ≠ some ['0'] := by
  unfold versionString Artifact.parsed Artifact.version Artifact.fullVer
  cases he : a.epoch with
  | none => exact iff_of_true rfl (Option.some_ne_none _).symm
  | some e =>
    rw [Option.getD_some]
    dsimp only
    split_ifs with hz
    · refine iff_of_true ?_ fun h => hz (Option.some.inj h)
      rw [List.append_assoc, List.cons_append]
    · rw [ne_eq, Decidable.not_not] at hz
      refine iff_of_false (fun h => ?_) fun h => h (congrArg some hz)
      have hlen := congrArg List.length h
      simp only [List.length_append, List.length_cons] at hlen
      omega

theorem versionOf_filename (h : a.epoch ≠ some ['0']) (n : Text) :
    versionOf n a.filename = if n = a.name.text then some a.version else none := by
  rw [versionOf, parse_filename]
  split_ifs
  · rw [Option.map_some, (versionString_parsed a).mpr h]
  · rfl

theorem isSig_filename (a : Artifact) : isSig a.filename = false := by
  rw [Bool.eq_false_iff]
  intro h
  obtain ⟨x, hx⟩ := List.isSuffixOf_iff_suffix.mp h
  have hsplit := congrArg (split '.') hx
  have hsig : split '.' (x ++ sigExt) = split '.' x ++ [['s', 'i', 'g']] := split_append_sep '.' x _
  rw [hsig] at hsplit
  unfold Artifact.filename Artifact.extText at hsplit
  cases hext : a.ext with
  | none =>
    rw [hext] at hsplit
    have htar : split '.' (a.stemText ++ pkgTar) =
        (split '.' a.stemText ++ [['p', 'k', 'g']]) ++ [['t', 'a', 'r']] := by
      rw [List.append_assoc]
      exact split_append_sep '.' a.stemText _
    rw [htar] at hsplit
    exact absurd (List.cons.inj (List.append_inj' hsplit rfl).2).1 (by decide)
  | some e =>
    obtain ⟨-, hdot, hne⟩ := a.ext_ok e hext
    rw [hext] at hsplit
    dsimp only at hsplit
    rw [← List.append_assoc, split_append_sep, split_of_notMem hdot] at hsplit
    exact hne (List.cons.inj (List.append_inj' hsplit rfl).2).1.symm

theorem isSig_sig (a : Artifact) : isSig (a.filename ++ sigExt) = true :=
  List.isSuffixOf_iff_suffix.mpr (List.suffix_append _ _)

/-- The files that are no signatures are the artifacts. -/
theorem mem_fileNames {dir : PkgDir} {f : Text} :
    f ∈ fileNames dir ∧ isSig f = false ↔ ∃ a, (a, false) ∈ dir ∧ a.filename = f := by
  constructor
  · rintro ⟨hf, hsig⟩
    obtain ⟨⟨a, sig⟩, he, rfl⟩ := List.mem_map.mp hf
    cases sig with
    | false => exact ⟨a, he, rfl⟩
    | true => exact absurd ((isSig_sig a).symm.trans hsig) (by decide)
  · rintro ⟨a, ha, rfl⟩
    exact ⟨List.mem_map.mpr ⟨(a, false), ha, rfl⟩, isSig_filename a⟩

end Reading

end Sysforge.Makepkg.Artifacts
