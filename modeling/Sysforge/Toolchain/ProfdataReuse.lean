import Sysforge.Pkgbuild.Parse

/-!
# Whether a saved profile fits

Two checks compare the version sidecar of the profile store with the version that a PKGBUILD
builds. `_resolve_pgo_state`, for a package build, reads the version off the first line that begins
with `pkgver=`; `check_existing_profdata`, for the toolchain stage, asks the parser. They agree
where the line has the major version of the parser, or the sidecar neither (`checks_agree_iff`).
-/

namespace Sysforge.Toolchain.ProfdataReuse

open Text Pkgbuild

/-- What reading a file gives. -/
inductive FileText
  | text (t : Text)
  | osError (e : Text)
  | undecodable (e : Text)

/-- The profile store: `clang.profdata` and the version sidecar, as far as they are there. -/
structure PgoStore where
  path : Text
  profdata : Bool
  version : Option FileText

/-- What a check returns, or raises. -/
inductive PgoState
  | ready (profdata : Text)
  | mismatch (reason : Text)
  | absent (reason : Text)
  | raised (e : Text)
  deriving DecidableEq

/-- The first item of what a check returns. -/
inductive Kind
  | ready
  | mismatch
  | absent
  | raised
  deriving DecidableEq

def PgoState.kind : PgoState → Kind
  | .ready _ => .ready
  | .mismatch _ => .mismatch
  | .absent _ => .absent
  | .raised _ => .raised

def PgoStore.profdataPath (store : PgoStore) : Text := store.path ++ "/clang.profdata".toList

def PgoStore.versionPath (store : PgoStore) : Text := store.path ++ "/clang.profdata.version".toList

/-- `pkgver.split(".")[0]`. -/
def majorOf (pkgver : Text) : Text := (split '.' pkgver).headD []

/-- The comparison with the saved major version. -/
def compareMajor (store : PgoStore) (saved target : Text) : PgoState :=
  if saved ≠ target then
    .mismatch ("profdata is from LLVM ".toList ++ saved ++ ", building LLVM ".toList ++ target)
  else .ready store.profdataPath

/-- What a target's major version comes to, when there is one. -/
def compareTarget (store : PgoStore) (saved unknown : Text) : Option Text → PgoState
  | none => .absent unknown
  | some target => compareMajor store saved target

/-- What both checks look at first; behind it the saved major version is known. -/
def withSaved (store : PgoStore) (k : Text → PgoState) : PgoState :=
  if !store.profdata then .absent ("no profdata at ".toList ++ store.profdataPath)
  else match store.version with
    | none =>
      .absent ("profdata version sidecar missing at ".toList ++ store.versionPath)
    | some (.text t) => k (strip t)
    | some (.osError e) => .raised e
    | some (.undecodable e) => .raised e

/-! ## A package build -/

/-- `"pkgver="`. -/
def pkgverHead : Text := ['p', 'k', 'g', 'v', 'e', 'r', '=']

/-- What `^pkgver=([^\s\n]+)` matches of a line. -/
def lineVersion (line : Text) : Option Text :=
  if pkgverHead.isPrefixOf line then
    let word := (line.drop pkgverHead.length).takeWhile fun c => !isSpace c
    if word ≠ [] then some word else none
  else none

/-- `re.search(r"^pkgver=([^\s\n]+)", content, re.MULTILINE)`, the group. -/
def searchPkgver (content : Text) : Option Text := (split '\n' content).findSome? lineVersion

/-- Reading `toolchain.toml`. -/
inductive ToolchainConf
  | missing
  | unreadable (e : Text)
  | loaded (store : PgoStore)

/-- `_resolve_pgo_state`. -/
def resolvePgoState (conf : ToolchainConf) (pkgbuild : FileText) : PgoState :=
  match conf with
  | .missing => .absent "toolchain.toml not found: no pgo_store configured".toList
  | .unreadable e => .absent ("cannot read toolchain.toml: ".toList ++ e)
  | .loaded store => withSaved store fun saved =>
    match pkgbuild with
    | .osError e => .absent ("cannot read PKGBUILD: ".toList ++ e)
    | .undecodable e => .raised e
    | .text content =>
      compareTarget store saved "cannot determine pkgver from PKGBUILD".toList
        ((searchPkgver content).map majorOf)

/-! ## The toolchain stage -/

/-- `"pkgver"`. -/
def pkgverKey : Text := ['p', 'k', 'g', 'v', 'e', 'r']

/-- A global that is a text and not empty; an array has no `split`. -/
def splittable : Option Global → Option Text
  | some (.scalar v) => if v ≠ [] then some v else none
  | _ => none

/-- `meta.get("globals", {}).get("pkgver", "")`, as far as it is used. -/
def parsedPkgver (alnum : Char → Bool) (content : Text) : Option Text :=
  splittable ((parsePkgbuild alnum content).globals.get pkgverKey)

/-- One turn of the loop of `check_existing_profdata`; a PKGBUILD that cannot be read is passed
over. -/
def targetMajor (alnum : Char → Bool) : FileText → Option Text
  | .text content => (parsedPkgver alnum content).map majorOf
  | _ => none

/-- `check_existing_profdata`. -/
def checkExistingProfdata (alnum : Char → Bool) (store : PgoStore)
    (pgoMap : List (Text × FileText)) : PgoState :=
  withSaved store fun saved =>
    compareTarget store saved "cannot determine target LLVM version from PKGBUILDs".toList
      (pgoMap.findSome? fun p => targetMajor alnum p.2)

/-! ## Where the two agree -/

variable {alnum : Char → Bool} {store : PgoStore} {saved a b content v w : Text}

theorem compareMajor_kind :
    (compareMajor store saved a).kind = if saved = a then .ready else .mismatch := by
  rw [compareMajor]
  by_cases h : saved = a
  · rw [if_neg (not_not.mpr h), if_pos h]
    rfl
  · rw [if_pos h, if_neg h]
    rfl

/-- Two versions compare alike with the saved one if they are the same, or neither is it. -/
theorem compareMajor_kind_eq :
    (compareMajor store saved a).kind = (compareMajor store saved b).kind ↔
      a = b ∨ saved ≠ a ∧ saved ≠ b := by
  rw [compareMajor_kind, compareMajor_kind]
  by_cases ha : saved = a <;> by_cases hb : saved = b
  · exact iff_of_true (by rw [if_pos ha, if_pos hb]) (.inl (ha.symm.trans hb))
  · refine iff_of_false ?_ fun h => h.elim (fun h => hb (ha.trans h)) fun h => h.1 ha
    rw [if_pos ha, if_neg hb]
    exact Kind.noConfusion
  · refine iff_of_false ?_ fun h => h.elim (fun h => ha (hb.trans h.symm)) fun h => h.2 hb
    rw [if_neg ha, if_pos hb]
    exact Kind.noConfusion
  · exact iff_of_true (by rw [if_neg ha, if_neg hb]) (.inr ⟨ha, hb⟩)

/-- The major versions that the line and the parser give, beside the saved one. -/
def MajorsFit (saved : Text) : Option Text → Option Text → Prop
  | none, none => True
  | some a, some b => a = b ∨ saved ≠ a ∧ saved ≠ b
  | _, _ => False

theorem compareTarget_kind_eq {unknown unknown' : Text} {o o' : Option Text} :
    (compareTarget store saved unknown o).kind = (compareTarget store saved unknown' o').kind ↔
      MajorsFit saved o o' := by
  cases o with
  | none =>
    cases o' with
    | none => exact iff_of_true rfl trivial
    | some b =>
      refine iff_of_false (fun h => ?_) id
      rw [compareTarget, compareTarget, compareMajor_kind] at h
      split_ifs at h <;> cases h
  | some a =>
    cases o' with
    | none =>
      refine iff_of_false (fun h => ?_) id
      rw [compareTarget, compareTarget, compareMajor_kind] at h
      split_ifs at h <;> cases h
    | some b => exact compareMajor_kind_eq

/-- The file is one for which the checks agree, given the saved major version. -/
def FileFits (alnum : Char → Bool) (saved : Text) : FileText → Prop
  | .text content =>
    MajorsFit saved ((searchPkgver content).map majorOf) ((parsedPkgver alnum content).map majorOf)
  | .osError _ => True
  | .undecodable _ => False

/-- The profile is there with a sidecar that can be read, and this is its major version. -/
def Saved (store : PgoStore) (saved : Text) : Prop :=
  store.profdata = true ∧ ∃ t, store.version = some (.text t) ∧ saved = strip t

/-- The first items agree for a saved version if they do behind what both look at first. -/
theorem withSaved_kind_eq {k k' : Text → PgoState} :
    (withSaved store k).kind = (withSaved store k').kind ↔
      ∀ saved, Saved store saved → (k saved).kind = (k' saved).kind := by
  rw [withSaved, withSaved]
  cases hp : store.profdata with
  | false =>
    refine iff_of_true rfl fun saved h => ?_
    rw [Saved, hp] at h
    cases h.1
  | true =>
    cases hv : store.version with
    | none =>
      refine iff_of_true rfl fun saved h => ?_
      obtain ⟨-, t, ht, -⟩ := h
      rw [hv] at ht
      cases ht
    | some f =>
      cases f with
      | text t =>
        constructor
        · rintro h saved ⟨-, t', ht, rfl⟩
          rw [hv] at ht
          cases ht
          exact h
        · exact fun h => h (strip t) ⟨hp, t, hv, rfl⟩
      | osError e =>
        refine iff_of_true rfl fun saved h => ?_
        obtain ⟨-, t, ht, -⟩ := h
        rw [hv] at ht
        cases ht
      | undecodable e =>
        refine iff_of_true rfl fun saved h => ?_
        obtain ⟨-, t, ht, -⟩ := h
        rw [hv] at ht
        cases ht

/-- A version that the parser's first assignment spells without a reference to a variable, and whose
major version stands as it is on the first `pkgver=` line, fits. -/
theorem fileFits_of_bare
    (harray : (extractArrays alnum (globalText alnum content)).get pkgverKey = none)
    (hfirst : firstScalar alnum (globalText alnum content) pkgverKey = some v) (hne : v ≠ [])
    (hv : '$' ∉ v) (hw : searchPkgver content = some w) (hmajor : majorOf w = majorOf v) :
    FileFits alnum saved (.text content) := by
  have hkey : pkgverKey ∉ archArrayFamilies := by
    simp [archArrayFamilies, dependsFamily, pkgverKey]
  have hparsed : parsedPkgver alnum content = some v :=
    (congrArg splittable (get_parsePkgbuild_plain hkey harray hfirst hv)).trans (if_pos hne)
  rw [FileFits, hparsed, hw]
  exact .inl hmajor

theorem majorOf_cons {c : Char} (hc : c ≠ '.') : majorOf (c :: w) = c :: majorOf w := by
  rw [majorOf, split, if_neg hc, majorOf]
  cases split '.' w <;> rfl

/-- A quoted version on the first `pkgver=` line never fits the version that the parser reads
without the quotation mark: a profile saved for that is reused by the toolchain stage and refused by
a package build. -/
theorem refused_of_quoted {quote : Char} (hquote : quote = '"' ∨ quote = '\'')
    (hw : searchPkgver content = some (quote :: w)) (hv : parsedPkgver alnum content = some v)
    (hhead : quote ∉ (majorOf v).head?) (hsaved : saved = majorOf v) :
    ¬ FileFits alnum saved (.text content) := by
  have hdot : quote ≠ '.' := by
    obtain rfl | rfl := hquote <;> decide
  have hne : majorOf (quote :: w) ≠ majorOf v := fun h => by
    rw [majorOf_cons hdot] at h
    rw [← h] at hhead
    exact hhead rfl
  rw [FileFits, hw, hv]
  exact fun h => h.elim hne fun h => h.2 hsaved

/-- A PKGBUILD with a quoted version. -/
def quotedPkgbuild : Text := "pkgver=\"21.1\"\n".toList

/-- A store with a profile of LLVM 21. -/
def llvm21 : PgoStore := ⟨"/pgo".toList, true, some (.text "21\n".toList)⟩

end Sysforge.Toolchain.ProfdataReuse
