import Mathlib.Data.List.MinMax
import Sysforge.Foundations.Dict
import Sysforge.Foundations.Lines

/-!
# The cache of the final toolchain pass

A pass builds the PKGBUILDs of its map in turn. After each build it records, for every name of the
map that the PKGBUILD has, the newest artifact of the name in the searched directories; a later pass
skips a PKGBUILD whose entry has the same fingerprint and whose recorded artifacts are all still
there, unchanged. What is then staged for a name is again the newest artifact of the name, whoever
wrote it.

The files carry, beside what the code reads of them, the build that wrote them.
-/

namespace Sysforge.Toolchain

/-- A file name in a directory. -/
abbrev Location := String × String

/-- Who wrote an artifact: the package it holds, and the fingerprint of a build of the pass. -/
structure Writer where
  pkgname : String
  fingerprint : Option String
  deriving DecidableEq

/-- An artifact on disk. -/
structure ArtifactFile where
  size : ℕ
  mtime : ℕ
  writer : Writer

/-- An artifact that the cache records. -/
structure Artifact where
  pkgname : String
  artifact : Location
  mtime : ℕ
  size : ℕ

/-- An entry of the cache. -/
structure CacheEntry where
  fingerprint : String
  artifacts : List Artifact

/-- The directories, the time of the next write, and the cache. -/
structure Shelf where
  files : Dict Location ArtifactFile := .empty
  clock : ℕ := 0
  cache : Dict String CacheEntry := .empty

/-! ## The newest artifact -/

/-- `{pkgname}-[0-9]*-*.pkg.tar*` matches the file name, which is not that of a signature. -/
def isArtifactOf (pkgname file : String) : Bool :=
  let opening := (pkgname ++ "-").toList
  let rest := file.toList.drop opening.length
  opening.isPrefixOf file.toList && (rest.head?.any fun c => '0' ≤ c && c ≤ '9') &&
    Text.contains ".pkg.tar".toList (rest.drop 1 |>.dropWhile (· ≠ '-') |>.drop 1) &&
    !".sig".toList.isSuffixOf file.toList

/-- A directory has an artifact of the name. -/
def holds (s : Shelf) (pkgname d : String) : Bool :=
  s.files.items.any fun q => q.1.1 = d && isArtifactOf pkgname q.1.2

/-- The newest artifact of the name in a directory. -/
def newestIn (s : Shelf) (pkgname d : String) : Option Location :=
  ((s.files.items.filter fun q => q.1.1 = d && isArtifactOf pkgname q.1.2).argmax
    fun q => q.2.mtime).map Prod.fst

/-- `_newest_artifact`. -/
def newestArtifact (s : Shelf) (searchDirs : List String) (pkgname : String) : Option Location :=
  searchDirs.findSome? (newestIn s pkgname)

/-! ## The cache -/

/-- `cache_key`. -/
def cacheKey (passId pkgbase : String) : String := passId ++ "\x00" ++ pkgbase

/-- What `record_build` records of a name. -/
def recordOf (s : Shelf) (searchDirs : List String) (pkgname : String) : Option Artifact :=
  (newestArtifact s searchDirs pkgname).bind fun art =>
    (s.files.get art).map fun f => ⟨pkgname, art, f.mtime, f.size⟩

/-- `record_build`. -/
def recordBuild (s : Shelf) (key fingerprint : String) (searchDirs pkgnames : List String) :
    Shelf :=
  let entries := pkgnames.filterMap (recordOf s searchDirs)
  if entries = [] then s
  else { s with cache := s.cache.set key ⟨fingerprint, entries⟩ }

/-- The recorded artifact is still there, unchanged. -/
def present (s : Shelf) (a : Artifact) : Bool :=
  (s.files.get a.artifact).any fun f => f.mtime = a.mtime && f.size = a.size

/-- `cache_hit`. -/
def cacheHit (s : Shelf) (key fingerprint : String) : Option (List Location) :=
  match s.cache.get key with
  | none => none
  | some entry =>
    if entry.fingerprint ≠ fingerprint ∨ entry.artifacts = [] then none
    else if entry.artifacts.all (present s) then some (entry.artifacts.map Artifact.artifact)
    else none

/-! ## The pass -/

/-- A pass over a map from names to the directories of their PKGBUILDs. -/
structure Pass where
  passId : String
  pkgbuildMap : Dict String String
  pkgdest : Option String
  consult : Bool
  /-- `pkg_fingerprint`: the pkgbase and the fingerprint of a name's PKGBUILD -/
  pkgFingerprint : String → String → String × String

/-- A file that makepkg writes. -/
structure Output where
  path : Location
  size : ℕ
  pkgname : String

/-- The makepkg run for a PKGBUILD: what it writes, and whether the build goes on to its end,
installation included. -/
structure MakepkgRun where
  outputs : List Output
  ok : Bool := true

/-- A file is written. -/
def Shelf.write (fingerprint : Option String) (s : Shelf) (o : Output) : Shelf :=
  { s with
    files := s.files.set o.path ⟨o.size, s.clock, ⟨o.pkgname, fingerprint⟩⟩
    clock := s.clock + 1 }

/-- The files of a makepkg run are written. -/
def Shelf.writeAll (s : Shelf) (fingerprint : Option String) (outs : List Output) : Shelf :=
  outs.foldl (Shelf.write fingerprint) s

/-- The turn of a pass for a name whose directory the pass has not seen. -/
structure Turn extends Pass where
  name : String
  pkgDir : String
  mem : pkgbuildMap.get name = some pkgDir

namespace Turn

variable (t : Turn)

/-- The names that share the PKGBUILD. -/
def members : List String := (t.pkgbuildMap.items.filter fun q => q.2 = t.pkgDir).map Prod.fst

/-- The directories that are searched for its artifacts. -/
def searchDirs : List String := t.pkgdest.toList ++ [t.pkgDir]

def fp : String := (t.pkgFingerprint t.name t.pkgDir).2

def key : String := cacheKey t.passId (t.pkgFingerprint t.name t.pkgDir).1

/-- `build_pass` skips the PKGBUILD. -/
def skips (s : Shelf) : Bool := t.consult && (cacheHit s t.key t.fp).isSome

/-- The body of the loop of `build_pass`. -/
def build (s : Shelf) (m : MakepkgRun) : Shelf :=
  if t.skips s then s
  else if m.ok then
    recordBuild (s.writeAll (some t.fp) m.outputs) t.key t.fp t.searchDirs t.members
  else s.writeAll (some t.fp) m.outputs

end Turn

/-- What `extract_built_to_staging` extracts for a name, or the error it raises. -/
def stagedArtifact (s : Shelf) (pkgdest : Option String) (name buildDir : String) :
    Except String Location :=
  let searchDirs := pkgdest.toList ++ [buildDir]
  match newestArtifact s searchDirs name with
  | some pkg => .ok pkg
  | none => .error ("[TOOLCHAIN] No .pkg.tar* found for '" ++ name ++ "' in: " ++
      ", ".intercalate searchDirs ++ ". Pass 3 build may have failed.")

/-- `extract_built_to_staging`. -/
def extractBuiltToStaging (s : Shelf) (pkgdest : Option String) (pkgbuildMap : Dict String String) :
    Except String (List Location) :=
  pkgbuildMap.items.mapM fun q => stagedArtifact s pkgdest q.1 q.2

/-! ## What the newest artifact is -/

variable {s : Shelf} {n d : String} {p : Location}

theorem holds_iff :
    holds s n d = true ↔
      ∃ p f, s.files.get p = some f ∧ p.1 = d ∧ isArtifactOf n p.2 = true := by
  simp only [holds, List.any_eq_true, Bool.and_eq_true, decide_eq_true_eq, Prod.exists,
    Dict.mem_items]

theorem newestIn_isSome : (newestIn s n d).isSome = holds s n d := by
  rw [newestIn, Option.isSome_map, Bool.eq_iff_iff, Option.isSome_iff_ne_none, ne_eq,
    List.argmax_eq_none, List.filter_eq_nil_iff, holds, List.any_eq_true]
  push Not
  rfl

/-- The newest artifact in a directory is one of the name there, and none is newer. -/
theorem newestIn_eq_some (h : newestIn s n d = some p) :
    p.1 = d ∧ isArtifactOf n p.2 = true ∧ ∃ f, s.files.get p = some f ∧
      ∀ p' f', s.files.get p' = some f' → p'.1 = d → isArtifactOf n p'.2 = true →
        f'.mtime ≤ f.mtime := by
  obtain ⟨q, hq, rfl⟩ := Option.map_eq_some_iff.mp h
  obtain ⟨hmem, hp⟩ := List.mem_filter.mp (List.argmax_mem hq)
  rw [Bool.and_eq_true, decide_eq_true_eq] at hp
  refine ⟨hp.1, hp.2, q.2, Dict.mem_items.mp hmem, fun p' f' hf' hd' ha' => ?_⟩
  refine List.le_of_mem_argmax (a := (p', f')) (List.mem_filter.mpr ⟨Dict.mem_items.mpr hf', ?_⟩) hq
  rw [Bool.and_eq_true, decide_eq_true_eq]
  exact ⟨hd', ha'⟩

/-- The search stops at the first directory that has an artifact of the name. -/
theorem newestArtifact_eq {dirs : List String} (h : dirs.find? (holds s n) = some d) :
    newestArtifact s dirs n = newestIn s n d := by
  induction dirs with
  | nil => exact absurd h (by simp only [List.find?_nil, reduceCtorEq, not_false_eq_true])
  | cons e dirs ih =>
    rw [newestArtifact, List.findSome?_cons]
    by_cases he : holds s n e = true
    · obtain rfl : e = d := by rwa [List.find?_cons_of_pos he, Option.some.injEq] at h
      obtain ⟨p, hp⟩ := Option.isSome_iff_exists.mp (newestIn_isSome.trans he)
      rw [hp]
    · have hnone : newestIn s n e = none := by
        rwa [← Option.not_isSome_iff_eq_none, newestIn_isSome]
      rw [List.find?_cons_of_neg he] at h
      rw [hnone]
      exact ih h

end Sysforge.Toolchain
