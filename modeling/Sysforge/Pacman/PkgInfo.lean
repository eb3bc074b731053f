import Sysforge.Foundations.Lines

/-!
# What a package declares

The relations of a package in its `.PKGINFO`, the bare names that are read from them, and the
installed packages that a package says it replaces.
-/

namespace Sysforge.Pacman

open Text

/-- `_bare_name`: `re.split(r"[<>=]", dep, maxsplit=1)[0].strip()`. -/
def bareName (dep : Text) : Text := strip (dep.takeWhile fun c => c ≠ '<' && c ≠ '>' && c ≠ '=')

/-- A package, as a file or installed. -/
structure Package where
  name : Text
  version : Text
  depends : List Text
  conflicts : List Text
  provides : List Text
  replaces : List Text
  deriving DecidableEq

/-- `_read_pkginfo_names`, for the values of one key. -/
def readPkginfoNames (values : List Text) : List Text :=
  (values.map bareName).filter fun n => n ≠ []

/-- `supersedes_names`. -/
def supersedesNames (replaces conflicts provides : List Text) : List Text :=
  readPkginfoNames replaces ++
    (readPkginfoNames conflicts).filter fun n => n ∈ readPkginfoNames provides

/-- `pkg_supersedes_installed`; a file that cannot be read displaces nothing. -/
def pkgSupersedesInstalled (readable : Bool) (p : Package) (installed : List Text) : List Text :=
  if readable then
    ((supersedesNames (readPkginfoNames p.replaces) (readPkginfoNames p.conflicts)
      (readPkginfoNames p.provides)).filter fun n => n ∉ readPkginfoNames [p.name]).filter
        fun n => n ∈ installed
  else []

/-- A bare name has no comparison in it. -/
theorem bareName_plain (dep : Text) : ∀ c ∈ bareName dep, (c ≠ '<' && c ≠ '>' && c ≠ '=') = true :=
  fun _ hc => List.mem_takeWhile_imp (p := fun c => c ≠ '<' && c ≠ '>' && c ≠ '=') (strip_subset hc)

theorem bareName_bareName (dep : Text) : bareName (bareName dep) = bareName dep := by
  have hself : (bareName dep).takeWhile (fun c => c ≠ '<' && c ≠ '>' && c ≠ '=') = bareName dep :=
    List.takeWhile_eq_self_iff.mpr (bareName_plain dep)
  rw [bareName, hself, bareName, strip_strip]

end Sysforge.Pacman
