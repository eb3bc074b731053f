import Sysforge.Foundations.RegexScan
import Sysforge.Pacman.Transaction

/-!
# Installing a batch

`batch_install_pkgs` answers conflict questions when a file supersedes something that is installed,
and relaxes the dependency checks when a dry run names only holders that may break. The runs are
those that do not ask the operator.
-/

namespace Sysforge.Pacman

open Text Re

/-! ## The code -/

/-- `[^']`. -/
def notQuote (c : Char) : Bool := c ≠ '\''

/-- `_BREAKS_DEP_RE`, the dependency as its first group and the holder as its second. -/
def breaksDepRe : Re :=
  .seq (lit (breaksDependency ++ ['\''])) (.seq (.group 1 (plus (.char notQuote)))
    (.seq (lit ('\'' :: requiredBy)) (.group 2 (plus nonSpace))))

/-- The holders and dependencies in what pacman printed. -/
def brokenIn (output : Text) : List (Text × Text) :=
  (finditer breaksDepRe output).map fun m => (m.group output 2, m.group output 1)

/-- A file of the batch. -/
structure File where
  info : Package
  /-- `Path(p).exists()`. -/
  present : Bool
  /-- `bsdtar` answers. -/
  readable : Bool

/-- What a batch is installed on. -/
structure World where
  vercmp : Text → Text → ℤ
  installed : List Package
  pkgPaths : List File
  allowBreakDeps : List Text

/-- The files that are still there. -/
def remaining (w : World) : List File := w.pkgPaths.filter File.present

/-- The incoming packages. -/
def incoming (w : World) : List Package := (remaining w).map File.info

/-- `superseded`. -/
def superseded (w : World) : List Text :=
  (remaining w).flatMap fun f =>
    pkgSupersedesInstalled f.readable f.info (w.installed.map Package.name)

/-- `--ask=4` is passed. -/
def askFor (w : World) : Bool := superseded w ≠ []

/-- `deps_broken_by_install`. -/
def depsBrokenByInstall (w : World) : List (Text × Text) :=
  match transaction w.vercmp w.installed (incoming w) ⟨askFor w, false⟩ with
  | .done _ _ => []
  | .refused output => brokenIn output

/-- `--nodeps` is passed. -/
def nodepsFor (w : World) : Bool :=
  w.allowBreakDeps ≠ [] && (depsBrokenByInstall w ≠ [] &&
    (depsBrokenByInstall w).all fun b => b.1 ∈ w.allowBreakDeps)

/-- `batch_install_pkgs`: whether the batch is installed, and then the packages after it and those
that a conflict removed. -/
def batchInstallPkgs (w : World) : Option (List Package × List Package) :=
  if remaining w = [] then none
  else
    match transaction w.vercmp w.installed (incoming w) ⟨askFor w, nodepsFor w⟩ with
    | .done after removed => some (after, removed)
    | .refused _ => none

end Sysforge.Pacman
