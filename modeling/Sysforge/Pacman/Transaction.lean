import Sysforge.Pacman.PkgInfo

/-!
# `pacman -U`

The transaction of pacman: an installed package that conflicts with an incoming one is removed when
the question is answered so, and then no dependency may be missing. What pacman prints when it
refuses names the dependencies, one line each. Conflicts between incoming packages, which pacman
refuses, are left out.
-/

namespace Sysforge.Pacman

open Text

/-! ## Dependencies -/

/-- A comparison of versions. -/
inductive Op
  | eq
  | ge
  | le
  | gt
  | lt
  deriving DecidableEq

/-- What a comparison asks of the result of `vercmp`. -/
def Op.holds : Op → ℤ → Bool
  | .eq, n => n = 0
  | .ge, n => 0 ≤ n
  | .le, n => n ≤ 0
  | .gt, n => 0 < n
  | .lt, n => n < 0

/-- No comparison character. -/
def isNameChar (c : Char) : Bool := c ≠ '<' && c ≠ '>' && c ≠ '='

/-- The name of an entry. -/
def nameOf (entry : Text) : Text := entry.takeWhile isNameChar

/-- The constraint of an entry. -/
def constraintOf (entry : Text) : Option (Op × Text) :=
  match entry.dropWhile isNameChar with
  | '>' :: '=' :: v => some (.ge, v)
  | '<' :: '=' :: v => some (.le, v)
  | '=' :: v => some (.eq, v)
  | '>' :: v => some (.gt, v)
  | '<' :: v => some (.lt, v)
  | _ => none

/-- The answers and relaxations of a transaction. -/
structure Switches where
  /-- `--ask=4`. -/
  ask : Bool
  /-- `--nodeps`. -/
  nodeps : Bool

/-- How a transaction ends. -/
inductive Reply
  | done (after removed : List Package)
  | refused (output : Text)

section Transaction

variable (vercmp : Text → Text → ℤ)

/-- A version meets a constraint; without `strict` every one does. -/
def meetsVersion (strict : Bool) (version dep : Text) : Bool :=
  match constraintOf dep with
  | none => true
  | some (op, w) => !strict || op.holds (vercmp version w)

/-- A provided entry meets a dependency: one without a version no constraint. -/
def meetsProvide (strict : Bool) (prov dep : Text) : Bool :=
  nameOf prov = nameOf dep &&
    match constraintOf prov with
    | some (.eq, v) => meetsVersion vercmp strict v dep
    | _ => !strict || constraintOf dep = none

/-- A package satisfies a dependency, by its name or by what it provides. -/
def satisfies (strict : Bool) (p : Package) (dep : Text) : Bool :=
  (p.name = nameOf dep && meetsVersion vercmp strict p.version dep) ||
    p.provides.any fun prov => meetsProvide vercmp strict prov dep

/-- Some package satisfies a dependency. -/
def satisfied (strict : Bool) (ps : List Package) (dep : Text) : Bool :=
  ps.any fun p => satisfies vercmp strict p dep

/-- One of two packages declares a conflict with the other. -/
def inConflict (p q : Package) : Bool :=
  p.conflicts.any (satisfies vercmp true q) || q.conflicts.any (satisfies vercmp true p)

variable (installed files : List Package)

/-- The installed packages that are not upgraded. -/
def untouched : List Package := installed.filter fun q => files.all fun p => p.name ≠ q.name

/-- The installed packages that a conflict removes. -/
def removed : List Package :=
  (untouched installed files).filter fun q => files.any fun p => inConflict vercmp p q

/-- The installed packages that stay. -/
def kept : List Package :=
  (untouched installed files).filter fun q => files.all fun p => !inConflict vercmp p q

/-- The packages after the transaction. -/
def after : List Package := files ++ kept vercmp installed files

/-- The installed packages that are upgraded or removed. -/
def modified : List Package :=
  installed.filter fun q => files.any fun p => p.name = q.name || inConflict vercmp p q

/-- The dependencies of incoming packages that are missing. -/
def unmet (strict : Bool) : List (Text × Package) :=
  files.flatMap fun p =>
    (p.depends.filter fun dep => !satisfied vercmp strict (after vercmp installed files) dep).map
      fun dep => (dep, p)

/-- The dependencies of installed packages that are missing now, each with a package that satisfied
it. -/
def breaks (strict : Bool) : List (Package × Text × Package) :=
  (kept vercmp installed files).flatMap fun q =>
    (q.depends.filter fun dep =>
      !satisfied vercmp strict (after vercmp installed files) dep).flatMap fun dep =>
        (((modified vercmp installed files).find? fun c => satisfies vercmp strict c dep).map
          fun c => (c, dep, q)).toList

end Transaction

/-! ## What is printed -/

/-- `"breaks dependency "`. -/
def breaksDependency : Text :=
  ['b', 'r', 'e', 'a', 'k', 's', ' ', 'd', 'e', 'p', 'e', 'n', 'd', 'e', 'n', 'c', 'y', ' ']

/-- `" required by "`. -/
def requiredBy : Text := [' ', 'r', 'e', 'q', 'u', 'i', 'r', 'e', 'd', ' ', 'b', 'y', ' ']

/-- `":: unable to satisfy dependency "`. -/
def unableToSatisfy : Text :=
  [':', ':', ' ', 'u', 'n', 'a', 'b', 'l', 'e', ' ', 't', 'o', ' ', 's', 'a', 't', 'i', 's', 'f',
    'y', ' ', 'd', 'e', 'p', 'e', 'n', 'd', 'e', 'n', 'c', 'y', ' ']

/-- `":: installing "`. -/
def installing : Text := [':', ':', ' ', 'i', 'n', 's', 't', 'a', 'l', 'l', 'i', 'n', 'g', ' ']

/-- `":: removing "`. -/
def removing : Text := [':', ':', ' ', 'r', 'e', 'm', 'o', 'v', 'i', 'n', 'g', ' ']

/-- The header on the error stream. -/
def failedToPrepare : Text :=
  ['e', 'r', 'r', 'o', 'r', ':', ' ', 'f', 'a', 'i', 'l', 'e', 'd', ' ', 't', 'o', ' ', 'p', 'r',
    'e', 'p', 'a', 'r', 'e', ' ', 't', 'r', 'a', 'n', 's', 'a', 'c', 't', 'i', 'o', 'n', '\n']

/-- `'<dep>' required by <holder>`. -/
def heldLine (dep : Text) (holder : Package) : Text :=
  '\'' :: (dep ++ '\'' :: (requiredBy ++ (holder.name ++ ['\n'])))

/-- The line of a missing dependency of an incoming package. -/
def unmetLine (m : Text × Package) : Text := unableToSatisfy ++ heldLine m.1 m.2

/-- What a line about a broken dependency begins with. -/
def breaksLead (files : List Package) (cause : Package) : Text :=
  if files.any fun p => p.name = cause.name then
    installing ++ (cause.name ++ ([' ', '('] ++ (cause.version ++ [')', ' '])))
  else removing ++ (cause.name ++ [' '])

/-- The line of a dependency of an installed package that is missing now. -/
def breaksLine (files : List Package) (m : Package × Text × Package) : Text :=
  breaksLead files m.1 ++ (breaksDependency ++ heldLine m.2.1 m.2.2)

/-- The output of a transaction that misses dependencies. -/
def missingOutput (files : List Package) (unmet : List (Text × Package))
    (breaks : List (Package × Text × Package)) : Text :=
  unmet.flatMap unmetLine ++ (breaks.flatMap (breaksLine files) ++ failedToPrepare)

/-- `pacman -U`, with the packages that a conflict removes. -/
def transaction (vercmp : Text → Text → ℤ) (installed files : List Package) (sw : Switches) :
    Reply :=
  let unmet := unmet vercmp installed files !sw.nodeps
  let breaks := breaks vercmp installed files !sw.nodeps
  if removed vercmp installed files ≠ [] ∧ sw.ask = false then .refused failedToPrepare
  else if unmet = [] ∧ breaks = [] then
    .done (after vercmp installed files) (removed vercmp installed files)
  else .refused (missingOutput files unmet breaks)

end Sysforge.Pacman
