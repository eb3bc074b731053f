import Mathlib.Data.List.Dedup
import Mathlib.Data.List.Sort
import Sysforge.State.BuildState

/-!
# The opt-out record

`opted-out.toml` holds a record for each stock pkgbase that the user reverted or forgot, with the
package names the decision covers. `forget_packages` drops the build records of packages and writes
the decision; an explicit adoption clears every record that covers a name it gives. The file is
handled as the table it holds.
-/

namespace Sysforge.OptOut

/-- A record of the file. -/
structure Row where
  via : String
  at' : String
  pkgnames : List String
  deriving DecidableEq

/-- The records by pkgbase. -/
abbrev Rows := Dict String Row

/-- `sorted(set(names))`. -/
def sortedSet (names : List String) : List String := names.dedup.insertionSort (· ≤ ·)

/-- `load`. -/
def load (file : Rows) : Rows :=
  file.map fun pkgbase row =>
    { row with pkgnames := sortedSet (row.pkgnames.filter (· ≠ "") ++ [pkgbase]) }

/-- `add`. -/
def add (file : Rows) (pkgbase : String) (pkgnames : List String) (via now : String) : Rows :=
  let entries := load file
  let prior := ((entries.get pkgbase).map (·.pkgnames)).getD []
  entries.set pkgbase
    ⟨via, now, sortedSet (prior ++ pkgnames.filter (· ≠ "") ++ [pkgbase])⟩

/-- The pkgbases that `clear` returns. -/
def cleared (file : Rows) (names : List String) : List String :=
  (((load file).items.filter fun p => p.2.pkgnames.any (· ∈ names)).map
    Prod.fst).insertionSort (· ≤ ·)

/-- `clear`: the file is written only when something was cleared. -/
def clear (file : Rows) (names : List String) : Rows :=
  if cleared file names = [] then file
  else (cleared file names).foldl (fun d b => d.erase b) (load file)

/-- `covering`. -/
def covering (entries : Rows) (name : String) : Option String :=
  (entries.items.find? fun p => name ∈ p.2.pkgnames).map Prod.fst

/-! ## Forgetting packages -/

/-- A name without the `-sysforge` suffix of a renamed package. -/
def stockName (name : String) : String :=
  if "-sysforge".toList.isSuffixOf name.toList then
    String.ofList (name.toList.take (name.toList.length - "-sysforge".toList.length))
  else name

/-- `a or b`. -/
def orElse (a : Option String) (b : String) : String := (a.filter (· ≠ "")).getD b

/-- The stock pkgbase of a package's entry. -/
def stockBase (pn : String) (e : BuildState.Entry) : String :=
  stockName (orElse e.originPkgbase (orElse e.pkgbase pn))

/-- The packages a requested name forgets: its own and, for a pkgbase, every member. -/
def forgetTargets (allPkgs : Dict String BuildState.Entry) (name : String) : List String :=
  sortedSet (allPkgs.keys.filter fun pn =>
    pn = name || (allPkgs.get pn).any fun e => e.pkgbase = some name)

/-- The loop of `forget_packages`. -/
structure Forgotten where
  bs : BuildState
  forgotten : List String
  missing : List String

/-- One requested name. -/
def forgetName (allPkgs : Dict String BuildState.Entry) (s : Forgotten) (name : String) :
    Forgotten :=
  match forgetTargets allPkgs name with
  | [] => { s with missing := s.missing ++ [name] }
  | targets => targets.foldl (fun s pn =>
      { s with
        bs := s.bs.delete pn
        forgotten := if pn ∈ s.bs.data.keys then s.forgotten ++ [pn] else s.forgotten }) s

/-- All requested names. -/
def forgetNames (bs : BuildState) (pkgnames : List String) : Forgotten :=
  pkgnames.foldl (forgetName bs.data) ⟨bs, [], []⟩

/-- The pkgbases of an entry that are not empty. -/
def bases (e : BuildState.Entry) : List String :=
  (e.pkgbase.toList ++ e.originPkgbase.toList).filter (· ≠ "")

/-- `_clear_untracked_failures`: the state, and the pkgbases whose failure it cleared. -/
def clearUntrackedFailures (bs : BuildState) (pkgbases : List String) :
    BuildState × List String :=
  let owned := bs.data.keys ++ bs.data.items.flatMap fun p => bases p.2
  let gone := (sortedSet (pkgbases.filter (· ∉ owned))).filter (· ∈ bs.failures.keys)
  (gone.foldl BuildState.clearFailure bs, gone)

/-- The decision of each stock pkgbase: the names of its forgotten packages, both spellings. -/
def decisions (allPkgs : Dict String BuildState.Entry) (forgotten : List String) :
    List (String × List String) :=
  let based := forgotten.filterMap fun pn => (allPkgs.get pn).map fun e => (stockBase pn e, pn)
  (sortedSet (based.map Prod.fst)).map fun base =>
    (base, (based.filter fun p => p.1 = base).flatMap fun p => [p.2, stockName p.2])

/-- `_record_opt_out`. -/
def recordOptOut (file : Rows) (allPkgs : Dict String BuildState.Entry) (forgotten : List String)
    (via now : String) : Rows :=
  (decisions allPkgs forgotten).foldl (fun f d => add f d.1 d.2 via now) file

/-- The build state and the opt-out record. -/
structure State where
  bs : BuildState
  optOut : Rows

/-- `forget_packages`: what it returns, and the files after it. -/
def forgetPackages (s : State) (pkgnames : List String) (optOut : Option String) (now : String) :
    (List String × List String) × State :=
  let allPkgs := s.bs.data
  let r := forgetNames s.bs pkgnames
  let c := clearUntrackedFailures r.bs
    (pkgnames ++ r.forgotten.flatMap fun pn => (allPkgs.get pn).toList.flatMap bases)
  ((r.forgotten, r.missing),
    if r.forgotten = [] ∧ c.2 = [] then s
    else
      { bs := c.1
        optOut :=
          match optOut.filter (· ≠ "") with
          | none => s.optOut
          | some via => recordOptOut s.optOut allPkgs r.forgotten via now })

/-- What can change the two files. -/
inductive Op
  /-- `forget_packages`, of `revert`, `state forget` or, with no reason, `uninstall` -/
  | forget (pkgnames : List String) (optOut : Option String) (now : String)
  /-- `build`, `update` or `packages add` naming packages -/
  | adopt (names : List String)
  /-- anything else that rewrites `build_state.toml` -/
  | rewrite (bs : BuildState)

/-- One of them. -/
def step (s : State) : Op → State
  | .forget pkgnames optOut now => (forgetPackages s pkgnames optOut now).2
  | .adopt names => { s with optOut := clear s.optOut names }
  | .rewrite bs => { s with bs := bs }

end Sysforge.OptOut
