import Sysforge.Foundations.Dict
import Sysforge.Foundations.Text
import Mathlib.Data.String.Basic

/-!
# Recursive resolution of AUR dependencies

`resolveDeps` follows `_resolve_deps`: it classifies the dependencies of one requirer as
installed, from a repo, from the AUR or unknown, and resolves those of each AUR package before it
appends the package to the build order. `resolveAurDepsBatch` runs it for several PKGBUILDs over
one table of visited packages. What pacman, the sync databases, the AUR and the PKGBUILDs on disk
answer is the parameter `Env`.

The source recurses without a bound; the model has fuel, and `resolveDeps_fuel` says how much is
enough.
-/

namespace Sysforge.Aur

/-! ## Dependency specs -/

/-- `_VERSION_OPS`: longest first, so that `>=` matches before `>`. -/
def versionOps : List String := [">=", "<=", "!=", "=", ">", "<"]

/-- `_strip_version`: cut at the first operator, in the order of `versionOps`, that occurs. -/
def stripVersion (dep : String) : String :=
  match versionOps.findSome? fun op => Text.find op.toList dep.toList with
  | some i => String.ofList (dep.toList.take i)
  | none => dep

/-- `_is_soname`. -/
def isSoname (dep : String) : Bool := (Text.find ".so".toList (stripVersion dep).toList).isSome

/-- `_looks_unresolved`: the token still carries shell syntax. -/
def looksUnresolved (dep : String) : Bool := dep.toList.any fun c => c ∈ ['$', '{', '}', '\x60', '(']

/-- `_deps_need_rpc_rescue`. -/
def depsNeedRpcRescue (depends makedepends : List String) : Bool :=
  (depends ++ makedepends).any looksUnresolved

/-! ## What the resolver asks -/

/-- A PKGBUILD global: a scalar or an array. -/
inductive Global
  | str (s : String)
  | arr (l : List String)

/-- The globals of a PKGBUILD that the resolver reads. -/
structure PkgMeta where
  pkgbase : Option Global := none
  pkgname : Option Global := none
  depends : List String := []
  makedepends : List String := []

/-- The dependency lists of an AUR RPC result. -/
structure AurInfo where
  depends : List String := []
  makedepends : List String := []

/-- The system outside the resolver. -/
structure Env where
  /-- `pacman -T` does not print the spec. -/
  satisfied : String → Bool
  /-- `repo_packages` finds the name in a sync database. -/
  inRepo : String → Bool
  /-- The result of `aur_info` for the name. -/
  aurInfo : String → Option AurInfo
  /-- `find_pkgbuild`, or `none` where it raises. -/
  findPkgbuild : String → Option String
  /-- `parse_pkgbuild`, or `none` where it raises. -/
  parsePkgbuild : String → Option PkgMeta

/-- `_get_missing_deps`. -/
def getMissingDeps (env : Env) (depSpecs : List String) : List String :=
  depSpecs.filter fun s => !env.satisfied s

/-- Whether a global is truthy. -/
def Global.truthy : Global → Bool
  | .str s => s ≠ ""
  | .arr l => l ≠ []

/-- `_get_pkgname`. -/
def getPkgname (m : PkgMeta) : String :=
  match (m.pkgbase.filter Global.truthy).getD (m.pkgname.getD (.str "unknown")) with
  | .str s => s
  | .arr l => l.headD "unknown"

/-! ## The resolver -/

/-- The `source` of a `ResolvedDep`. -/
inductive Source
  | aur
  | repo
  | installed
  | unknown
  deriving DecidableEq

/-- `ResolvedDep`. -/
structure ResolvedDep where
  name : String
  source : Source
  pkgbuildPath : Option String := none
  depth : ℕ := 0
  requiredBy : List String := []
  deriving DecidableEq

/-- The tables `_resolve_deps` mutates. -/
structure Tables where
  visited : Dict String ResolvedDep := .empty
  inProgress : List String := []
  order : List String := []

/-- How a resolution ends without a result. -/
inductive Failure
  /-- `RuntimeError`, with its text. -/
  | cycle (message : String)
  /-- `parse_pkgbuild` raised on a root. -/
  | unreadable (path : String)
  | outOfFuel
  deriving DecidableEq

/-- `required_by.append`, unless the requirer is there. -/
def ResolvedDep.noteRequirer (d : ResolvedDep) (requiredBy : String) : ResolvedDep :=
  if requiredBy ∈ d.requiredBy then d else { d with requiredBy := d.requiredBy ++ [requiredBy] }

/-- One spec of the loop that builds `name_map`. -/
def collectStep (requiredBy : String) (acc : Tables × List (String × String)) (spec : String) :
    Tables × List (String × String) :=
  if looksUnresolved spec || stripVersion spec = "" then acc
  else
    match acc.1.visited.get (stripVersion spec) with
    | some d =>
      ({ acc.1 with visited := acc.1.visited.set (stripVersion spec) (d.noteRequirer requiredBy) },
        acc.2)
    | none =>
      if stripVersion spec ∈ Assoc.keys acc.2 then acc
      else (acc.1, acc.2 ++ [(stripVersion spec, spec)])

/-- The specs of the names not visited yet, one a name. -/
def collect (t : Tables) (requiredBy : String) (depSpecs : List String) :
    Tables × List (String × String) :=
  depSpecs.foldl (collectStep requiredBy) (t, [])

/-- `visited[name] = ResolvedDep(...)` for packages that are not built. -/
def Tables.note (t : Tables) (source : Source) (depth : ℕ) (requiredBy : String)
    (names : List String) : Tables :=
  { t with visited := names.foldl (fun v n => v.set n
      { name := n, source := source, depth := depth, requiredBy := [requiredBy] }) t.visited }

/-- `in_progress.add`. -/
def Tables.enter (t : Tables) (name : String) : Tables :=
  { t with inProgress := name :: t.inProgress }

/-- The end of the resolution of an AUR package: it leaves `in_progress` and joins the order. -/
def Tables.leave (t : Tables) (name : String) (depth : ℕ) (requiredBy : String)
    (path : Option String) : Tables where
  visited := t.visited.set name
    { name := name, source := .aur, pkgbuildPath := path, depth := depth,
      requiredBy := [requiredBy] }
  inProgress := t.inProgress.filter fun n => n ≠ name
  order := t.order ++ [name]

/-- The PKGBUILD of an AUR package, and its dependencies: those of the static parse, or those of
the RPC when there is no parse or it left shell syntax and the RPC has any. -/
def childDeps (env : Env) (fetch : Bool) (name : String) (info : AurInfo) :
    Option String × List String :=
  let rpc := info.depends ++ info.makedepends
  if fetch then
    match env.findPkgbuild name with
    | none => (none, rpc)
    | some path =>
      match env.parsePkgbuild path with
      | none => (some path, rpc)
      | some m =>
        if depsNeedRpcRescue m.depends m.makedepends && !rpc.isEmpty then (some path, rpc)
        else (some path, m.depends ++ m.makedepends)
  else (none, rpc)

/-- The text of the `RuntimeError` of a cycle. -/
def cycleMessage (name requiredBy : String) : String :=
  "Dependency cycle detected: " ++ name ++ " is already being resolved (required by "
    ++ requiredBy ++ ")"

/-- The loop over the AUR candidates, with `resolve` for the recursion. -/
def resolveCandidate (env : Env) (fetch : Bool)
    (resolve : Tables → List String → ℕ → String → Except Failure Tables) (depth : ℕ)
    (requiredBy : String) (t : Tables) (name : String) : Except Failure Tables :=
  match env.aurInfo name with
  | none => .ok (t.note .unknown depth requiredBy [name])
  | some info =>
    if name ∈ t.inProgress then .error (.cycle (cycleMessage name requiredBy))
    else
      let child := childDeps env fetch name info
      match resolve (t.enter name) child.2 (depth + 1) name with
      | .error e => .error e
      | .ok t => .ok (t.leave name depth requiredBy child.1)

/-- `_resolve_deps`. Its early returns on empty lists are the empty cases of what follows them. -/
def resolveDeps (env : Env) (fetch : Bool) :
    ℕ → Tables → List String → ℕ → String → Except Failure Tables
  | 0, _, _, _, _ => .error .outOfFuel
  | fuel + 1, t, depSpecs, depth, requiredBy =>
    -- Sonames are the business of another analysis.
    let (t, nameMap) := collect t requiredBy (depSpecs.filter fun d => !isSoname d)
    let names := Assoc.keys nameMap
    let missingNames := (getMissingDeps env (nameMap.map Prod.snd)).map stripVersion
    let missing := names.filter fun n => n ∈ missingNames
    let t := t.note .installed depth requiredBy (names.filter fun n => n ∉ missingNames)
    let t := t.note .repo depth requiredBy (missing.filter env.inRepo)
    (missing.filter fun n => !env.inRepo n).foldlM
      (resolveCandidate env fetch (resolveDeps env fetch fuel) depth requiredBy) t

/-- One root of the batch. -/
def resolveRoot (env : Env) (fetch : Bool) (fuel : ℕ) (t : Tables) (path : String) :
    Except Failure Tables :=
  match env.parsePkgbuild path with
  | none => .error (.unreadable path)
  | some m => resolveDeps env fetch fuel t (m.depends ++ m.makedepends) 0 (getPkgname m)

/-- `resolve_aur_deps_batch`. -/
def resolveAurDepsBatch (env : Env) (fetch : Bool) (fuel : ℕ) (pkgbuildPaths : List String) :
    Except Failure (List ResolvedDep) :=
  match pkgbuildPaths.foldlM (resolveRoot env fetch fuel) {} with
  | .error e => .error e
  | .ok t => .ok (t.order.filterMap t.visited.get)

end Sysforge.Aur
