import Mathlib.Data.List.Dedup
import Mathlib.Data.List.Sort
import Sysforge.State.BuildState

/-!
# Repairing the build state

An entry that holds an unexpanded shell variable is repaired from its PKGBUILD: for each directory
with such an entry, the entries are replaced by one for each package that the PKGBUILD lists, with
the fields of the entry it replaces. The plans are made over the state as it is, one for each
directory, and carried out one after the other in the order of the directories. A second pass
rewrites the retired build modes of the entries that no plan deletes.
-/

namespace Sysforge.Repair

open BuildState (Entry)

/-- The suffix of a renamed package. -/
def suffix : String := "-sysforge"

/-- `LEGACY_BUILD_MODE_TOKENS`. -/
def legacyBuildModeTokens : List (String × String) :=
  [("profiled", "source_built"), ("pgo_mesa", "pgo")]

/-- `_LEGACY_BUILD_MODE_TOKENS.get(mode, mode)`. -/
def currentMode (mode : String) : String := (legacyBuildModeTokens.lookup mode).getD mode

/-- `_has_var`. -/
def hasVar (s : String) : Bool := '$' ∈ s.toList

/-- `_entry_broken`. -/
def entryBroken (name : String) (e : Entry) : Bool :=
  hasVar name || e.pkgbase.any hasVar || e.pkgver.any hasVar || e.pkgrel.any hasVar ||
    e.epoch.any hasVar

/-- What a PKGBUILD's globals say, a lone pkgname as a list. -/
structure Globals where
  pkgname : List String
  pkgbase : Option String
  pkgver : Option String
  pkgrel : Option String
  epoch : Option String

/-- What becomes of the PKGBUILD of a directory. -/
inductive Parsed
  | missing
  | failed
  | globals (g : Globals)

/-- The entries of one directory, in the order of the state. -/
abbrev Group := List (String × Entry)

/-- The directory of an entry. -/
def dirOf (e : Entry) : String := e.pkgbuildDir.getD ""

/-- The group of a directory in `by_dir`. -/
def groupOf (data : Dict String Entry) (dir : String) : Group :=
  data.items.filter fun p => dirOf p.2 = dir

/-- The keys of `by_dir`, sorted. -/
def dirs (data : Dict String Entry) : List String :=
  ((data.items.map fun p => dirOf p.2).dedup).insertionSort (· ≤ ·)

/-! ## Planning -/

/-- The identity that a PKGBUILD gives. -/
structure Identity where
  names : List String
  pkgbase : String
  pkgver : String
  pkgrel : String
  epoch : String

/-- The identity that the globals give, when there is a pkgname. -/
def identity (g : Globals) : Option Identity :=
  match g.pkgname with
  | [] => none
  | first :: rest => some
      { names := first :: rest
        pkgbase := (g.pkgbase.filter (· ≠ "")).getD first
        pkgver := g.pkgver.getD ""
        pkgrel := g.pkgrel.getD "1"
        epoch := g.epoch.getD "0" }

/-- Every variable of the identity is expanded. -/
def Identity.expanded (i : Identity) : Bool :=
  !(i.names.any hasVar || hasVar i.pkgbase || hasVar i.pkgver || hasVar i.pkgrel || hasVar i.epoch)

/-- `a or b` for records: an empty one does not count. -/
def entryOr (a b : Option Entry) : Option Entry := (a.filter fun e => !e.isEmpty).or b

/-- The entry that gives its fields to a listed package. -/
def sourceOf (group : Group) (firstBroken : Entry) (name : String) : Entry :=
  (entryOr (group.lookup name) (entryOr (group.lookup (name ++ suffix)) none)).getD firstBroken

/-- The package stays under its renamed key. -/
def isRenamed (group : Group) (firstBroken : Entry) (name : String) : Bool :=
  (group.lookup name).isNone && ((group.lookup (name ++ suffix)).isSome ||
    (sourceOf group firstBroken name).originPkgbase.any (· ≠ ""))

/-- `target`. -/
def targetOf (group : Group) (firstBroken : Entry) (name : String) : String :=
  if isRenamed group firstBroken name then name ++ suffix else name

/-- The pkgbase of the new entry. -/
def pkgbaseOf (i : Identity) (group : Group) (firstBroken : Entry) (name : String) : String :=
  if isRenamed group firstBroken name then
    ((sourceOf group firstBroken name).pkgbase.filter fun b => b ≠ "" && !hasVar b).getD
      (i.pkgbase ++ suffix)
  else i.pkgbase

/-- The new entry of a listed package. -/
def createRecord (dir : String) (i : Identity) (group : Group) (firstBroken : Entry)
    (name : String) : String × Entry :=
  let src := sourceOf group firstBroken name
  (targetOf group firstBroken name,
    { src with
      pkgver := some i.pkgver
      pkgrel := some i.pkgrel
      epoch := some i.epoch
      pkgbase := some (pkgbaseOf i group firstBroken name)
      pkgbuildDir := some dir
      buildMode := src.buildMode.map currentMode })

/-- What is done in a directory. -/
structure Plan where
  dir : String
  deleteKeys : List String
  createRecords : List (String × Entry)

/-- Why a directory is skipped. -/
inductive Skip
  | missing
  | unresolvable
  deriving DecidableEq

/-- The plan of a directory: none when no entry is broken. -/
def planDir (parse : String → Parsed) (data : Dict String Entry) (dir : String) :
    Option (Except Skip Plan) :=
  let group := groupOf data dir
  match group.find? fun p => entryBroken p.1 p.2 with
  | none => none
  | some (_, firstBroken) =>
    if dir = "" then some (.error .missing)
    else
      match parse dir with
      | .missing => some (.error .missing)
      | .failed => some (.error .unresolvable)
      | .globals g =>
        match identity g with
        | none => some (.error .unresolvable)
        | some i =>
          if !i.expanded then some (.error .unresolvable)
          else
            let creates := i.names.map (createRecord dir i group firstBroken)
            let targets := creates.map Prod.fst
            let dropped := (group.filter fun p =>
              decide (p.1 ∉ targets) &&
                (entryBroken p.1 p.2 || !p.2.originPkgbase.any (· ≠ ""))).map Prod.fst
            some (.ok ⟨dir, dropped ++ targets.dedup.filter fun t => (group.lookup t).isSome,
              creates⟩)

/-- `plans`. -/
def plans (parse : String → Parsed) (data : Dict String Entry) : List Plan :=
  (dirs data).filterMap fun dir => (planDir parse data dir).bind Except.toOption

/-- `stale_mode_fixes`. -/
def staleModeFixes (data : Dict String Entry) (ps : List Plan) : List (String × String) :=
  data.items.filterMap fun p =>
    if p.1 ∈ ps.flatMap Plan.deleteKeys then none
    else (p.2.buildMode.bind fun m => legacyBuildModeTokens.lookup m).map fun m => (p.1, m)

/-! ## Carrying it out -/

/-- One plan. -/
def applyPlan (data : Dict String Entry) (p : Plan) : Dict String Entry :=
  p.createRecords.foldl (fun d c => d.set c.1 c.2)
    (p.deleteKeys.foldl (fun d k => d.erase k) data)

/-- One rewritten build mode. -/
def applyFix (data : Dict String Entry) (fix : String × String) : Dict String Entry :=
  match data.get fix.1 with
  | none => data
  | some e => data.set fix.1 { e with buildMode := some fix.2 }

/-- `cmd_state_repair`: the entries after it. -/
def cmdStateRepair (parse : String → Parsed) (dryRun : Bool) (data : Dict String Entry) :
    Dict String Entry :=
  let ps := plans parse data
  let fixes := staleModeFixes data ps
  if ps.isEmpty && fixes.isEmpty || dryRun then data
  else fixes.foldl applyFix (ps.foldl applyPlan data)

end Sysforge.Repair
