import Sysforge.Foundations.Dict
import Sysforge.Foundations.Text

/-!
# Appending flags

The `append` table of a profile is merged token by token: a child's token first displaces the
tokens of its conflict group, then the token with its prefix, and is appended otherwise. The merge
of two values is `mergeAppendValue`; it fails on a value that is set but is no string.
-/

namespace Sysforge.Profile

open Text

/-- A value of a profile. Of one that is no string only its type, its truth and its text matter. -/
inductive Value
  | str (s : Text)
  | other (type : String) (truthy : Bool) (repr : String)
  deriving DecidableEq

/-- The exceptions of profile resolution. -/
inductive Failure
  | valueError (message : String)
  | attributeError (message : String)
  deriving DecidableEq

/-- `[append_conflict_groups]`: the flags of each named group. -/
abbrev ConflictGroups := Dict String (List Text)

/-- `_extract_prefix`: up to the first `=`, or up to the trailing digits. -/
def extractPrefix (token : Text) : Option Text :=
  if '=' ∈ token then some (token.takeWhile (· ≠ '=') ++ ['='])
  else
    let stem := (token.reverse.dropWhile isDecimal).reverse
    if stem = [] ∨ stem = token then none else some stem

/-- `flag_to_group`: the group of a flag; of several that list it, the last. -/
def flagToGroup (groups : ConflictGroups) : Dict Text (List Text) :=
  Dict.ofItems (groups.items.flatMap fun g => g.2.map fun m => (m, g.2))

/-- One token of `_merge_append_value`. -/
def mergeToken (groups : ConflictGroups) (result : List Text) (child : Text) : List Text :=
  match (flagToGroup groups).get child with
  | some members => result.filter (fun t => t ∉ members) ++ [child]
  | none =>
    match extractPrefix child with
    | none => result ++ [child]
    | some p =>
      match result.findIdx? fun t => extractPrefix t = some p with
      | some i => result.set i child
      | none => result ++ [child]

/-- `value.split() if value else []`. -/
def tokens : Value → Except Failure (List Text)
  | .str s => .ok (words s)
  | .other _ false _ => .ok []
  | .other type true _ =>
    .error (.attributeError ("'" ++ type ++ "' object has no attribute 'split'"))

/-- `_merge_append_value`. -/
def mergeAppendValue (groups : ConflictGroups) (parent child : Value) : Except Failure Value := do
  let parentTokens ← tokens parent
  let childTokens ← tokens child
  .ok (.str (unwords (childTokens.foldl (mergeToken groups) parentTokens)))

/-- A list of append values merged onto a value, one after the other. -/
def mergeAppends (groups : ConflictGroups) (v : Value) (appends : List Value) :
    Except Failure Value :=
  appends.foldlM (mergeAppendValue groups) v

end Sysforge.Profile
