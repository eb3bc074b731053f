import Sysforge.Pkgbuild.ArchArrays
import Sysforge.Pkgbuild.ArrayItems
import Sysforge.Pkgbuild.Comments
import Sysforge.Pkgbuild.VarExpansionRuns

/-!
# Reading a PKGBUILD without running it

`parse_pkgbuild` strips the comments of a PKGBUILD, takes its functions out, and reads the arrays
and then the scalars that are assigned at the beginning of a line. An array comes before every
scalar of its name, and of the scalars the first assignment counts (`get_settledGlobals`).
-/

namespace Sysforge.Pkgbuild

open Text Re

/-! ## Functions -/

section Code

variable (alnum : Char → Bool)

/-- `([\w][\w-]*)\s*\(\s*\)\s*\{`. -/
def funcStart : Re :=
  .seq (.group 1 (word (isWord alnum) fun c => isWord alnum c || c = '-'))
    (.seq (.star space) (.seq (lit1 '(') (.seq (.star space) (.seq (lit1 ')')
      (.seq (.star space) (lit1 '\x7b'))))))

/-- The text behind a function's body: the braces that are open, and those open in a `$\x7b`. -/
def bodyRest : ℕ → ℕ → Text → Text
  | _, _, [] => []
  | depth, 0, '$' :: '\x7b' :: s => bodyRest depth 1 s
  | depth, 0, c :: s =>
    if c = '\x7b' then bodyRest (depth + 1) 0 s
    else if c = '\x7d' then if depth ≤ 1 then s else bodyRest (depth - 1) 0 s
    else bodyRest depth 0 s
  | depth, inner + 1, c :: s =>
    if c = '\x7b' then bodyRest depth (inner + 2) s
    else if c = '\x7d' then bodyRest depth inner s
    else bodyRest depth (inner + 1) s

/-- `text[start : j - 1]`, for the text behind the start and the one behind `j`. -/
def upTo (behind rest : Text) : Text := behind.take (behind.length - rest.length - 1)

/-- `s.strip("\n")`. -/
def stripNewlines (s : Text) : Text :=
  (s.dropWhile fun c => c = '\n').rdropWhile fun c => c = '\n'

/-- The loop of `_extract_functions`, behind a character: functions, and the text between them. -/
def extractFunctionsFrom : ℕ → Option Char → Text → List (Text × Text) × Text
  | 0, _, s => ([], s)
  | _ + 1, _, [] => ([], [])
  | fuel + 1, prev, c :: s =>
    match if prev.all (· = '\n') then matchAt (funcStart alnum) (c :: s) 0 else none with
    | some m =>
      let behind := (c :: s).drop m.stop
      let rest := bodyRest 1 0 behind
      let out := extractFunctionsFrom fuel (some '\x7d') rest
      ((m.group (c :: s) 1, stripNewlines (upTo behind rest)) :: out.1, out.2)
    | none =>
      let out := extractFunctionsFrom fuel (some c) s
      (out.1, c :: out.2)

/-- `_extract_functions`. -/
def extractFunctions (text : Text) : Dict Text Text × Text :=
  let out := extractFunctionsFrom alnum text.length none text
  (.ofItems out.1, out.2)

/-! ## Arrays and scalars -/

/-- `^(\w+)=\(`. -/
def arrayStart : Re :=
  .seq .bol (.seq (.group 1 (plus (.char (isWord alnum)))) (.seq (lit1 '=') (lit1 '(')))

/-- The text behind the parenthesis that closes so many. -/
def parenRest : ℕ → Text → Text
  | _, [] => []
  | depth, c :: s =>
    if c = '(' then parenRest (depth + 1) s
    else if c = ')' then if depth ≤ 1 then s else parenRest (depth - 1) s
    else parenRest depth s

/-- `_extract_arrays`. -/
def extractArrays (text : Text) : Dict Text (List Text) :=
  .ofItems ((finditer (arrayStart alnum) text).map fun m =>
    let behind := text.drop m.stop
    (m.group text 1, parseArrayItems (upTo behind (parenRest 1 behind))))

/-- `[^()\n'"]`. -/
def isBareChar (c : Char) : Bool := c ∉ ['(', ')', '\n', '\'', '"']

/-- `^(\w+)=(?:"([^"]*)"|'([^']*)'|([^()\n'"]+))`. -/
def scalarRe : Re :=
  .seq .bol (.seq (.group 1 (plus (.char (isWord alnum)))) (.seq (lit1 '=')
    (.alt (quoted 2 '"') (.alt (quoted 3 '\'') (.group 4 (plus (.char isBareChar)))))))

/-- `next(g for g in m.groups()[1:] if g is not None)`. -/
def scalarValue (text : Text) (m : Match) : Text :=
  match (m.groups.lookup 2).or ((m.groups.lookup 3).or (m.groups.lookup 4)) with
  | some (i, j) => slice text i j
  | none => []

/-- The scalar assignments: the name and the value of each. -/
def scalarAssignments (text : Text) : List (Text × Text) :=
  (finditer (scalarRe alnum) text).map fun m => (m.group text 1, strip (scalarValue text m))

/-! ## References to arrays -/

/-- `_ARRAY_REF`. -/
def arrayRef : Re :=
  .seq (lit1 '$') (.seq (lit1 '\x7b') (.seq (.group 1 nameRe) (.seq (lit1 '[')
    (.seq (.char fun c => c = '@' || c = '*') (.seq (lit1 ']') (.seq (.group 2 (.star dot))
      (.seq (lit1 '\x7d') .eol)))))))

/-- What an item of an array becomes. -/
def expandItem (g : Globals) (item : Text) : List Text :=
  match (matchAt arrayRef item 0).filter fun m => item.length ≤ m.stop + 1 with
  | none => [item]
  | some m =>
    match g.get (m.group item 1) with
    | some (.array ref) => (applyArrayTransform ref (m.group item 2)).getD [item]
    | _ => [item]

/-- One turn of the loop of `_expand_array_refs`. -/
def expandArray (g : Globals) (p : Text × Global) : Globals :=
  match p.2 with
  | .scalar _ => g
  | .array items => g.set p.1 (.array (items.flatMap (expandItem g)))

/-- `_expand_array_refs`. -/
def expandArrayRefs (g : Globals) : Globals := g.items.foldl expandArray g

/-! ## The parser -/

/-- What `parse_pkgbuild` returns. -/
structure Parsed where
  globals : Globals
  functions : Dict Text Text
  globalBody : Text

/-- The globals as they are assigned. -/
def assignedGlobals (text : Text) : Globals :=
  (scalarAssignments alnum text).foldl (fun g p => g.setdefault p.1 (.scalar p.2))
    ((extractArrays alnum text).map fun _ items => .array items)

/-- `parse_pkgbuild`, for the text of the file. -/
def parsePkgbuild (text : Text) : Parsed :=
  let out := extractFunctions alnum (stripComments text)
  { globals := applyVarExpansion (expandArrayRefs (mergeArchArrays (assignedGlobals alnum out.2)))
    functions := out.1
    globalBody := out.2 }

end Code

/-! ## What becomes of an assignment -/

variable {alnum : Char → Bool} {g : Globals} {k v : Text} {items : List Text} {text : Text}

/-- A scalar, or no global at all, is left alone by the references to arrays. -/
theorem get_expandArrayRefs_of_scalar (h : ∀ items, g.get k ≠ some (.array items)) :
    (expandArrayRefs g).get k = g.get k := by
  have hfold : ∀ (l : List (Text × Global)) (d : Globals),
      (∀ p ∈ l, p.1 = k → ∀ items, p.2 ≠ .array items) →
        (l.foldl expandArray d).get k = d.get k := by
    intro l
    induction l with
    | nil => exact fun d _ => rfl
    | cons p l ih =>
      intro d hl
      rw [List.foldl_cons, ih _ fun q hq => hl q (List.mem_cons_of_mem _ hq), expandArray]
      split
      next => rfl
      next items hp =>
        rw [Dict.get_set, if_neg]
        exact fun hk => hl p List.mem_cons_self hk.symm items hp
  refine hfold g.items g fun p hp hk items hitems => h items ?_
  rw [← Dict.mem_items, ← hk, ← hitems]
  exact hp

/-- An array stays an array. -/
theorem get_expandArrayRefs_of_array (h : g.get k = some (.array items)) :
    ∃ items', (expandArrayRefs g).get k = some (.array items') := by
  have hfold : ∀ (l : List (Text × Global)) (d : Globals) (items : List Text),
      d.get k = some (.array items) →
        ∃ items', (l.foldl expandArray d).get k = some (.array items') := by
    intro l
    induction l with
    | nil => exact fun d items h => ⟨items, h⟩
    | cons p l ih =>
      intro d items h
      obtain ⟨items', h'⟩ : ∃ items', (expandArray d p).get k = some (.array items') := by
        rw [expandArray]
        split
        next => exact ⟨items, h⟩
        next =>
          rw [Dict.get_set]
          split_ifs
          · exact ⟨_, rfl⟩
          · exact ⟨items, h⟩
      exact ih _ items' h'
  exact hfold g.items g items h

/-- The first assignment of a scalar. -/
def firstScalar (alnum : Char → Bool) (text k : Text) : Option Text :=
  (Dict.ofDefaults (scalarAssignments alnum text)).get k

/-- An array comes before every scalar of its name, and of the scalars the first counts. -/
theorem get_assignedGlobals : (assignedGlobals alnum text).get k =
    (((extractArrays alnum text).get k).map Global.array).or
      ((firstScalar alnum text k).map Global.scalar) := by
  have hfirst := Dict.get_foldl_setdefault (scalarAssignments alnum text) Dict.empty k
  have hfold := Dict.get_foldl_setdefault
    ((scalarAssignments alnum text).map fun p => (p.1, Global.scalar p.2))
    ((extractArrays alnum text).map fun _ items => Global.array items) k
  rw [Dict.get_empty, Option.none_or] at hfirst
  rw [List.foldl_map, Dict.get_map, Assoc.lookup_map (fun _ => Global.scalar), ← hfirst] at hfold
  exact hfold

/-- The text that arrays and scalars are read from. -/
def globalText (alnum : Char → Bool) (text : Text) : Text :=
  (extractFunctions alnum (stripComments text)).2

/-- The globals before the references to variables are replaced. -/
def settledGlobals (alnum : Char → Bool) (text : Text) : Globals :=
  expandArrayRefs (mergeArchArrays (assignedGlobals alnum (globalText alnum text)))

theorem get_parsePkgbuild : (parsePkgbuild alnum text).globals.get k =
    ((settledGlobals alnum text).get k).map
      (expandGlobal (expandScalars 8 (scalarsOf (settledGlobals alnum text))) k) :=
  Dict.get_map ..

theorem get_merged (alnum : Char → Bool) (text : Text) (hk : k ∉ archArrayFamilies) :
    (mergeArchArrays (assignedGlobals alnum (globalText alnum text))).get k =
      (((extractArrays alnum (globalText alnum text)).get k).map Global.array).or
        ((firstScalar alnum (globalText alnum text) k).map Global.scalar) := by
  rw [get_mergeArchArrays_of_notMem hk, get_assignedGlobals]

/-- A name that an array is assigned to is an array in what the parser returns. -/
theorem get_parsePkgbuild_of_array (hk : k ∉ archArrayFamilies)
    (h : (extractArrays alnum (globalText alnum text)).get k = some items) :
    ∃ items', (parsePkgbuild alnum text).globals.get k = some (.array items') := by
  have hassigned : (mergeArchArrays (assignedGlobals alnum (globalText alnum text))).get k =
      some (.array items) := by
    rw [get_merged alnum text hk, h]
    rfl
  obtain ⟨items', h'⟩ := get_expandArrayRefs_of_array hassigned
  refine ⟨items'.map fun item => expandVars item
    (expandScalars 8 (scalarsOf (settledGlobals alnum text))), ?_⟩
  rw [get_parsePkgbuild, settledGlobals, h']
  rfl

/-- Of another name the first scalar counts. -/
theorem get_settledGlobals (hk : k ∉ archArrayFamilies)
    (h : (extractArrays alnum (globalText alnum text)).get k = none) :
    (settledGlobals alnum text).get k =
      (firstScalar alnum (globalText alnum text) k).map Global.scalar := by
  have hmerged := get_merged alnum text hk
  rw [h, Option.map_none, Option.none_or] at hmerged
  rw [settledGlobals, get_expandArrayRefs_of_scalar, hmerged]
  intro items hitems
  rw [hmerged] at hitems
  cases hfirst : firstScalar alnum (globalText alnum text) k with
  | none =>
    rw [hfirst] at hitems
    cases hitems
  | some v =>
    rw [hfirst] at hitems
    cases hitems

/-! ## Texts without references -/

theorem subGroups_plain {r : Re} (hr : r = varRef ∨ r = varXformRef)
    {f : Text → Text → Text → Text} (hv : '$' ∉ v) : subGroups r f v = v := by
  have hscan : Scans r (subGroups r f) f fun c => [c] := by
    obtain rfl | rfl := hr
    · exact scans_subGroups varRef_forward (by decide) f
    · exact scans_subGroups varXformRef_forward (by decide) f
  have h := hscan.plain (R := []) hr hv
  rw [List.append_nil, hscan.nil, List.append_nil, List.flatMap_singleton'] at h
  exact h

theorem expandVars_plain {scalars : Scalars} (hv : '$' ∉ v) : expandVars v scalars = v := by
  have hfrom : expandOnce scalars v = v := by
    rw [expandOnce, subGroups_plain (.inr rfl) hv, subGroups_plain (.inl rfl) hv]
  rw [expandVars, expandVarsFrom, if_pos hfrom, hfrom]

theorem get_expandScalars_plain {scalars : Scalars} {n : ℕ} (h : scalars.get k = some v)
    (hv : '$' ∉ v) : (expandScalars n scalars).get k = some v := by
  induction n generalizing scalars with
  | zero => exact h
  | succ n ih =>
    have hnew : (scalars.map fun _ v => expandVars v scalars).get k = some v := by
      rw [Dict.get_map, h, Option.map_some, expandVars_plain hv]
    rw [expandScalars]
    split_ifs
    · exact ih hnew
    · exact hnew

/-- A scalar whose first assignment refers to nothing is what it is assigned. -/
theorem get_parsePkgbuild_plain (hk : k ∉ archArrayFamilies)
    (harray : (extractArrays alnum (globalText alnum text)).get k = none)
    (hfirst : firstScalar alnum (globalText alnum text) k = some v) (hv : '$' ∉ v) :
    (parsePkgbuild alnum text).globals.get k = some (.scalar v) := by
  have hget : (settledGlobals alnum text).get k = some (.scalar v) := by
    rw [get_settledGlobals hk harray, hfirst]
    rfl
  have hscalar : (scalarsOf (settledGlobals alnum text)).get k = some v := by
    rw [get_scalarsOf, scalar, hget]
    rfl
  rw [get_parsePkgbuild, hget, Option.map_some, expandGlobal, get_expandScalars_plain hscalar hv]
  rfl

end Sysforge.Pkgbuild
