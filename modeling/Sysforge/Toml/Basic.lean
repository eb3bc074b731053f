import Sysforge.Foundations.Dict
import Sysforge.Foundations.Text

/-!
# TOML 1.0

The state files are read back with `tomllib`, whose reader is written here function by function:
keys, the four string forms, numbers, dates, arrays, inline tables, table headers, and the flags
that refuse a namespace declared twice. A function takes the rest of the input and returns a value
with what it leaves; `loads` is the whole reader. Raw control characters other than tab and
newline are legal nowhere in a document, so `loads` refuses them once, before reading.

Floats, dates and times keep their lexeme (`Value.other`): nothing here computes with them.
-/

namespace Sysforge.Toml

/-- A TOML value. -/
inductive Value
  | str (s : String)
  | int (n : ℤ)
  | bool (b : Bool)
  /-- A float, date or time, by its lexeme. -/
  | other (lexeme : Text)
  | array (vs : List Value)
  | table (items : List (String × Value))

/-- The dictionary a table is read into. -/
abbrev Table := List (String × Value)

/-- A dotted key. -/
abbrev Key := List String

/-- A reader consumes a prefix of its input. -/
abbrev Reader (α : Type) := Text → Option (α × Text)

/-! ## Characters -/

/-- `TOML_WS`. -/
def isWs (c : Char) : Bool := c = ' ' || c = '\t'

/-- `TOML_WS_AND_NEWLINE`. -/
def isWsNl (c : Char) : Bool := isWs c || c = '\n'

/-- `BARE_KEY_CHARS`. -/
def isBareKeyChar (c : Char) : Bool := c.isAlphanum || c = '-' || c = '_'

/-- `HEXDIGIT_CHARS`. -/
def isHex (c : Char) : Bool := c.isDigit || ('a' ≤ c && c ≤ 'f') || ('A' ≤ c && c ≤ 'F')

/-- A character a document may hold: no control character other than tab and newline. -/
def isLegal (c : Char) : Bool := (0x20 ≤ c.toNat && c.toNat ≠ 0x7f) || c = '\t' || c = '\n'

def skipWs (cs : Text) : Text := cs.dropWhile isWs

/-- `skip_comment`. -/
def skipComment : Text → Text
  | '#' :: cs => cs.dropWhile (· ≠ '\n')
  | cs => cs

/-- The value of a hexadecimal digit. -/
def hexVal (c : Char) : ℕ :=
  if c.isDigit then c.toNat - '0'.toNat
  else if 'a' ≤ c then c.toNat - 'a'.toNat + 10 else c.toNat - 'A'.toNat + 10

/-- The number a string of digits denotes in base `b`. -/
def natOf (b : ℕ) (ds : Text) : ℕ := ds.foldl (fun n c => b * n + hexVal c) 0

/-! ## Strings -/

/-- `parse_hex_char`: a Unicode scalar value from its hexadecimal digits. -/
def hexChar (ds : Text) : Option Char :=
  if ds.all isHex ∧ (natOf 16 ds).isValidChar then some (Char.ofNat (natOf 16 ds)) else none

/-- `BASIC_STR_ESCAPE_REPLACEMENTS`, by the character after the backslash. -/
def escapeReplacement (c : Char) : Option Char :=
  if c = 'b' then some '\x08' else if c = 't' then some '\t' else if c = 'n' then some '\n'
  else if c = 'f' then some '\x0c' else if c = 'r' then some '\r' else if c = '"' then some '"'
  else if c = '\\' then some '\\' else none

/-- Put a character in front of a string read. -/
def consChar (c : Char) : Text × Text → Text × Text := fun p => (c :: p.1, p.2)

/-- Where the reader of a basic string stands: at a plain character, right after a backslash,
inside the digits of a `\u` or `\U` escape, or in the whitespace a line-ending backslash trims
(`true` once the newline was seen). -/
inductive Mode
  | plain
  | escape
  | hex (left : ℕ) (ds : Text)
  | trim (newline : Bool)

/-- A one-line basic string, after its opening quote. -/
def basicBody : Mode → Reader Text
  | _, [] => none
  | .escape, c :: cs =>
    if c = 'u' then basicBody (.hex 4 []) cs
    else if c = 'U' then basicBody (.hex 8 []) cs
    else (escapeReplacement c).bind fun x => (basicBody .plain cs).map (consChar x)
  | .hex n ds, c :: cs =>
    if n ≤ 1 then (hexChar (ds ++ [c])).bind fun x => (basicBody .plain cs).map (consChar x)
    else basicBody (.hex (n - 1) (ds ++ [c])) cs
  | _, c :: cs =>
    if c = '"' then some ([], cs)
    else if c = '\n' then none
    else if c = '\\' then basicBody .escape cs
    else (basicBody .plain cs).map (consChar c)

/-- A one-line literal string, after its opening quote. -/
def literalBody : Reader Text
  | [] => none
  | c :: cs =>
    if c = '\'' then some ([], cs)
    else if c = '\n' then none
    else (literalBody cs).map (consChar c)

/-- Up to two further delimiters belong to a multi-line string. -/
def extraDelims (q : Char) (cs : Text) : Text × Text :=
  let k := min 2 (cs.takeWhile (· = q)).length
  (List.replicate k q, cs.drop k)

/-- A multi-line basic string, after its opening delimiter. -/
def multiBasicBody : Mode → Reader Text
  | _, [] => none
  | .escape, c :: cs =>
    if c = 'u' then multiBasicBody (.hex 4 []) cs
    else if c = 'U' then multiBasicBody (.hex 8 []) cs
    else if c = '\n' then multiBasicBody (.trim true) cs
    else if isWs c then multiBasicBody (.trim false) cs
    else (escapeReplacement c).bind fun x => (multiBasicBody .plain cs).map (consChar x)
  | .hex n ds, c :: cs =>
    if n ≤ 1 then (hexChar (ds ++ [c])).bind fun x => (multiBasicBody .plain cs).map (consChar x)
    else multiBasicBody (.hex (n - 1) (ds ++ [c])) cs
  | .trim false, c :: cs =>
    if isWs c then multiBasicBody (.trim false) cs
    else if c = '\n' then multiBasicBody (.trim true) cs
    else none
  | m, c :: cs =>
    -- whitespace is trimmed only after a line-ending backslash
    if m matches .trim _ ∧ isWsNl c then multiBasicBody (.trim true) cs
    else if c = '"' ∧ cs.take 2 = ['"', '"'] then some (extraDelims '"' (cs.drop 2))
    else if c = '\\' then multiBasicBody .escape cs
    else (multiBasicBody .plain cs).map (consChar c)

/-- A multi-line literal string, after its opening delimiter. -/
def multiLiteralBody : Reader Text
  | [] => none
  | c :: cs =>
    if c = '\'' ∧ cs.take 2 = ['\'', '\''] then some (extraDelims '\'' (cs.drop 2))
    else (multiLiteralBody cs).map (consChar c)

/-- A newline right after the opening delimiter is not part of the string. -/
def skipFirstNewline (cs : Text) : Text := if cs.head? = some '\n' then cs.tail else cs

/-- A basic string value, after its first quote. -/
def basicValue (cs : Text) : Option (Text × Text) :=
  if cs.take 2 = ['"', '"'] then multiBasicBody .plain (skipFirstNewline (cs.drop 2))
  else basicBody .plain cs

/-- A literal string value, after its first quote. -/
def literalValue (cs : Text) : Option (Text × Text) :=
  if cs.take 2 = ['\'', '\''] then multiLiteralBody (skipFirstNewline (cs.drop 2))
  else literalBody cs

/-! ## Keys -/

/-- A string read, as a string. -/
def toStr : Text × Text → String × Text := fun p => (String.ofList p.1, p.2)

/-- `parse_key_part`. -/
def keyPart : Reader String
  | [] => none
  | c :: cs =>
    if c = '"' then (basicBody .plain cs).map toStr
    else if c = '\'' then (literalBody cs).map toStr
    else if isBareKeyChar c then some (toStr ((c :: cs).span isBareKeyChar))
    else none

/-- The dotted rest of a key; `n` bounds its parts. -/
def keyRest : ℕ → Key → Reader Key
  | 0, _, _ => none
  | n + 1, acc, cs =>
    if (skipWs cs).head? = some '.' then
      (keyPart (skipWs (skipWs cs).tail)).bind fun p => keyRest n (acc ++ [p.1]) p.2
    else some (acc, skipWs cs)

/-- `parse_key`, the whitespace after it skipped. -/
def key (cs : Text) : Option (Key × Text) :=
  (keyPart cs).bind fun p => keyRest (p.2.length + 1) [p.1] p.2

/-! ## Numbers, dates and times -/

/-- `(_?d)*`: the digits, without their underscores, and the rest. -/
def digits (p : Char → Bool) : Text → Text × Text
  | [] => ([], [])
  | [c] => if p c then ([c], []) else ([], [c])
  | c :: c' :: cs =>
    if p c then ((digits p (c' :: cs)).map (c :: ·) id)
    else if c = '_' ∧ p c' then ((digits p cs).map (c' :: ·) id)
    else ([], c :: c' :: cs)

/-- `d(_?d)*`. -/
def digits1 (p : Char → Bool) : Reader Text
  | c :: cs => if p c then some ((digits p cs).map (c :: ·) id) else none
  | [] => none

/-- `0x…`, `0o…` and `0b…`. -/
def prefixedInt : Reader Value
  | '0' :: 'x' :: cs => (digits1 isHex cs).map fun p => (.int (natOf 16 p.1), p.2)
  | '0' :: 'b' :: cs =>
    (digits1 (fun c => c = '0' || c = '1') cs).map fun p => (.int (natOf 2 p.1), p.2)
  | '0' :: 'o' :: cs =>
    (digits1 (fun c => '0' ≤ c && c ≤ '7') cs).map fun p => (.int (natOf 8 p.1), p.2)
  | _ => none

/-- The sign of a decimal number. -/
def sign : Text → Bool × Text
  | '-' :: cs => (true, cs)
  | '+' :: cs => (false, cs)
  | cs => (false, cs)

/-- The integer part of a decimal number: `0`, or digits that do not start with `0`. -/
def intPart : Reader Text
  | '0' :: cs => some (['0'], cs)
  | cs => digits1 Char.isDigit cs

/-- What follows an optional fraction. -/
def fracRest : Text → Text
  | '.' :: cs => match digits1 Char.isDigit cs with
    | some p => p.2
    | none => '.' :: cs
  | cs => cs

/-- What follows an optional exponent. -/
def expRest : Text → Text
  | c :: cs => if c = 'e' ∨ c = 'E' then match digits1 Char.isDigit (sign cs).2 with
      | some p => p.2
      | none => c :: cs
    else c :: cs
  | [] => []

/-- A decimal integer or float. -/
def decimal (cs : Text) : Option (Value × Text) :=
  (intPart (sign cs).2).map fun p =>
    let rest := expRest (fracRest p.2)
    if rest.length = p.2.length then
      (.int (if (sign cs).1 then -(natOf 10 p.1 : ℤ) else natOf 10 p.1), rest)
    else (.other (cs.take (cs.length - rest.length)), rest)

/-- `inf` and `nan`, signed or not. -/
def specialFloat (cs : Text) : Option (Value × Text) :=
  if (sign cs).2.take 3 = ['i', 'n', 'f'] ∨ (sign cs).2.take 3 = ['n', 'a', 'n'] then
    some (.other (cs.take (cs.length - (sign cs).2.length + 3)), (sign cs).2.drop 3)
  else none

/-- A two-digit number below `hi`. -/
def twoDigits (hi : ℕ) : Reader ℕ
  | a :: b :: cs =>
    if a.isDigit ∧ b.isDigit ∧ natOf 10 [a, b] < hi then some (natOf 10 [a, b], cs) else none
  | _ => none

/-- The rest after one given character. -/
def expect (c : Char) : Text → Option Text
  | d :: cs => if d = c then some cs else none
  | [] => none

/-- `HH:MM:SS[.fraction]`, the rest. -/
def timeRest (cs : Text) : Option Text := do
  let (_, cs) ← twoDigits 24 cs
  let cs ← expect ':' cs
  let (_, cs) ← twoDigits 60 cs
  let cs ← expect ':' cs
  let (_, cs) ← twoDigits 60 cs
  match cs with
  | '.' :: d :: cs => if d.isDigit then some (cs.dropWhile Char.isDigit) else some ('.' :: d :: cs)
  | cs => some cs

/-- An optional time offset, the rest. -/
def offsetRest : Text → Text
  | [] => []
  | c :: cs =>
    if c = 'Z' ∨ c = 'z' then cs
    else if c = '+' ∨ c = '-' then
      ((twoDigits 24 cs).bind fun p => (expect ':' p.2).bind fun r =>
        (twoDigits 60 r).map Prod.snd).getD (c :: cs)
    else c :: cs

/-- The number of days of a month. -/
def daysIn (y m : ℕ) : ℕ :=
  if m = 2 then (if (y % 4 = 0 ∧ y % 100 ≠ 0) ∨ y % 400 = 0 then 29 else 28)
  else if m = 4 ∨ m = 6 ∨ m = 9 ∨ m = 11 then 30 else 31

/-- `YYYY-MM-DD`: the date and the rest. -/
def date (cs : Text) : Option ((ℕ × ℕ × ℕ) × Text) :=
  if (cs.takeWhile Char.isDigit).length = 4 then do
    let rest ← expect '-' (cs.dropWhile Char.isDigit)
    let (m, rest) ← twoDigits 13 rest
    let rest ← expect '-' rest
    let (d, rest) ← twoDigits 32 rest
    if 0 < m ∧ 0 < d then some ((natOf 10 (cs.takeWhile Char.isDigit), m, d), rest) else none
  else none

/-- What follows the optional time of a date. -/
def dateTimeRest : Text → Text
  | [] => []
  | c :: cs => if c = 'T' ∨ c = 't' ∨ c = ' ' then
      ((timeRest cs).map offsetRest).getD (c :: cs)
    else c :: cs

/-- A value that is neither a string, a boolean, an array nor an inline table. -/
def scalar (cs : Text) : Option (Value × Text) :=
  match date cs with
  | some ((y, m, d), rest) =>
    if 0 < y ∧ d ≤ daysIn y m then
      some (.other (cs.take (cs.length - (dateTimeRest rest).length)), dateTimeRest rest)
    else none
  | none =>
    match timeRest cs with
    | some rest => some (.other (cs.take (cs.length - rest.length)), rest)
    | none => (prefixedInt cs).or ((decimal cs).or (specialFloat cs))

/-! ## Nested tables -/

/-- `get_or_create_nest(key)` followed by an update of the nest; with `lists` the last item of an
array of tables stands for the array. -/
def updateNest (lists : Bool) : Key → (Table → Option Table) → Table → Option Table
  | [], f, t => f t
  | k :: ks, f, t =>
    match t.lookup k with
    | none => (updateNest lists ks f []).map fun n => Assoc.set k (.table n) t
    | some (.table n) => (updateNest lists ks f n).map fun n => Assoc.set k (.table n) t
    | some (.array vs) =>
      match lists, vs.getLast? with
      | true, some (.table n) =>
        (updateNest lists ks f n).map fun n => Assoc.set k (.array (vs.dropLast ++ [.table n])) t
      | _, _ => none
    | some _ => none

/-- Set a key the nest must not hold yet. -/
def putNew (k : String) (v : Value) (t : Table) : Option Table :=
  if (t.lookup k).isSome then none else some (Assoc.set k v t)

/-- `key[:-1]` and `key[-1]`. -/
def splitKey (k : Key) : Key × String := (k.dropLast, k.getLast?.getD "")

/-- Whether a value freezes the key it is bound to. -/
def Value.isNested : Value → Bool
  | .array _ => true
  | .table _ => true
  | _ => false

/-! ## Values -/

/-- `skip_comments_and_array_ws`; `n` bounds the comments. -/
def skipArrayWs : ℕ → Text → Text
  | 0, cs => cs
  | n + 1, cs =>
    match cs.dropWhile isWsNl with
    | '#' :: cs => skipArrayWs n (cs.dropWhile (· ≠ '\n'))
    | cs => cs

mutual

/-- `parse_value`; `n` bounds the nesting and the items read. -/
def value : ℕ → Reader Value
  | 0, _ => none
  | _, [] => none
  | n + 1, c :: cs =>
    if c = '"' then (basicValue cs).map fun p => (.str (String.ofList p.1), p.2)
    else if c = '\'' then (literalValue cs).map fun p => (.str (String.ofList p.1), p.2)
    else if c = '[' then arrayItems n [] (skipArrayWs (cs.length + 1) cs)
    else if c = '{' then
      match skipWs cs with
      | '}' :: cs => some (.table [], cs)
      | cs => inlineItems n [] [] cs
    else if c = 't' ∧ cs.take 3 = ['r', 'u', 'e'] then some (.bool true, cs.drop 3)
    else if c = 'f' ∧ cs.take 4 = ['a', 'l', 's', 'e'] then some (.bool false, cs.drop 4)
    else scalar (c :: cs)

/-- The items of an array from the next item or the closing bracket on. -/
def arrayItems : ℕ → List Value → Reader Value
  | 0, _, _ => none
  | _, acc, ']' :: cs => some (.array acc, cs)
  | n + 1, acc, cs =>
    (value n cs).bind fun p =>
      match skipArrayWs (p.2.length + 1) p.2 with
      | ']' :: cs => some (.array (acc ++ [p.1]), cs)
      | ',' :: cs => arrayItems n (acc ++ [p.1]) (skipArrayWs (cs.length + 1) cs)
      | _ => none

/-- The pairs of an inline table from the next pair on; `frozen` are the keys it froze. -/
def inlineItems : ℕ → Table → List Key → Reader Value
  | 0, _, _, _ => none
  | n + 1, acc, frozen, cs =>
    (key cs).bind fun p =>
      match p.2 with
      | '=' :: cs => (value n (skipWs cs)).bind fun q =>
        if frozen.any (fun k => k.isPrefixOf p.1) then none
        else (updateNest false (splitKey p.1).1 (putNew (splitKey p.1).2 q.1) acc).bind fun acc =>
          match skipWs q.2 with
          | '}' :: cs => some (.table acc, cs)
          | ',' :: cs =>
            inlineItems n acc (if q.1.isNested then frozen ++ [p.1] else frozen) (skipWs cs)
          | _ => none
      | _ => none

end

/-! ## Documents -/

/-- The reader's state between two expressions: the dictionary read so far, the table header in
force and the flags of `tomllib` (`explicitNest` and `frozen` hold the flagged keys, `pending` the
keys a dotted key will flag at the next header). -/
structure Doc where
  data : Table := []
  header : Key := []
  explicitNest : List Key := []
  frozen : List Key := []
  pending : List Key := []

namespace Doc

/-- `flags.is_(key, FROZEN)`: the flag is recursive. -/
def isFrozen (d : Doc) (k : Key) : Bool := d.frozen.any fun p => p.isPrefixOf k

/-- `flags.is_(key, EXPLICIT_NEST)`. -/
def isExplicit (d : Doc) (k : Key) : Bool := d.explicitNest.contains k

/-- The keys `header + key[:i]` for `0 < i < len(key)`. -/
def containers (d : Doc) (k : Key) : List Key :=
  k.dropLast.inits.tail.map (d.header ++ ·)

/-- The body of `key_value_rule` once key and value are read. -/
def addPair (d : Doc) (k : Key) (v : Value) : Option Doc :=
  if (d.containers k).any d.isExplicit || d.isFrozen (d.header ++ (splitKey k).1) then none
  else (updateNest true (d.header ++ (splitKey k).1) (putNew (splitKey k).2 v) d.data).map
    fun data => { d with
      data := data
      frozen := if v.isNested then d.frozen ++ [d.header ++ k] else d.frozen
      pending := d.pending ++ d.containers k }

/-- `finalize_pending`. -/
def finalize (d : Doc) : Doc := { d with explicitNest := d.explicitNest ++ d.pending, pending := [] }

/-- `create_dict_rule` once the key is read. -/
def openTable (d : Doc) (k : Key) : Option Doc :=
  if d.isExplicit k || d.isFrozen k then none
  else (updateNest true k some d.data).map fun data =>
    { d with data := data, header := k, explicitNest := d.explicitNest ++ [k] }

/-- `append_nest_to_list`. -/
def appendItem (k : String) (t : Table) : Option Table :=
  match t.lookup k with
  | none => some (Assoc.set k (.array [.table []]) t)
  | some (.array vs) => some (Assoc.set k (.array (vs ++ [.table []])) t)
  | some _ => none

/-- `create_list_rule` once the key is read. -/
def openItem (d : Doc) (k : Key) : Option Doc :=
  if d.isFrozen k then none
  else (updateNest true (splitKey k).1 (appendItem (splitKey k).2) d.data).map fun data =>
    { d with
      data := data
      header := k
      explicitNest := d.explicitNest.filter (fun p => !k.isPrefixOf p) ++ [k]
      frozen := d.frozen.filter fun p => !k.isPrefixOf p }

end Doc

/-- `key = value`, the value and the key. -/
def pair (cs : Text) : Option ((Key × Value) × Text) :=
  (key cs).bind fun p =>
    match p.2 with
    | '=' :: cs => (value (cs.length + 1) (skipWs cs)).map fun q => ((p.1, q.1), q.2)
    | _ => none

/-- A table header, after its first bracket. -/
def header (d : Doc) : Text → Option (Doc × Text)
  | '[' :: cs => (key (skipWs cs)).bind fun p =>
    match p.2 with
    | ']' :: ']' :: cs => (d.finalize.openItem p.1).map fun d => (d, cs)
    | _ => none
  | cs => (key (skipWs cs)).bind fun p =>
    match p.2 with
    | ']' :: cs => (d.finalize.openTable p.1).map fun d => (d, cs)
    | _ => none

/-- The end of an expression: whitespace, a comment, and a newline or the end of the input. -/
def endOfExpr (cs : Text) : Option Text :=
  match skipComment (skipWs cs) with
  | [] => some []
  | '\n' :: cs => some cs
  | _ => none

/-- One expression of a document, through its newline. -/
def expr (d : Doc) (cs : Text) : Option (Doc × Text) :=
  match skipWs cs with
  | [] => some (d, [])
  | '\n' :: cs => some (d, cs)
  | '#' :: cs => (endOfExpr ('#' :: cs)).map fun r => (d, r)
  | '[' :: cs => (header d cs).bind fun p => (endOfExpr p.2).map fun r => (p.1, r)
  | cs => (pair cs).bind fun p => (d.addPair p.1.1 p.1.2).bind fun d =>
    (endOfExpr p.2).map fun r => (d, r)

/-- The expressions of a document; every expression consumes input, so `n` is its length. -/
def exprs : ℕ → Doc → Text → Option Doc
  | _, d, [] => some d
  | 0, _, _ :: _ => none
  | n + 1, d, c :: cs => (expr d (c :: cs)).bind fun p => exprs n p.1 p.2

/-- `src.replace("\r\n", "\n")`. -/
def crlf : Text → Text
  | [] => []
  | '\r' :: '\n' :: cs => '\n' :: crlf cs
  | c :: cs => c :: crlf cs

/-- `tomllib.loads`: the dictionary a document denotes, `none` when it is not valid TOML. -/
def loads (s : Text) : Option Table :=
  let src := crlf s
  if src.all isLegal then (exprs src.length {} src).map Doc.data else none


end Sysforge.Toml
