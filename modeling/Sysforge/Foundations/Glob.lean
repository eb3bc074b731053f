import Sysforge.Foundations.Text

/-!
# Shell patterns

`fnmatch` of one component of a path: `*`, `?` and sets in brackets, where `!` negates and `-` makes a
range. A bracket that nothing closes is a character, and `**` is two stars.
-/

namespace Sysforge.Text

/-- A part of a pattern. -/
inductive GlobToken
  | star
  | any
  | lit (c : Char)
  | set (neg : Bool) (ranges : List (Char × Char))

/-- The text before and behind the next closing bracket. -/
def untilBracket : Text → Option (Text × Text)
  | [] => none
  | c :: s =>
    if c = ']' then some ([], s) else (untilBracket s).map fun p => (c :: p.1, p.2)

/-- What stands between the brackets of a set, negated or not, and behind them. -/
def setBody : Text → Option (Bool × Text × Text)
  | '!' :: ']' :: s => (untilBracket s).map fun p => (true, ']' :: p.1, p.2)
  | '!' :: s => (untilBracket s).map fun p => (true, p.1, p.2)
  | ']' :: s => (untilBracket s).map fun p => (false, ']' :: p.1, p.2)
  | s => (untilBracket s).map fun p => (false, p.1, p.2)

/-- The ranges of a set. -/
def ranges : Text → List (Char × Char)
  | [] => []
  | [x] => [(x, x)]
  | [x, y] => [(x, x), (y, y)]
  | x :: y :: z :: s => if y = '-' then (x, z) :: ranges s else (x, x) :: ranges (y :: z :: s)

/-- The parts of a pattern; `n` bounds their number. -/
def globTokens : ℕ → Text → List GlobToken
  | 0, _ => []
  | _ + 1, [] => []
  | n + 1, c :: s =>
    if c = '*' then .star :: globTokens n s
    else if c = '?' then .any :: globTokens n s
    else if c = '[' then
      match setBody s with
      | some (neg, stuff, rest) => .set neg (ranges stuff) :: globTokens n rest
      | none => .lit c :: globTokens n s
    else .lit c :: globTokens n s

/-- Whether the parts take the whole of a text. -/
def globMatch : List GlobToken → Text → Bool
  | [], s => s.isEmpty
  | .star :: g, s => s.tails.any (globMatch g)
  | .any :: g, s => match s with
    | [] => false
    | _ :: s => globMatch g s
  | .lit c :: g, s => match s with
    | [] => false
    | d :: s => c = d && globMatch g s
  | .set neg rs :: g, s => match s with
    | [] => false
    | d :: s => (rs.any (fun r => r.1 ≤ d && d ≤ r.2) != neg) && globMatch g s

/-- `fnmatch.fnmatchcase(name, pat)`. -/
def fnmatch (pat name : Text) : Bool := globMatch (globTokens pat.length pat) name

/-- A text without the characters that a pattern gives a meaning. -/
def PlainPattern (t : Text) : Prop := ∀ c ∈ t, c ≠ '*' ∧ c ≠ '?' ∧ c ≠ '['

instance (t : Text) : Decidable (PlainPattern t) := List.decidableBAll _ t

section Match

variable {t u p s : Text}

/-- A plain text takes itself. -/
theorem fnmatch_plain (ht : PlainPattern t) : fnmatch (t ++ p) (t ++ s) = fnmatch p s := by
  induction t with
  | nil => rfl
  | cons c t ih =>
    obtain ⟨hstar, hany, hset⟩ := ht c List.mem_cons_self
    rw [fnmatch, List.cons_append, List.cons_append, List.length_cons, globTokens, if_neg hstar,
      if_neg hany, if_neg hset, globMatch, decide_eq_true rfl, Bool.true_and]
    exact ih fun d hd => ht d (List.mem_cons_of_mem _ hd)

/-- A star takes any text. -/
theorem fnmatch_star (u : Text) (h : fnmatch p s = true) : fnmatch ('*' :: p) (u ++ s) = true := by
  rw [fnmatch, List.length_cons, globTokens, if_pos rfl, globMatch]
  exact List.any_eq_true.mpr ⟨s, (List.mem_tails s (u ++ s)).mpr (List.suffix_append u s), h⟩

end Match

end Sysforge.Text
