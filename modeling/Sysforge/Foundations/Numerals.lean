import Mathlib.Data.List.Basic
import Sysforge.Foundations.Text

/-!
# Numerals

The integers that Python reads off a text of decimal digits, and `range`.
-/

namespace Sysforge.Text

/-- `int` of one digit. -/
def digitValue (c : Char) : ℕ :=
  ((zeros.find? fun z => z ≤ c.toNat && c.toNat ≤ z + 9).map fun z => c.toNat - z).getD 0

/-- `int` of digits. -/
def natValue (s : Text) : ℕ := s.foldl (fun n c => 10 * n + digitValue c) 0

/-- `\d+` on a whole text. -/
def isDigits (s : Text) : Bool := s ≠ [] && s.all isDecimal

/-- `-?\d+` on a whole text. -/
def isInteger : Text → Bool
  | '-' :: s => isDigits s
  | s => isDigits s

/-- `int` of a text of that form. -/
def intValue : Text → ℤ
  | '-' :: s => -natValue s
  | s => natValue s

/-- `list(range(start, stop, step))`. -/
def range (start stop step : ℤ) : List ℤ :=
  let n := if 0 < step then (stop - start + step - 1) / step
    else if step < 0 then (start - stop - step - 1) / -step else 0
  (List.range n.toNat).map fun k : ℕ => start + step * k

end Sysforge.Text
