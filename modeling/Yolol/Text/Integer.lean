-- SUMMARY: Integers as a user types them.
import Yolol.Text.Blank
import Yolol.Text.Decimal
import Yolol.Text.Digit

/-!
# Typed integers

An integer may have blanks around it, one sign, and single underscores between its
digits, which may be decimal digits of any script.
-/

namespace Yolol.Text

/-- More digits than this are refused. -/
def maxTypedDigits : Nat := 4300

/-- A blank that may surround an integer: any but the four separators that stand in
front of the space. -/
def isMargin (c : Char) : Bool := isBlank c && !(0x1c ≤ c.toNat && c.toNat ≤ 0x1f)

/-- The sign in front of `cs`, and what follows it. -/
def splitSign : List Char → Bool × List Char
  | '-' :: cs => (true, cs)
  | '+' :: cs => (false, cs)
  | cs => (false, cs)

/-- Digits in which an underscore stands only between two digits. -/
def isGrouped : List Char → Bool
  | [] => false
  | [c] => isDecimal c
  | c :: '_' :: cs => isDecimal c && isGrouped cs
  | c :: cs => isDecimal c && isGrouped cs

/-- Read an integer. -/
def integer? (text : String) : Option Int :=
  let (negative, body) := splitSign (dropEnd isMargin (text.toList.dropWhile isMargin))
  let values := body.filterMap decimalValue?
  if isGrouped body && values.length ≤ maxTypedDigits then
    some (if negative then -Decimal.value values else Decimal.value values)
  else none

end Yolol.Text
