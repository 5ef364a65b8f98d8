-- SUMMARY: Numbers as decimal text: reading a literal, and writing the shortest one.
import Yolol.Number.Basic
import Yolol.Text.Blank
import Yolol.Text.Decimal
import Yolol.Text.Digit
import Yolol.Text.Quoted

/-!
# Number literals

A literal has an optional sign, a whole part, and a fraction that is cut after
the fourth place. Writing a number gives the shortest literal that denotes it,
and reading that literal gives the number back.
-/

namespace Yolol

namespace Number

-- ---------------------------------------------------------------------------
-- Faults
-- ---------------------------------------------------------------------------

/-- Why a text denotes no number. -/
inductive LiteralFault where
  /-- The text is no sign, whole part and fraction. -/
  | malformed (text : String)
  /-- A digit that no decimal numeral can hold. -/
  | notDecimal (digits : List Char)
  /-- More digits than a whole part may have. -/
  | tooLong (count : Nat)
  deriving DecidableEq

/-- The greatest number of digits of a whole part. -/
def maxDigits : Nat := 4300

/-- The longest piece of quoted digits that a message shows. -/
def shownDigits : Nat := 200

def LiteralFault.message : LiteralFault → String
  | .malformed text => "invalid number literal " ++ Text.quoted text
  | .notDecimal digits =>
    "invalid literal for int() with base 10: "
      ++ String.ofList ((Text.quoted (String.ofList digits)).toList.take shownDigits)
  | .tooLong count =>
    "Exceeds the limit (" ++ Decimal.nat maxDigits
      ++ " digits) for integer string conversion: value has " ++ Decimal.nat count
      ++ " digits; use sys.set_int_max_str_digits() to increase the limit"

-- ---------------------------------------------------------------------------
-- Reading
-- ---------------------------------------------------------------------------

/-- The number that decimal digits of any script denote. -/
def readDigits (cs : List Char) : Except LiteralFault Nat :=
  let leading := (cs.takeWhile Text.isDecimal).length
  if maxDigits < leading then .error (.tooLong leading)
  else if leading < cs.length then .error (.notDecimal cs)
  else .ok (Decimal.value (cs.filterMap Text.decimalValue?))

/-- What stands before the first point, and what stands after it. -/
def splitPoint (cs : List Char) : List Char × List Char :=
  (cs.takeWhile (· != '.'), (cs.dropWhile (· != '.')).drop 1)

/-- The four digits after the point: missing ones are zero, further ones are cut. -/
def fourPlaces (cs : List Char) : List Char := (cs ++ List.replicate 4 '0').take 4

def isSign (c : Char) : Bool := c == '+' || c == '-'

/-- Read a literal. Any number of signs may lead it; the first one counts. -/
def ofLiteral (text : String) : Except LiteralFault Number :=
  let body := Text.strip text.toList
  let parts := splitPoint (body.dropWhile isSign)
  if parts.1.isEmpty || !(parts.1 ++ parts.2).all Text.isDigit then .error (.malformed text)
  else
    match readDigits parts.1 with
    | .error e => .error e
    | .ok whole =>
      match readDigits (fourPlaces parts.2) with
      | .error e => .error e
      | .ok places =>
        let units : Int := whole * scale + places
        .ok (ofRaw (if body.head? = some '-' then -units else units))

-- ---------------------------------------------------------------------------
-- Writing
-- ---------------------------------------------------------------------------

/-- The places after the point, without trailing zeros; none for a whole number. -/
def placesChars (units : Nat) : List Char :=
  if units = 0 then [] else '.' :: Text.dropEnd (· == '0') (Decimal.padded 4 units)

/-- The shortest literal that denotes `n`. -/
def toChars (n : Number) : List Char :=
  let units := n.raw.natAbs
  (if n.raw < 0 then ['-'] else [])
    ++ (Decimal.digits (units / 10000) ++ placesChars (units % 10000))

def toLiteral (n : Number) : String := String.ofList n.toChars

/-- The form in which a dump shows a number. -/
def dump (n : Number) : String := "YololNumber(" ++ Text.quoted n.toLiteral ++ ")"

end Number

end Yolol
