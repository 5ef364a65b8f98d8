-- SUMMARY: The shortest decimal that reads back as a given double.
import Yolol.Double
import Yolol.Text.Decimal

/-!
# Shortest decimals

Every real number close enough to a double rounds to it. Among the decimals in that
interval the one with the fewest digits is taken, and of several the nearest. It is
found by trying one digit, then two, and so on: if a decimal grid has a point in the
interval, then one of the two grid points around the double lies in it.
-/

namespace Yolol.Double

/-- Seventeen digits always suffice. -/
def maxShortest : Nat := 17

/-- A positive double as a fraction, together with the bounds of its interval over the
    same denominator. The interval is closed if `closed` holds. -/
structure Interval where
  low : Nat
  mid : Nat
  high : Nat
  denominator : Nat
  closed : Bool

/-- The interval of `mantissa * 2 ^ exponent`. Below a power of two the doubles lie twice
    as dense as above it. -/
def interval (mantissa : Nat) (exponent : Int) : Interval :=
  let up := Nat.pow 2 exponent.toNat
  let lower :=
    if mantissa = hiddenBit ∧ -1074 < exponent then 4 * mantissa - 1 else 4 * mantissa - 2
  { low := lower * up, mid := 4 * mantissa * up, high := (4 * mantissa + 2) * up
    denominator := 4 * Nat.pow 2 (-exponent).toNat, closed := mantissa % 2 == 0 }

/-- Whether `digits * 10 ^ power` lies in the interval. -/
def Interval.holds (i : Interval) (digits : Nat) (power : Int) : Bool :=
  let point := digits * Nat.pow 10 power.toNat * i.denominator
  let unit := Nat.pow 10 (-power).toNat
  if i.closed then i.low * unit ≤ point && point ≤ i.high * unit
  else i.low * unit < point && point < i.high * unit

/-- The number of digits in front of the point; for a value below one tenth, minus the
    number of zeros behind it. -/
def Interval.magnitude (i : Interval) : Int :=
  if i.denominator ≤ i.mid then (Decimal.digits (i.mid / i.denominator)).length
  else
    let zeros := (List.range 400).find? fun j => i.denominator ≤ i.mid * Nat.pow 10 (j + 1)
    Int.negOfNat (zeros.getD 0)

/-- The grid point with `count` digits that lies in the interval, the nearer of two. -/
def Interval.onGrid? (i : Interval) (count : Nat) : Option (Nat × Int) :=
  let power : Int := i.magnitude - count
  let unit := i.denominator * Nat.pow 10 power.toNat
  let value := i.mid * Nat.pow 10 (-power).toNat
  let below := value / unit
  let nearer := if 2 * (value % unit) < unit ∨ (2 * (value % unit) = unit ∧ below % 2 = 0) then
    [below, below + 1] else [below + 1, below]
  (nearer.find? fun d => i.holds d power).map (·, power)

/-- The digits of the shortest decimal and the number of them in front of the point. -/
def shortest (mantissa : Nat) (exponent : Int) : List Char × Int :=
  let i := interval mantissa exponent
  let point := ((List.range maxShortest).findSome? fun n => i.onGrid? (n + 1)).getD (0, 0)
  let digits := Decimal.digits point.1
  (((digits.reverse.dropWhile (· == '0')).reverse), point.2 + digits.length)

/-- Numbers from a ten-thousandth up to sixteen digits are written out, others with an
    exponent of at least two digits. -/
def positional (before : Int) : Bool := -4 < before && before ≤ 16

/-- A positive double from its digits and the number of them in front of the point. -/
def layout (digits : List Char) (before : Int) : List Char :=
  if positional before then
    if before ≤ 0 then ['0', '.'] ++ List.replicate (-before).toNat '0' ++ digits
    else
      let whole := digits.take before.toNat
      let places := digits.drop before.toNat
      whole ++ List.replicate (before.toNat - whole.length) '0' ++ ['.']
        ++ (if places.isEmpty then ['0'] else places)
  else
    let power := before - 1
    digits.take 1 ++ (if digits.length ≤ 1 then [] else '.' :: digits.drop 1) ++ ['e']
      ++ [if power < 0 then '-' else '+']
      ++ (if power.natAbs < 10 then ['0'] else []) ++ Decimal.digits power.natAbs

/-- The double with the given bits as text. -/
def toText (bits : UInt64) : String :=
  match ofBits bits with
  | .notANumber => "nan"
  | .infinite negative => if negative then "-inf" else "inf"
  | .finite mantissa exponent =>
    let digits :=
      if mantissa = 0 then ['0', '.', '0']
      else
        let (digits, before) := shortest mantissa.natAbs exponent
        layout digits before
    if signBit ≤ bits.toNat then String.ofList ('-' :: digits) else String.ofList digits

end Yolol.Double
