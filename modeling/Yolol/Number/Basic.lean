-- SUMMARY: Fixed-point numbers with four places, and their exact saturating arithmetic.

/-!
# Numbers

A number is a count of ten-thousandths that fits into a signed 64-bit word.
Every operation computes the exact result first, drops what lies beyond the
fourth place, and then saturates, so an overflow never wraps around.
-/

namespace Yolol

namespace Number

/-- The number of units in one. -/
def scale : Int := 10000

/-- The greatest signed integer of 64 bits. -/
def rawMax : Int := 9223372036854775807
/-- The least signed integer of 64 bits. -/
def rawMin : Int := -9223372036854775808

/-- The nearest integer that a number can hold. -/
def clamp (raw : Int) : Int :=
  if rawMax < raw then rawMax else if raw < rawMin then rawMin else raw

theorem rawMin_le_clamp (raw : Int) : rawMin ≤ clamp raw := by
  unfold clamp rawMax rawMin
  omega

theorem clamp_le_rawMax (raw : Int) : clamp raw ≤ rawMax := by
  unfold clamp rawMax rawMin
  omega

theorem clamp_eq_self {raw : Int} (hmin : rawMin ≤ raw) (hmax : raw ≤ rawMax) :
    clamp raw = raw := by
  unfold clamp
  rw [if_neg (by omega), if_neg (by omega)]

end Number

/-- A number of the language: `raw` ten-thousandths. -/
structure Number where
  raw : Int
  rawMin_le : Number.rawMin ≤ raw
  le_rawMax : raw ≤ Number.rawMax
  deriving DecidableEq

namespace Number

/-- The number with the given count of units, saturated at both ends. -/
def ofRaw (raw : Int) : Number := ⟨clamp raw, rawMin_le_clamp raw, clamp_le_rawMax raw⟩

@[simp] theorem raw_ofRaw (raw : Int) : (ofRaw raw).raw = clamp raw := rfl

theorem ofRaw_raw (n : Number) : ofRaw n.raw = n := by
  obtain ⟨raw, hmin, hmax⟩ := n
  simp only [ofRaw, clamp_eq_self hmin hmax]

def ofInt (n : Int) : Number := ofRaw (n * scale)

def ofBool (b : Bool) : Number := ofRaw (if b then scale else 0)

def zero : Number := ofRaw 0
def one : Number := ofInt 1
def greatest : Number := ofRaw rawMax
def least : Number := ofRaw rawMin

instance : Inhabited Number := ⟨zero⟩

-- ---------------------------------------------------------------------------
-- Conversion
-- ---------------------------------------------------------------------------

/-- The quotient of two integers, cut toward zero: that of their magnitudes, with a minus sign
    if just one of them is negative. -/
def quotient (a b : Int) : Int :=
  let magnitude : Int := (a.natAbs / b.natAbs : Nat)
  if decide (0 ≤ a) = decide (0 < b) then magnitude else -magnitude

/-- The whole part, rounded toward zero. -/
def truncate (n : Number) : Int := quotient n.raw scale

def isWhole (n : Number) : Bool := n.raw % scale == 0

def isZero (n : Number) : Bool := n.raw == 0

-- ---------------------------------------------------------------------------
-- Arithmetic
-- ---------------------------------------------------------------------------

/-- Why arithmetic on numbers has no result. -/
inductive ArithmeticFault where
  | divisionByZero
  | moduloByZero
  deriving DecidableEq

def ArithmeticFault.message : ArithmeticFault → String
  | .divisionByZero => "division by zero"
  | .moduloByZero => "modulo by zero"

def add (a b : Number) : Number := ofRaw (a.raw + b.raw)
def sub (a b : Number) : Number := ofRaw (a.raw - b.raw)
def neg (a : Number) : Number := ofRaw (-a.raw)
def abs (a : Number) : Number := ofRaw a.raw.natAbs

/-- The product, cut toward zero after the fourth place. -/
def mul (a b : Number) : Number := ofRaw (quotient (a.raw * b.raw) scale)

/-- The quotient, cut toward zero after the fourth place. -/
def div (a b : Number) : Except ArithmeticFault Number :=
  if b.raw = 0 then .error .divisionByZero else .ok (ofRaw (quotient (a.raw * scale) b.raw))

/-- The remainder, which takes the sign of the dividend. -/
def mod (a b : Number) : Except ArithmeticFault Number :=
  if b.raw = 0 then .error .moduloByZero else .ok (ofRaw (a.raw - b.raw * quotient a.raw b.raw))

-- ---------------------------------------------------------------------------
-- Factorial
-- ---------------------------------------------------------------------------

/-- Multiply `product` by `count` successive factors from `factor` on. The product
    only grows, so the loop stops as soon as it is beyond the greatest number. -/
def risingProduct (product factor : Nat) : (count : Nat) → Option Nat
  | 0 => some product
  | count + 1 =>
    if rawMax < (product * factor : Nat) * scale then none
    else risingProduct (product * factor) (factor + 1) count

/-- The factorial of a whole number that is not negative. The greatest number
    stands for everything beyond it and is its own factorial; `none` elsewhere. -/
def factorial? (n : Number) : Option Number :=
  if n.raw = rawMax then some n
  else if n.raw < 0 || !n.isWhole then none
  else match risingProduct 1 2 (n.truncate.toNat - 1) with
    | some product => some (ofInt product)
    | none => some greatest

end Number

end Yolol
