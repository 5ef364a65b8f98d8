-- SUMMARY: The exact value of a double, and rounding it to an integer.

/-!
# Doubles

A finite double is an integer times a power of two. Rounding works on that exact
value, so its result is an integer of any size.
-/

namespace Yolol

/-- What a double denotes. -/
inductive Double where
  | notANumber
  | infinite (negative : Bool)
  /-- The value `mantissa * 2 ^ exponent`. -/
  | finite (mantissa exponent : Int)

namespace Double

/-- The bit of the sign. -/
def signBit : Nat := 0x8000000000000000

/-- The bit behind the fraction, which a normal double has in front of its own. -/
def hiddenBit : Nat := 0x10000000000000

/-- The exponent of what is no finite double. -/
def topExponent : Nat := 0x7ff

/-- Read sign, exponent and fraction off the bits of a double. -/
def ofBits (word : UInt64) : Double :=
  let bits := word.toNat
  let negative := signBit ≤ bits
  let exponent : Nat := bits / hiddenBit % (topExponent + 1)
  let fraction : Nat := bits % hiddenBit
  let signed (m : Nat) : Int := if negative then -m else m
  if exponent = topExponent then
    if fraction = 0 then .infinite negative else .notANumber
  else if exponent = 0 then .finite (signed fraction) (-1074)
  else .finite (signed (hiddenBit + fraction)) ((exponent : Int) - 1075)

def ofFloat (x : Float) : Double := ofBits x.toBits

/-- Whether two doubles denote the same; what is no number denotes only itself. -/
def agrees : Double → Double → Bool
  | .notANumber, .notANumber => true
  | .infinite s, .infinite t => s == t
  | .finite m e, .finite n f =>
    m * Nat.pow 2 (e - min e f).toNat == n * Nat.pow 2 (f - min e f).toNat
  | _, _ => false

/-- The greatest integer that is at most `mantissa * 2 ^ exponent`. -/
def floor (mantissa exponent : Int) : Int :=
  if 0 ≤ exponent then mantissa * Nat.pow 2 exponent.toNat
  else mantissa / Nat.pow 2 (-exponent).toNat

/-- The least integer that is at least `mantissa * 2 ^ exponent`. -/
def ceil (mantissa exponent : Int) : Int := -floor (-mantissa) exponent

/-- Why a double has no nearest integer. -/
inductive RoundFault where
  | notANumber
  | infinite
  deriving DecidableEq

def RoundFault.message : RoundFault → String
  | .notANumber => "cannot convert float NaN to integer"
  | .infinite => "cannot convert float infinity to integer"

/-- Round to the nearest integer, a half away from zero. The half is added in
    double arithmetic, so a value next to a half may round up. -/
def roundAway (x : Float) : Except RoundFault Int :=
  let towards := if x ≥ 0 then x + 0.5 else x - 0.5
  match ofFloat towards with
  | .notANumber => .error .notANumber
  | .infinite _ => .error .infinite
  | .finite m e => .ok (if x ≥ 0 then floor m e else ceil m e)

end Double

end Yolol
