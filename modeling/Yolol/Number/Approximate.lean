-- SUMMARY: Roots, powers and angles, computed in doubles and rounded to four places.
import Yolol.Double
import Yolol.Number.Basic

/-!
# Approximate arithmetic

Functions that are not exact on decimals are computed in doubles. The double
nearest to the number goes in, and the result is rounded to the fourth place,
a half away from zero, and saturated.
-/

namespace Yolol

namespace Number

/-- The double nearest to `n`. -/
def toFloat (n : Number) : Float :=
  let magnitude := Float.ofScientific n.raw.natAbs true 4
  if n.raw < 0 then -magnitude else magnitude

/-- Why a double gives no number. -/
inductive ApproximateFault where
  /-- The result is not a number. -/
  | notANumber
  /-- The function has no value there. -/
  | outsideDomain
  deriving DecidableEq

def ApproximateFault.message : ApproximateFault → String
  | .notANumber => "result is not a number"
  | .outsideDomain => "math domain error"

/-- The least double that saturates. -/
def saturationPoint : Float := greatest.toFloat

/-- The number nearest to `x`. -/
def ofFloat (x : Float) : Except ApproximateFault Number :=
  if x.isNaN then .error .notANumber
  else if x.abs ≥ saturationPoint then .ok (if x > 0 then greatest else least)
  else match Double.roundAway (x * 10000) with
    | .ok units => .ok (ofRaw units)
    | .error _ => .error .notANumber

/-- `a` to the power `b`. Zero has no negative power, and a negative number only
    whole ones. A power beyond every double saturates with the sign that an odd
    exponent keeps. -/
def pow (a b : Number) : Except ApproximateFault Number :=
  let power := a.toFloat.pow b.toFloat
  if power.isNaN then .error .outsideDomain
  else if power.isInf then
    if a.raw = 0 then .error .outsideDomain
    else .ok (if a.raw < 0 && b.isWhole && b.truncate % 2 == 1 then least else greatest)
  else ofFloat power

-- ---------------------------------------------------------------------------
-- Angles
-- ---------------------------------------------------------------------------

/-- The circle constant as a double. -/
def pi : Float := 3.141592653589793

/-- Angles are given in degrees. -/
def radians (n : Number) : Float := n.toFloat * (pi / 180.0)

def ofRadians (x : Float) : Except ApproximateFault Number := ofFloat (x * (180.0 / pi))

def sqrt (n : Number) : Except ApproximateFault Number := ofFloat n.toFloat.sqrt
def sin (n : Number) : Except ApproximateFault Number := ofFloat n.radians.sin
def cos (n : Number) : Except ApproximateFault Number := ofFloat n.radians.cos
def tan (n : Number) : Except ApproximateFault Number := ofFloat n.radians.tan
def arcsin (n : Number) : Except ApproximateFault Number := ofRadians n.toFloat.asin
def arccos (n : Number) : Except ApproximateFault Number := ofRadians n.toFloat.acos
def arctan (n : Number) : Except ApproximateFault Number := ofRadians n.toFloat.atan

/-- Arcsine and arccosine are defined between minus one and one. -/
def isCosine (n : Number) : Bool := -scale ≤ n.raw && n.raw ≤ scale

end Number

end Yolol
