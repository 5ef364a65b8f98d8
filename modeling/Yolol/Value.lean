-- SUMMARY: Runtime values: numbers, texts, and what a document puts in their place.
import Yolol.Json.Equality
import Yolol.Number.Literal

/-!
# Values

A value is a number or a text. A document can put any JSON value where a text belongs;
such a value can be kept, shown and compared, but nothing can be computed from it.
Values of different kinds are never equal, and whatever is no number counts as true.
-/

namespace Yolol

inductive Value where
  | number (n : Number)
  | text (s : String)
  /-- A value of a document that is no text. -/
  | other (content : Json)
  deriving DecidableEq

namespace Value

/-- What an unset variable holds. -/
def zero : Value := .number Number.zero

def ofBool (b : Bool) : Value := .number (Number.ofBool b)

/-- The kind of a value as messages call it. -/
def kindName : Value → String
  | .number _ => "Number"
  | .text _ => "String"
  | .other content => content.typeName

def isTruthy : Value → Bool
  | .number n => !n.isZero
  | .text _ | .other _ => true

/-- Whether two values are of the same kind and equal. -/
def agrees : Value → Value → Bool
  | .number m, .number n => m == n
  | .text s, .text t => s == t
  | .other a, .other b => a.typeName == b.typeName && a.agrees b && !a.isNotANumber
  | _, _ => false

/-- The value as it is written in source text. -/
def source : Value → String
  | .number n => n.toLiteral
  | .text s => "\"" ++ s ++ "\""
  | .other content => content.dump

end Value

end Yolol
