-- SUMMARY: When two JSON values count as equal, though they are written differently.
import Yolol.Json

/-!
# Equality of JSON values

Numbers are equal if they denote the same number, whether they are whole or have a
fraction, and a truth value counts as one or zero. Fields may stand in any order. As a
part of something, what is no number equals itself, but as a value of its own it equals
nothing.
-/

namespace Yolol.Json

/-- The number that a value counts as. -/
def number? : Json → Option Double
  | .bool b => some (.finite (if b then 1 else 0) 0)
  | .int n => some (.finite n 0)
  | .float bits => some (.ofBits bits)
  | _ => none

/-- Whether two values count as the same number. -/
def sameNumber (a b : Json) : Bool :=
  match a.number?, b.number? with
  | some x, some y => x.agrees y
  | _, _ => false

/-- A double that is no number. -/
def isNotANumber (j : Json) : Bool :=
  match j.number? with
  | some .notANumber => true
  | _ => false

mutual
/-- Whether two values count as equal where they are parts of something. -/
def agrees : Json → Json → Bool
  | .null, .null => true
  | .str s, .str t => s == t
  | .arr as, .arr bs => agreesAll as bs
  | .obj fs, .obj gs => fs.length == gs.length && agreesFields gs fs
  | a, b => sameNumber a b

/-- Whether two lists agree item by item. -/
def agreesAll : List Json → List Json → Bool
  | [], [] => true
  | a :: as, b :: bs => agrees a b && agreesAll as bs
  | _, _ => false

/-- Whether each field has a counterpart in `others`. -/
def agreesFields (others : List (String × Json)) : List (String × Json) → Bool
  | [] => true
  | (k, a) :: fs =>
    (match field? k others with
     | none => false
     | some b => agrees a b.val) && agreesFields others fs
end

end Yolol.Json
