-- SUMMARY: JSON values, their fields, and how messages show them.
import Yolol.Double.Shortest
import Yolol.Text.Quoted

/-!
# JSON values

Whole numbers are kept exactly; numbers with a fraction or an exponent are doubles.
The fields of an object keep their order, and no key occurs twice.
-/

namespace Yolol

inductive Json where
  | null
  | bool (value : Bool)
  | int (value : Int)
  /-- A double, by its bits. -/
  | float (bits : UInt64)
  | str (value : String)
  | arr (items : List Json)
  | obj (fields : List (String × Json))
  deriving Inhabited

namespace Json

-- ---------------------------------------------------------------------------
-- Equality
-- ---------------------------------------------------------------------------

mutual
/-- Structural equality. -/
def same : Json → Json → Bool
  | .null, .null => true
  | .bool a, .bool b => a == b
  | .int m, .int n => m == n
  | .float x, .float y => x == y
  | .str s, .str t => s == t
  | .arr as, .arr bs => sameAll as bs
  | .obj fs, .obj gs => sameFields fs gs
  | _, _ => false

/-- Structural equality of lists, item by item. -/
def sameAll : List Json → List Json → Bool
  | [], [] => true
  | a :: as, b :: bs => same a b && sameAll as bs
  | _, _ => false

/-- Structural equality of fields, one by one. -/
def sameFields : List (String × Json) → List (String × Json) → Bool
  | [], [] => true
  | (k, a) :: fs, (l, b) :: gs => k == l && same a b && sameFields fs gs
  | _, _ => false
end

mutual
theorem same_iff (a b : Json) : same a b = true ↔ a = b := by
  match a with
  | .null | .bool _ | .int _ | .float _ | .str _ => cases b <;> simp [same]
  | .arr as => cases b <;> simp [same, sameAll_iff as]
  | .obj fs => cases b <;> simp [same, sameFields_iff fs]

theorem sameAll_iff (as bs : List Json) : sameAll as bs = true ↔ as = bs := by
  match as with
  | [] => cases bs <;> simp [sameAll]
  | a :: as => cases bs <;> simp [sameAll, same_iff a, sameAll_iff as]

theorem sameFields_iff (fs gs : List (String × Json)) : sameFields fs gs = true ↔ fs = gs := by
  match fs with
  | [] => cases gs <;> simp [sameFields]
  | (k, a) :: fs =>
    match gs with
    | [] => simp [sameFields]
    | (l, b) :: gs => simp [sameFields, same_iff a, sameFields_iff fs, and_assoc]
end

instance : DecidableEq Json := fun a b => decidable_of_iff _ (same_iff a b)

-- ---------------------------------------------------------------------------
-- Parts
-- ---------------------------------------------------------------------------

/-- The value of a key, which is smaller than the fields it stands in. -/
def field? (key : String) :
    (fields : List (String × Json)) → Option { j : Json // sizeOf j < sizeOf fields }
  | [] => none
  | (k, v) :: rest =>
    if k = key then some ⟨v, by simp; omega⟩
    else (field? key rest).map fun j => ⟨j.val, by have := j.property; simp; omega⟩

def isNull : Json → Bool
  | .null => true
  | _ => false

/-- Whether a value counts as true: it is not null, false, zero or empty. -/
def isTruthy : Json → Bool
  | .null => false
  | .bool b => b
  | .int n => n != 0
  | .float bits => bits.toNat % Double.signBit != 0
  | .str s => s != ""
  | .arr items => !items.isEmpty
  | .obj fields => !fields.isEmpty

/-- What messages call the type of a value. -/
def typeName : Json → String
  | .null => "NoneType"
  | .bool _ => "bool"
  | .int _ => "int"
  | .float _ => "float"
  | .str _ => "str"
  | .arr _ => "list"
  | .obj _ => "dict"

-- ---------------------------------------------------------------------------
-- Text
-- ---------------------------------------------------------------------------

mutual
/-- A value as messages show it. -/
def dump : Json → String
  | .null => "None"
  | .bool b => if b then "True" else "False"
  | .int n => Decimal.int n
  | .float bits => Double.toText bits
  | .str s => Text.quoted s
  | .arr items => "[" ++ ", ".intercalate (dumps items) ++ "]"
  | .obj fields => "\x7b" ++ ", ".intercalate (dumpFields fields) ++ "\x7d"

def dumps : List Json → List String
  | [] => []
  | j :: js => j.dump :: dumps js

def dumpFields : List (String × Json) → List String
  | [] => []
  | (k, v) :: rest => (Text.quoted k ++ ": " ++ v.dump) :: dumpFields rest
end

end Json

end Yolol
