-- SUMMARY: What the operators do to values.
import Yolol.Run.Fault

/-!
# Operations

Operators act on values alone; steps of a variable, which also change the
environment, are not among them. Whether the operands fit is checked before anything
is computed.
-/

namespace Yolol.Run

/-- An approximate result, or the fault that `wrap` makes of its absence. -/
def approximate (wrap : Number.ApproximateFault → RuntimeFault)
    (result : Except Number.ApproximateFault Number) : Except RuntimeFault Value :=
  match result with
  | .ok n => .ok (.number n)
  | .error e => .error (wrap e)

/-- An exact result, or its fault. -/
def exact (result : Except Number.ArithmeticFault Number) : Except RuntimeFault Value :=
  match result with
  | .ok n => .ok (.number n)
  | .error e => .error (.arithmetic e)

/-- Functions of one number. -/
def applyToNumber (op : Operator) (n : Number) : Except RuntimeFault Value :=
  match op with
  | .negate => .ok (.number n.neg)
  | .abs => .ok (.number n.abs)
  | .factorial =>
    match n.factorial? with
    | some m => .ok (.number m)
    | none => .error (.factorial n)
  | .sqrt => if n.raw < 0 then .error (.squareRoot n) else approximate .approximate n.sqrt
  | .sin => approximate .approximate n.sin
  | .cos => approximate .approximate n.cos
  | .tan => approximate .approximate n.tan
  | .arcsin => if n.isCosine then approximate .approximate n.arcsin else .error (.arc op n)
  | .arccos => if n.isCosine then approximate .approximate n.arccos else .error (.arc op n)
  | .arctan => approximate .approximate n.arctan
  | _ => .error (.unaryOperator op)

/-- An operator with one operand. -/
def applyUnary (op : Operator) (v : Value) : Except RuntimeFault Value :=
  if op = .not then .ok (.ofBool (!v.isTruthy))
  else match v with
    | .number n => applyToNumber op n
    | v => .error (.operand op v)

/-- Operators on two numbers. -/
def applyToNumbers (op : Operator) (a b : Number) : Except RuntimeFault Value :=
  match op with
  | .add => .ok (.number (a.add b))
  | .sub => .ok (.number (a.sub b))
  | .mul => .ok (.number (a.mul b))
  | .div => exact (a.div b)
  | .mod => exact (a.mod b)
  | .pow => approximate (.power a b) (a.pow b)
  | .less => .ok (.ofBool (a.raw < b.raw))
  | .lessEqual => .ok (.ofBool (a.raw ≤ b.raw))
  | .greater => .ok (.ofBool (b.raw < a.raw))
  | .greaterEqual => .ok (.ofBool (b.raw ≤ a.raw))
  | _ => .error (.binaryOperator op)

/-- An operator with two operands. -/
def applyBinary (op : Operator) (a b : Value) : Except RuntimeFault Value :=
  match op with
  | .equal => .ok (.ofBool (a.agrees b))
  | .notEqual => .ok (.ofBool (!a.agrees b))
  | .and => .ok (.ofBool (a.isTruthy && b.isTruthy))
  | .or => .ok (.ofBool (a.isTruthy || b.isTruthy))
  | op =>
    match a, b with
    | .number m, .number n => applyToNumbers op m n
    | .text s, .text t => if op = .add then .ok (.text (s ++ t)) else .error (.operands op a b)
    | _, _ => .error (.operands op a b)

/-- The number that a step leaves in a variable. -/
def stepped (op : Operator) (n : Number) : Number :=
  if op = .preIncrement ∨ op = .postIncrement then n.add .one else n.sub .one

/-- What a step gives: the old number if its operator stands behind the variable. -/
def stepValue (op : Operator) (old : Number) : Number :=
  if op = .preIncrement ∨ op = .preDecrement then stepped op old else old

end Yolol.Run
