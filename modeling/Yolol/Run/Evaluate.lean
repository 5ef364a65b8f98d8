-- SUMMARY: Running expressions and statements.
import Yolol.Node.Dump
import Yolol.Run.Action
import Yolol.Run.Operation

/-!
# Evaluation

Operands are evaluated from left to right, and both operands of a binary operator
always are. An assignment evaluates its expression before it reads its target. The
statements of a branch run in order, and the first that fails ends the line.
-/

namespace Yolol.Run

/-- The value of the variable that a node stands for. -/
def readVariable (target : Node) : Action Value :=
  match target.collection? with
  | some name => Action.fail (.tree (.notAVariable name))
  | none => do return (← Action.getEnv).read target

/-- Step a variable. -/
def stepVariable (op : Operator) (target : Node) : Action Value := do
  match ← readVariable target with
  | .number old =>
    Action.modifyEnv (·.set target (.number (stepped op old)))
    return .number (stepValue op old)
  | found => Action.fail (.runtime (.stepOf op target found))

/-- Step what an operand stands for. -/
def step (op : Operator) : Node → Action Value
  | .value (.identifier id) => stepVariable op (.identifier id)
  | .value (.misfit (.name shared) content) => stepVariable op (.misfit (.name shared) content)
  | _ => Action.fail (.runtime (.stepWithoutVariable op))

/-- The value of an expression. -/
def evaluate : Node → Action Value
  | .value a => evaluate a
  | .number n => Action.pure (.number n)
  | .text s => Action.pure (.text s)
  | .misfit .text content => Action.pure (.other content)
  | .identifier id => readVariable (.identifier id)
  | .misfit (.name shared) content => readVariable (.misfit (.name shared) content)
  | .group a => evaluate a
  | .unary op a =>
    if op.isStep then step op a
    else do Action.lift (applyUnary op (← evaluate a))
  | .binary op a b => do
    let left ← evaluate a
    let right ← evaluate b
    Action.lift (applyBinary op left right)
  | a => Action.fail (.tree (.notAnExpression a))

/-- The value that an assignment stores, from the value of its expression. -/
def assigned (target : Node) (op : Operator) (value : Value) : Action Value :=
  if op = .assign then Action.pure value
  else
    match op.compound? with
    | none => Action.fail (.tree (.notAnAssignment op))
    | some op => do Action.lift (applyBinary op ((← Action.getEnv).read target) value)

/-- Assign a value to a target. -/
def assign (target : Node) (op : Operator) (value : Value) : Action Unit :=
  match target.collection? with
  | some name => Action.fail (.tree (.notAVariable name))
  | none => do
    let stored ← assigned target op value
    Action.modifyEnv (·.set target stored)
    Action.report ⟨"assign " ++ target.source ++ " = " ++ stored.source, 2⟩

/-- Jump to the line that a value names. -/
def jump : Value → Action Unit
  | .number n => do
    Action.modifyEnv ({ · with nextLine := n.truncate })
    Action.report ⟨"goto " ++ Decimal.int n.truncate, 2⟩
  | found => Action.fail (.runtime (.gotoTarget found))

/-- Whether a condition holds. -/
def test (condition : Node) : Action Bool := do
  let value ← evaluate condition
  Action.report
    ⟨"if condition " ++ value.source ++ " -> " ++ Node.dumpBool value.isTruthy, 3⟩
  return value.isTruthy

mutual
/-- Run a statement. -/
def execute : Node → Action Unit
  | .comment _ | .misfit .comment _ => Action.pure ()
  | .goto a => do jump (← evaluate a)
  | .ifThen c body => do if ← test c then executeAll body else Action.pure ()
  | .ifElse c body otherwise => do
    if ← test c then executeAll body else executeAll otherwise
  | .assignment target op a => do assign target op (← evaluate a)
  | .evaluation a => do let _ ← evaluate a
  | a => Action.fail (.tree (.notAStatement a))

/-- Run statements in order. -/
def executeAll : List Node → Action Unit
  | [] => Action.pure ()
  | a :: as => do
    execute a
    executeAll as
end

end Yolol.Run
