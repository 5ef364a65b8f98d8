-- SUMMARY: What can go wrong when a tree runs.
import Yolol.Number.Approximate
import Yolol.Parse.Fault
import Yolol.Value

/-!
# Run faults

A runtime fault is the program's own: the host records it and goes on. A tree fault
means that the tree is none that the parser builds, and ends the run.
-/

namespace Yolol.Run

-- ---------------------------------------------------------------------------
-- Faults of the program
-- ---------------------------------------------------------------------------

inductive RuntimeFault where
  /-- A jump to a value that is no number. -/
  | gotoTarget (found : Value)
  /-- A step of something that is no variable. -/
  | stepWithoutVariable (op : Operator)
  /-- A step of a variable that holds no number. -/
  | stepOf (op : Operator) (target : Node) (found : Value)
  /-- A function of one number, applied to another value. -/
  | operand (op : Operator) (found : Value)
  /-- An operator that does not apply to one operand. -/
  | unaryOperator (op : Operator)
  /-- A binary operator on values that do not go together. -/
  | operands (op : Operator) (left right : Value)
  /-- An operator that does not apply to two operands. -/
  | binaryOperator (op : Operator)
  | arithmetic (fault : Number.ArithmeticFault)
  | factorial (n : Number)
  | squareRoot (n : Number)
  /-- An angle of something that is no sine or cosine. -/
  | arc (op : Operator) (n : Number)
  | approximate (fault : Number.ApproximateFault)
  | power (a b : Number) (fault : Number.ApproximateFault)
  deriving DecidableEq

namespace RuntimeFault

/-- How a fault is classified. -/
def className : RuntimeFault → String
  | .gotoTarget _ | .stepWithoutVariable _ | .stepOf .. | .operand .. | .unaryOperator _
  | .operands .. | .binaryOperator _ => "TypeError"
  | .arithmetic _ => "ZeroDivisionError"
  | .factorial _ | .squareRoot _ | .arc .. | .approximate _ | .power .. => "DomainError"

def factorialText (n : Number) : String :=
  "factorial needs a non-negative integer, got " ++ n.toLiteral

def text : RuntimeFault → String
  | .gotoTarget found => "goto expects a Number, got " ++ found.kindName
  | .stepWithoutVariable op => op.name ++ " needs a variable"
  | .stepOf op target found =>
    op.name ++ " expects a Number in " ++ target.source ++ ", got " ++ found.kindName
  | .operand op found => op.name ++ " expects a Number, got " ++ found.kindName
  | .unaryOperator op => "unsupported unary operator " ++ op.name
  | .operands op left right =>
    "unsupported " ++ op.symbol ++ " for " ++ left.kindName ++ " and " ++ right.kindName
  | .binaryOperator op => "unknown operator " ++ op.name
  | .arithmetic fault => fault.message
  | .factorial n => factorialText n
  | .squareRoot n => "square root of negative number " ++ n.toLiteral
  | .arc op n => op.symbol ++ " of " ++ n.toLiteral ++ " is outside [-1, 1]"
  | .approximate fault => fault.message
  | .power a b fault => a.toLiteral ++ " ^ " ++ b.toLiteral ++ ": " ++ fault.message

def message (f : RuntimeFault) : String := f.className ++ ": " ++ f.text

end RuntimeFault

-- ---------------------------------------------------------------------------
-- Faults of the tree
-- ---------------------------------------------------------------------------

inductive TreeFault where
  | notAStatement (found : Node)
  | notAnExpression (found : Node)
  /-- An assignment whose operator is none. -/
  | notAnAssignment (op : Operator)
  /-- A node that cannot stand for a variable, for the collection in it. -/
  | notAVariable (collection : String)
  /-- A line that cannot be written, for the name in it. -/
  | unwritable (name : Json)
  | notAProgram (found : Node)
  | notALine (found : Node)
  deriving DecidableEq

namespace TreeFault

/-- What messages call the type of a node. -/
def typeName : Node → String
  | .missing => "NoneType"
  | .number _ => "yolol.ast.NumberValue"
  | .text _ | .misfit .text _ => "yolol.ast.StringValue"
  | .identifier _ | .misfit (.name _) _ => "yolol.ast.Identifier"
  | .group _ => "yolol.ast.Group"
  | .value _ => "yolol.ast.ValueExpr"
  | .unary .. => "yolol.ast.UnaryOp"
  | .binary .. => "yolol.ast.BinaryOp"
  | .comment _ | .misfit .comment _ => "yolol.ast.Comment"
  | .goto _ => "yolol.ast.Goto"
  | .ifThen .. | .ifElse .. => "yolol.ast.If"
  | .assignment .. => "yolol.ast.Assignment"
  | .evaluation _ => "yolol.ast.ExpressionStatement"
  | .line _ => "yolol.ast.Line"
  | .program _ => "yolol.ast.Program"

def message : TreeFault → String
  | .notAStatement found => "execute: unexpected node type <class '" ++ typeName found ++ "'>"
  | .notAnExpression found => "evaluate: unexpected node type <class '" ++ typeName found ++ "'>"
  | .notAnAssignment op => op.dump
  | .notAVariable collection => "unhashable type: '" ++ collection ++ "'"
  | .unwritable name => "__str__ returned non-string (type " ++ name.typeName ++ ")"
  | .notAProgram found => "no lines in " ++ typeName found
  | .notALine found => "no statements in " ++ typeName found

end TreeFault

/-- Why a run stops. -/
inductive Fault where
  | runtime (fault : RuntimeFault)
  | tree (fault : TreeFault)
  /-- A line of source text holds a token without a meaning. -/
  | token (fault : Parse.TokenFault)
  deriving DecidableEq

end Yolol.Run
