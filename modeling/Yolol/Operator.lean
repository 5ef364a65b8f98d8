-- SUMMARY: The operators of the language, with their names and their spelling.
import Yolol.Text.Quoted

/-!
# Operators

One type holds every operator, since a tree that was read from a document may
carry any of them anywhere. What an operator does there is decided when it runs.
-/

namespace Yolol

inductive Operator where
  -- Arithmetic
  | add | sub | mul | div | mod | pow
  -- Comparison
  | equal | notEqual | less | lessEqual | greater | greaterEqual
  -- Logic
  | and | or | not
  -- Functions of one number
  | negate | abs | sqrt | sin | cos | tan | arcsin | arccos | arctan | factorial
  -- Steps of a variable
  | preIncrement | preDecrement | postIncrement | postDecrement
  -- Assignment
  | assign | addAssign | subAssign | mulAssign | divAssign | modAssign
  deriving DecidableEq

namespace Operator

/-- The name of an operator in documents and messages. -/
def name : Operator → String
  | .add => "Add"
  | .sub => "Sub"
  | .mul => "Mul"
  | .div => "Div"
  | .mod => "Mod"
  | .pow => "Pow"
  | .equal => "Equal"
  | .notEqual => "NotEqual"
  | .less => "Lesser"
  | .lessEqual => "LesserEq"
  | .greater => "Greater"
  | .greaterEqual => "GreaterEq"
  | .and => "And"
  | .or => "Or"
  | .not => "Not"
  | .negate => "Negate"
  | .abs => "Abs"
  | .sqrt => "Sqrt"
  | .sin => "Sin"
  | .cos => "Cos"
  | .tan => "Tan"
  | .arcsin => "Arcsin"
  | .arccos => "Arccos"
  | .arctan => "Arctan"
  | .factorial => "Fact"
  | .preIncrement => "PreInc"
  | .preDecrement => "PreDec"
  | .postIncrement => "PostInc"
  | .postDecrement => "PostDec"
  | .assign => "Assign"
  | .addAssign => "AddAssign"
  | .subAssign => "SubAssign"
  | .mulAssign => "MulAssign"
  | .divAssign => "DivAssign"
  | .modAssign => "ModAssign"

/-- How an operator is written in source text. -/
def symbol : Operator → String
  | .add => "+"
  | .sub => "-"
  | .mul => "*"
  | .div => "/"
  | .mod => "%"
  | .pow => "^"
  | .equal => "=="
  | .notEqual => "!="
  | .less => "<"
  | .lessEqual => "<="
  | .greater => ">"
  | .greaterEqual => ">="
  | .and => "and"
  | .or => "or"
  | .not => "not"
  | .negate => "-"
  | .abs => "abs"
  | .sqrt => "sqrt"
  | .sin => "sin"
  | .cos => "cos"
  | .tan => "tan"
  | .arcsin => "arcsin"
  | .arccos => "arccos"
  | .arctan => "arctan"
  | .factorial => "!"
  | .preIncrement => "++"
  | .preDecrement => "--"
  | .postIncrement => "++"
  | .postDecrement => "--"
  | .assign => "="
  | .addAssign => "+="
  | .subAssign => "-="
  | .mulAssign => "*="
  | .divAssign => "/="
  | .modAssign => "%="

/-- The label of an operator in dumps. -/
def label : Operator → String
  | .add => "ADD"
  | .sub => "SUB"
  | .mul => "MUL"
  | .div => "DIV"
  | .mod => "MOD"
  | .pow => "POW"
  | .equal => "EQUAL"
  | .notEqual => "NOT_EQUAL"
  | .less => "LESSER"
  | .lessEqual => "LESSER_EQ"
  | .greater => "GREATER"
  | .greaterEqual => "GREATER_EQ"
  | .and => "AND"
  | .or => "OR"
  | .not => "NOT"
  | .negate => "NEGATE"
  | .abs => "ABS"
  | .sqrt => "SQRT"
  | .sin => "SIN"
  | .cos => "COS"
  | .tan => "TAN"
  | .arcsin => "ARCSIN"
  | .arccos => "ARCCOS"
  | .arctan => "ARCTAN"
  | .factorial => "FACT"
  | .preIncrement => "PRE_INC"
  | .preDecrement => "PRE_DEC"
  | .postIncrement => "POST_INC"
  | .postDecrement => "POST_DEC"
  | .assign => "ASSIGN"
  | .addAssign => "ADD_ASSIGN"
  | .subAssign => "SUB_ASSIGN"
  | .mulAssign => "MUL_ASSIGN"
  | .divAssign => "DIV_ASSIGN"
  | .modAssign => "MOD_ASSIGN"

/-- The form in which a dump shows an operator. -/
def dump (op : Operator) : String :=
  "<Operator." ++ op.label ++ ": " ++ Text.quoted op.name ++ ">"

/-- Every operator, once. -/
def all : List Operator :=
  [.add, .sub, .mul, .div, .mod, .pow, .equal, .notEqual, .less, .lessEqual, .greater,
   .greaterEqual, .and, .or, .not, .negate, .abs, .sqrt, .sin, .cos, .tan, .arcsin,
   .arccos, .arctan, .factorial, .preIncrement, .preDecrement, .postIncrement,
   .postDecrement, .assign, .addAssign, .subAssign, .mulAssign, .divAssign, .modAssign]

/-- The operator of the given name. -/
def ofName? (s : String) : Option Operator := all.find? fun op => op.name == s

-- ---------------------------------------------------------------------------
-- Classes
-- ---------------------------------------------------------------------------

/-- Operators written as a word in front of their operand. -/
def isWord : Operator → Bool
  | .not | .abs | .sqrt | .sin | .cos | .tan | .arcsin | .arccos | .arctan => true
  | _ => false

/-- Operators written behind their operand. -/
def isTrailing : Operator → Bool
  | .factorial | .postIncrement | .postDecrement => true
  | _ => false

/-- Operators that change the variable they stand at. -/
def isStep : Operator → Bool
  | .preIncrement | .preDecrement | .postIncrement | .postDecrement => true
  | _ => false

/-- The binary operator that a compound assignment applies. -/
def compound? : Operator → Option Operator
  | .addAssign => some .add
  | .subAssign => some .sub
  | .mulAssign => some .mul
  | .divAssign => some .div
  | .modAssign => some .mod
  | _ => none

end Operator

end Yolol
