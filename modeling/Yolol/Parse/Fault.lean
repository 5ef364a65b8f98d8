-- SUMMARY: What can be wrong with a list of tokens, and what had been read by then.
import Yolol.Node.Source
import Yolol.Number.Literal
import Yolol.Token

/-!
# Parse faults

A fault says what was missing and keeps the tree that had been built before it. A
fault in the right operand of a binary operator becomes the cause of a fault of the
whole operation, which keeps the left operand instead. A fault of an expression
becomes the cause of a fault of its statement.
-/

namespace Yolol.Parse

/-- How a fault is classified. -/
inductive FaultKind where
  /-- Nothing was recognised at all. -/
  | noRule
  /-- An operator or a word stands without what has to follow it. -/
  | noExtension
  | repeatedElse
  | unbalancedParenthesis
  deriving DecidableEq

def FaultKind.name : FaultKind → String
  | .noRule => "NoParseRuleMatch"
  | .noExtension => "NoExtensionAvailable"
  | .repeatedElse => "RepeatedElseTokens"
  | .unbalancedParenthesis => "UnbalancedParenthesis"

-- ---------------------------------------------------------------------------
-- Expressions
-- ---------------------------------------------------------------------------

inductive ExpressionFault where
  /-- No expression starts at the token found. -/
  | expected (found : Option Token)
  /-- The right operand of `op` is at fault. -/
  | badOperand (op : Operator) (left : Node) (inner : ExpressionFault)
  /-- No operand follows the binary operator `op`. -/
  | nothingAfter (op : Operator) (left : Node)
  /-- No operand follows the unary operator `op`. -/
  | missingOperand (op : Operator) (found : Option Token)
  /-- No closing parenthesis follows `inner`. -/
  | unclosed (inner : Node)
  deriving DecidableEq

namespace ExpressionFault

/-- What messages call the operation that a binary operator makes. -/
def operationName : Operator → String
  | .and => "an and"
  | .or => "an or"
  | .equal | .notEqual => "an equality"
  | .less | .lessEqual | .greater | .greaterEqual => "an order"
  | .add | .sub => "an additive"
  | .mul | .div | .mod => "a multiply"
  | _ => "an exponent"

def kind : ExpressionFault → FaultKind
  | .expected _ => .noRule
  | .badOperand .. | .nothingAfter .. | .missingOperand .. => .noExtension
  | .unclosed _ => .unbalancedParenthesis

/-- What had been read. -/
def fragment : ExpressionFault → Option Node
  | .expected _ | .missingOperand .. => none
  | .badOperand _ left _ | .nothingAfter _ left => some left
  | .unclosed inner => some inner

def text : ExpressionFault → String
  | .expected found => "expected an expression, found " ++ Token.describe found
  | .badOperand op _ inner =>
    "syntax error in parsing " ++ operationName op ++ ": bad operand after '" ++ op.symbol ++ "': "
      ++ (inner.kind.name ++ ": " ++ inner.text)
  | .nothingAfter op _ =>
    "syntax error in parsing " ++ operationName op ++ ": nothing after '" ++ op.symbol ++ "'"
  | .missingOperand op found =>
    "'" ++ op.symbol ++ "' is missing its operand, found " ++ Token.describe found
  | .unclosed inner => "saw '(' and parsed " ++ inner.source ++ ", found no ')'"

def message (f : ExpressionFault) : String := f.kind.name ++ ": " ++ f.text

/-- The faults behind this one, the nearest first. -/
def causes : ExpressionFault → List ExpressionFault
  | .badOperand _ _ inner => inner :: causes inner
  | _ => []

end ExpressionFault

-- ---------------------------------------------------------------------------
-- Statements
-- ---------------------------------------------------------------------------

inductive StatementFault where
  /-- An expression of the statement is at fault. -/
  | expression (inner : ExpressionFault)
  | missingThen (found : Option Token)
  | repeatedElse (condition : Node) (body otherwise : List Node)
  | missingEnd (condition : Node) (body otherwise : List Node)
  deriving DecidableEq

namespace StatementFault

def kind : StatementFault → FaultKind
  | .expression inner => inner.kind
  | .missingThen _ | .missingEnd .. => .noExtension
  | .repeatedElse .. => .repeatedElse

/-- What had been read; an expression counts as a statement of its own. -/
def fragment : StatementFault → Option Node
  | .expression inner => inner.fragment.map .evaluation
  | .missingThen _ => none
  | .repeatedElse condition body otherwise => some (.ifElse condition body otherwise)
  | .missingEnd condition body otherwise => some (.conditional condition body otherwise)

def text : StatementFault → String
  | .expression inner => inner.text
  | .missingThen found => "can't find 'then' to extend if, found " ++ Token.describe found
  | .repeatedElse .. => "found an else token after already finding one for this if"
  | .missingEnd .. => "didn't hit end while parsing if statement"

def message (f : StatementFault) : String := f.kind.name ++ ": " ++ f.text

/-- The faults behind this one, the nearest first. -/
def causes : StatementFault → List ExpressionFault
  | .expression inner => inner :: inner.causes
  | _ => []

end StatementFault

-- ---------------------------------------------------------------------------
-- Tokens without a meaning
-- ---------------------------------------------------------------------------

/-- What is wrong with a single token of the right kind. -/
inductive TokenFault where
  /-- A number or an identifier without text. -/
  | missingText
  /-- The text of a number denotes none. -/
  | literal (fault : Number.LiteralFault)
  deriving DecidableEq

/-- Why reading stops: the tokens stand in the wrong order, or one has no meaning.
    Only the former is wrapped on the way out. -/
inductive Failure (φ : Type) where
  | fault (fault : φ)
  | token (fault : TokenFault)
  deriving DecidableEq

end Yolol.Parse
