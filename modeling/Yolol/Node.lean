-- SUMMARY: The tree of a program: values, expressions, statements, lines.
import Yolol.Json
import Yolol.Number.Basic
import Yolol.Operator

/-!
# Trees

One type holds every node. The parser builds only trees in which each child is
of the kind that its place asks for, but a tree read from a document may put any
node anywhere, leave a child out, or put some other value where a text belongs, and
such a tree can still be stored and run up to the place where it makes no sense. What
a well-built tree looks like is stated by predicates over this type.
-/

namespace Yolol

/-- The name of a variable; shared variables are written with a leading colon. -/
structure Identifier where
  name : String
  shared : Bool := false
  deriving DecidableEq

namespace Identifier

/-- Read a name as it stands in source text. -/
def ofSource (text : String) : Identifier :=
  match text.toList with
  | ':' :: rest => ⟨String.ofList rest, true⟩
  | _ => ⟨text, false⟩

/-- The name as it stands in source text. -/
def source (id : Identifier) : String := if id.shared then ":" ++ id.name else id.name

end Identifier

/-- What a text in a tree is for. -/
inductive Node.Role where
  | comment
  | text
  | name (shared : Bool)
  deriving DecidableEq

inductive Node where
  /-- A child that a document leaves out. -/
  | missing
  /-- A comment, a text or a variable with some other value in the place of its text. -/
  | misfit (role : Node.Role) (content : Json)
  -- Values
  | number (value : Number)
  | text (value : String)
  | identifier (id : Identifier)
  | group (inner : Node)
  -- Expressions
  | value (inner : Node)
  | unary (op : Operator) (operand : Node)
  | binary (op : Operator) (left right : Node)
  -- Statements
  | comment (text : String)
  | goto (target : Node)
  | ifThen (condition : Node) (body : List Node)
  | ifElse (condition : Node) (body otherwise : List Node)
  | assignment (target : Node) (op : Operator) (expr : Node)
  | evaluation (expr : Node)
  -- Lines
  | line (statements : List Node)
  | program (lines : List Node)
  deriving Inhabited

namespace Node

-- ---------------------------------------------------------------------------
-- Equality
-- ---------------------------------------------------------------------------

mutual
/-- Structural equality. -/
def same : Node → Node → Bool
  | .missing, .missing => true
  | .misfit r a, .misfit s b => r == s && a == b
  | .number m, .number n => m == n
  | .text s, .text t => s == t
  | .identifier i, .identifier j => i == j
  | .group a, .group b => same a b
  | .value a, .value b => same a b
  | .unary o a, .unary p b => o == p && same a b
  | .binary o a b, .binary p c d => o == p && same a c && same b d
  | .comment s, .comment t => s == t
  | .goto a, .goto b => same a b
  | .ifThen a as, .ifThen b bs => same a b && sameAll as bs
  | .ifElse a as cs, .ifElse b bs ds => same a b && sameAll as bs && sameAll cs ds
  | .assignment a o b, .assignment c p d => same a c && o == p && same b d
  | .evaluation a, .evaluation b => same a b
  | .line as, .line bs => sameAll as bs
  | .program as, .program bs => sameAll as bs
  | _, _ => false

/-- Structural equality of lists, item by item. -/
def sameAll : List Node → List Node → Bool
  | [], [] => true
  | a :: as, b :: bs => same a b && sameAll as bs
  | _, _ => false
end

mutual
theorem same_iff (a b : Node) : same a b = true ↔ a = b := by
  match a with
  | .missing | .misfit .. | .number _ | .text _ | .identifier _ | .comment _ =>
    cases b <;> simp [same]
  | .group x | .value x | .goto x | .evaluation x =>
    cases b <;> simp [same, same_iff x]
  | .unary _ x => cases b <;> simp [same, same_iff x]
  | .binary _ x y => cases b <;> simp [same, same_iff x, same_iff y, and_assoc]
  | .assignment x _ y => cases b <;> simp [same, same_iff x, same_iff y, and_assoc]
  | .ifThen x xs => cases b <;> simp [same, same_iff x, sameAll_iff xs]
  | .ifElse x xs ys =>
    cases b <;> simp [same, same_iff x, sameAll_iff xs, sameAll_iff ys, and_assoc]
  | .line xs | .program xs => cases b <;> simp [same, sameAll_iff xs]

theorem sameAll_iff (as bs : List Node) : sameAll as bs = true ↔ as = bs := by
  match as with
  | [] => cases bs <;> simp [sameAll]
  | a :: as => cases bs <;> simp [sameAll, same_iff a, sameAll_iff as]
end

instance : DecidableEq Node := fun a b => decidable_of_iff _ (same_iff a b)

-- ---------------------------------------------------------------------------
-- Parts
-- ---------------------------------------------------------------------------

/-- A conditional; an else part without statements is no else part. -/
def conditional (condition : Node) (body otherwise : List Node) : Node :=
  if otherwise.isEmpty then .ifThen condition body else .ifElse condition body otherwise

/-- An expression, as opposed to a value or a statement. -/
def isExpression : Node → Bool
  | .value _ | .unary .. | .binary .. => true
  | _ => false

/-- What a value is called that holds others, and so cannot stand for a variable. -/
def collectionName? (content : Json) : Option String :=
  match content with
  | .arr _ | .obj _ => some content.typeName
  | _ => none

/-- The first collection in a node. A node without one can stand for a variable. -/
def collection? : Node → Option String
  | .missing | .number _ | .text _ | .identifier _ | .comment _ => none
  | .misfit _ content => collectionName? content
  | .group a | .value a | .unary _ a | .goto a | .evaluation a => a.collection?
  | .binary _ a b | .assignment a _ b => a.collection? <|> b.collection?
  | .ifThen a _ | .ifElse a _ _ => a.collection? <|> some "list"
  | .line _ | .program _ => some "list"

end Node

end Yolol
