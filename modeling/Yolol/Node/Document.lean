-- SUMMARY: A tree as a JSON document, and a document as a tree.
import Yolol.Json
import Yolol.Node
import Yolol.Number.Literal

/-!
# Documents

Every node is an object that names its type; numbers are kept as literals, so none
of their digits is lost. Reading a document checks the type and the presence of the
fields, but not what kind of node stands in a field, nor that a comment, a text or a
name is a text, and it ignores fields that it does not know. Reading what was written
gives the same tree back.
-/

namespace Yolol.Node

-- ---------------------------------------------------------------------------
-- Types of nodes
-- ---------------------------------------------------------------------------

/-- The types that an object can name. -/
inductive Shape where
  | number | text | identifier | group
  | value | unary | binary
  | comment | goto | conditional | assignment | evaluation
  | line | program
  deriving DecidableEq

namespace Shape

def name : Shape → String
  | .number => "Number"
  | .text => "String"
  | .identifier => "Identifier"
  | .group => "Group"
  | .value => "ValueExpr"
  | .unary => "UnaryOp"
  | .binary => "BinaryOp"
  | .comment => "Comment"
  | .goto => "Goto"
  | .conditional => "If"
  | .assignment => "Assignment"
  | .evaluation => "ExpressionStatement"
  | .line => "Line"
  | .program => "Program"

/-- Every type, once. -/
def all : List Shape :=
  [.number, .text, .identifier, .group, .value, .unary, .binary, .comment, .goto, .conditional,
   .assignment, .evaluation, .line, .program]

/-- The type of the given name. -/
def ofName? (s : String) : Option Shape := all.find? fun shape => shape.name == s

end Shape

-- ---------------------------------------------------------------------------
-- Writing
-- ---------------------------------------------------------------------------

/-- The object of a node of the given type. -/
def object (shape : Shape) (fields : List (String × Json)) : Json :=
  .obj (("type", .str shape.name) :: fields)

mutual
/-- The document of a tree. -/
def toJson : Node → Json
  | .missing => .null
  | .misfit .comment content => object .comment [("text", content)]
  | .misfit .text content => object .text [("value", content)]
  | .misfit (.name shared) content =>
    object .identifier [("name", content), ("is_global", .bool shared)]
  | .number n => object .number [("value", .str n.toLiteral)]
  | .text s => object .text [("value", .str s)]
  | .identifier id =>
    object .identifier [("name", .str id.name), ("is_global", .bool id.shared)]
  | .group a => object .group [("expr", a.toJson)]
  | .value a => object .value [("value", a.toJson)]
  | .unary op a => object .unary [("op", .str op.name), ("operand", a.toJson)]
  | .binary op a b =>
    object .binary [("op", .str op.name), ("left", a.toJson), ("right", b.toJson)]
  | .comment s => object .comment [("text", .str s)]
  | .goto a => object .goto [("expr", a.toJson)]
  | .ifThen c body =>
    object .conditional
      [("condition", c.toJson), ("body", .arr (toJsonAll body)), ("else_body", .null)]
  | .ifElse c body otherwise =>
    object .conditional
      [("condition", c.toJson), ("body", .arr (toJsonAll body)),
       ("else_body", .arr (toJsonAll otherwise))]
  | .assignment target op a =>
    object .assignment
      [("target", target.toJson), ("op", .str op.name), ("expr", a.toJson)]
  | .evaluation a => object .evaluation [("expr", a.toJson)]
  | .line statements => object .line [("statements", .arr (toJsonAll statements))]
  | .program lines => object .program [("lines", .arr (toJsonAll lines))]

/-- The documents of the trees, one by one. -/
def toJsonAll : List Node → List Json
  | [] => []
  | a :: as => a.toJson :: toJsonAll as
end

-- ---------------------------------------------------------------------------
-- Reading
-- ---------------------------------------------------------------------------

/-- Why a JSON value is no document. -/
inductive DocumentFault where
  /-- A node is neither an object nor absent. -/
  | notAnObject
  | unknownType (type : Json)
  | missingField (key : String)
  | unknownOperator (op : Json)
  /-- A list of nodes is a value that has no items. -/
  | noItems (found : Json)
  /-- The literal of a number is no text. -/
  | notAText
  | literal (fault : Number.LiteralFault)

/-- A type as messages show it: text without quotes. -/
def shownType : Json → String
  | .str s => s
  | j => j.dump

def DocumentFault.message : DocumentFault → String
  | .notAnObject => "Invalid AST object"
  | .unknownType type => "Unknown AST node type: " ++ shownType type
  | .missingField key => Text.quoted key
  | .unknownOperator op => op.dump ++ " is not a valid Operator"
  | .noItems found => "'" ++ found.typeName ++ "' object is not iterable"
  | .notAText => "text expected, found another value"
  | .literal fault => fault.message

abbrev Fields := List (String × Json)

/-- A field that has to be there. -/
def requiredField (key : String) (fields : Fields) : Except DocumentFault Json :=
  match Json.field? key fields with
  | none => .error (.missingField key)
  | some j => .ok j.val

/-- The node that `make` builds of a text; any other value is a misfit. -/
def ofContent (role : Role) (make : String → Node) : Json → Node
  | .str s => make s
  | content => .misfit role content

/-- A field with a text. -/
def textField (key : String) (fields : Fields) : Except DocumentFault String := do
  match ← requiredField key fields with
  | .str s => .ok s
  | _ => .error .notAText

/-- A field with the name of an operator. -/
def operatorField (fields : Fields) : Except DocumentFault Operator := do
  let j ← requiredField "op" fields
  let found := match j with
    | .str s => Operator.ofName? s
    | _ => none
  match found with
  | some op => .ok op
  | none => .error (.unknownOperator j)

/-- A field that counts as false if it is absent. -/
def flagField (key : String) (fields : Fields) : Bool :=
  match Json.field? key fields with
  | none => false
  | some j => j.val.isTruthy

/-- A number from the text of its literal. -/
def numberField (fields : Fields) : Except DocumentFault Number := do
  match Number.ofLiteral (← textField "value" fields) with
  | .ok n => .ok n
  | .error e => .error (.literal e)

/-- The type that an object names. -/
def shapeField (fields : Fields) : Except DocumentFault Shape :=
  let type : Json := (Json.field? "type" fields).elim .null (·.val)
  let found := match type with
    | .str s => Shape.ofName? s
    | _ => none
  match found with
  | some shape => .ok shape
  | none => .error (.unknownType type)

mutual
/-- The tree of a document. Fields are read in the order in which they are written, so
    the first fault in that order counts. -/
def ofJson : Json → Except DocumentFault Node
  | .null => .ok .missing
  | .obj fields => do
    match ← shapeField fields with
    | .number => return .number (← numberField fields)
    | .text => return ofContent .text .text (← requiredField "value" fields)
    | .identifier =>
      let shared := flagField "is_global" fields
      return ofContent (.name shared) (.identifier ⟨·, shared⟩) (← requiredField "name" fields)
    | .group => return .group (← child "expr" fields)
    | .value => return .value (← child "value" fields)
    | .unary =>
      let op ← operatorField fields
      return .unary op (← child "operand" fields)
    | .binary =>
      let op ← operatorField fields
      let left ← child "left" fields
      return .binary op left (← child "right" fields)
    | .comment => return ofContent .comment .comment (← requiredField "text" fields)
    | .goto => return .goto (← child "expr" fields)
    | .conditional =>
      let condition ← child "condition" fields
      let body ← children "body" fields
      match ← optionalChildren "else_body" fields with
      | none => return .ifThen condition body
      | some otherwise => return .ifElse condition body otherwise
    | .assignment =>
      let target ← child "target" fields
      let op ← operatorField fields
      return .assignment target op (← child "expr" fields)
    | .evaluation => return .evaluation (← child "expr" fields)
    | .line => return .line (← children "statements" fields)
    | .program => return .program (← children "lines" fields)
  | _ => .error .notAnObject
termination_by j => sizeOf j

/-- The tree in a field. -/
def child (key : String) (fields : Fields) : Except DocumentFault Node :=
  match Json.field? key fields with
  | none => .error (.missingField key)
  | some ⟨j, _⟩ => ofJson j
termination_by sizeOf fields

/-- The trees in a field. -/
def children (key : String) (fields : Fields) : Except DocumentFault (List Node) :=
  match Json.field? key fields with
  | none => .error (.missingField key)
  | some ⟨j, _⟩ => items j
termination_by sizeOf fields

/-- The trees in a field that may be absent or null. -/
def optionalChildren (key : String) (fields : Fields) :
    Except DocumentFault (Option (List Node)) :=
  match Json.field? key fields with
  | none => .ok none
  | some ⟨j, _⟩ => if j.isNull then .ok none else return some (← items j)
termination_by sizeOf fields

/-- The trees in a list. A text has its characters for items, and an object its keys, but
    neither is a node. -/
def items : Json → Except DocumentFault (List Node)
  | .arr js => ofJsonAll js
  | .obj keys => if keys.isEmpty then .ok [] else .error .notAnObject
  | .str s => if s.isEmpty then .ok [] else .error .notAnObject
  | j => .error (.noItems j)
termination_by j => sizeOf j

/-- The trees of the documents, one by one. -/
def ofJsonAll : List Json → Except DocumentFault (List Node)
  | [] => .ok []
  | j :: js => do
    let a ← ofJson j
    return a :: (← ofJsonAll js)
termination_by js => sizeOf js
end

end Yolol.Node
