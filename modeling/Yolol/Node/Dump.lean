-- SUMMARY: A tree written out node by node, for traces.
import Yolol.Node
import Yolol.Number.Literal

/-!
# Dump of a tree

A dump names every node and each of its fields, so that two trees with the same
source text can be told apart.
-/

namespace Yolol.Node

def dumpBool (b : Bool) : String := if b then "True" else "False"

/-- A node from its name and its dumped fields. -/
def dumpFields (name : String) (fields : List (String × String)) : String :=
  name ++ "(" ++ ", ".intercalate (fields.map fun f => f.1 ++ "=" ++ f.2) ++ ")"

def dumpList (items : List String) : String := "[" ++ ", ".intercalate items ++ "]"

mutual
/-- The node with all its fields. -/
def dump : Node → String
  | .missing => "None"
  | .misfit .comment content => dumpFields "Comment" [("text", content.dump)]
  | .misfit .text content => dumpFields "StringValue" [("text", content.dump)]
  | .misfit (.name shared) content =>
    dumpFields "Identifier" [("name", content.dump), ("is_global", dumpBool shared)]
  | .number n => dumpFields "NumberValue" [("number", n.dump)]
  | .text s => dumpFields "StringValue" [("text", Text.quoted s)]
  | .identifier id =>
    dumpFields "Identifier" [("name", Text.quoted id.name), ("is_global", dumpBool id.shared)]
  | .group a => dumpFields "Group" [("expr", a.dump)]
  | .value a => dumpFields "ValueExpr" [("value", a.dump)]
  | .unary op a => dumpFields "UnaryOp" [("op", op.dump), ("operand", a.dump)]
  | .binary op a b => dumpFields "BinaryOp" [("op", op.dump), ("left", a.dump), ("right", b.dump)]
  | .comment s => dumpFields "Comment" [("text", Text.quoted s)]
  | .goto a => dumpFields "Goto" [("expr", a.dump)]
  | .ifThen c body =>
    dumpFields "If"
      [("condition", c.dump), ("body", dumpList (dumps body)), ("else_body", "None")]
  | .ifElse c body otherwise =>
    dumpFields "If"
      [("condition", c.dump), ("body", dumpList (dumps body)),
       ("else_body", dumpList (dumps otherwise))]
  | .assignment target op a =>
    dumpFields "Assignment" [("target", target.dump), ("op", op.dump), ("expr", a.dump)]
  | .evaluation a => dumpFields "ExpressionStatement" [("expr", a.dump)]
  | .line statements => dumpFields "Line" [("statements", dumpList (dumps statements))]
  | .program lines => dumpFields "Program" [("lines", dumpList (dumps lines))]

/-- The nodes with all their fields, one by one. -/
def dumps : List Node → List String
  | [] => []
  | a :: as => a.dump :: dumps as
end

end Yolol.Node
