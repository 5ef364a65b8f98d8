-- SUMMARY: Reading the source text of a tree again, and finding the tree in it.
import Yolol.Parse.Line

/-!
# Reading back

The source text of any tree can be read as a program. If the tree was a line, a
statement or an expression, its counterpart is the only one in that program.
-/

namespace Yolol.Parse

/-- The expression that a statement consists of or ends in. -/
def expressionOf : Node → Node
  | .goto a | .evaluation a | .assignment _ _ a => a
  | _ => .missing

/-- The part of a statement that stands where `node` stood. -/
def narrowStatement (node statement : Node) : Node :=
  if node.isExpression then expressionOf statement else statement

/-- The part of a program that stands where `node` stood, if the program has it. -/
def narrow (node program : Node) : Node :=
  match node, program with
  | .program _, p => p
  | .line _, .program [line] => line
  | node, .program [.line [statement]] => narrowStatement node statement
  | _, p => p

/-- Read the source text of `node` again. -/
def readBack (node : Node) : Except SourceFault Node :=
  match programOfSource node.source with
  | .error f => .error f
  | .ok program => .ok (narrow node program)

end Yolol.Parse
