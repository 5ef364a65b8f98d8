-- SUMMARY: When two nodes stand for the same variable.
import Yolol.Json.Equality
import Yolol.Node

/-!
# Nodes that stand for the same variable

Two nodes stand for the same variable if they are the same up to the values that misfits
hold in the place of a text: of those, equal ones are as good as each other. An
identifier stands for nothing but itself.
-/

namespace Yolol.Node

/-- Whether two nodes without a collection stand for the same variable. -/
def agrees : Node → Node → Bool
  | .misfit r a, .misfit s b => r == s && a.agrees b
  | .group a, .group b => agrees a b
  | .value a, .value b => agrees a b
  | .unary o a, .unary p b => o == p && agrees a b
  | .binary o a b, .binary p c d => o == p && agrees a c && agrees b d
  | .goto a, .goto b => agrees a b
  | .assignment a o b, .assignment c p d => agrees a c && o == p && agrees b d
  | .evaluation a, .evaluation b => agrees a b
  | a, b => a == b

theorem agrees_identifier (id : Identifier) (a : Node) :
    (Node.identifier id).agrees a = true ↔ Node.identifier id = a := by
  cases a <;> simp [agrees]

/-- Nothing else stands for an identifier. -/
theorem agrees_identifier_right (id : Identifier) (a : Node) :
    a.agrees (.identifier id) = true ↔ a = .identifier id := by
  cases a <;> simp [agrees]

end Yolol.Node
