-- SUMMARY: The state that a chip runs against: variables, the next line, the last error.
import Yolol.Node.Equality
import Yolol.Node.Source
import Yolol.Store
import Yolol.Value

/-!
# Environments

Variables come into being when they are first set, and an unset one reads as zero. A
shared variable and a local one of the same name are different. Trees from a document
may assign to any node, so variables are keyed by nodes.
-/

namespace Yolol

structure Environment where
  name : String := "env"
  /-- The line that runs next, counted from one, and what a jump sets. -/
  nextLine : Int := 1
  /-- The message of the last failure. -/
  error : String := ""
  store : Store Node Value := {}

namespace Environment

/-- The node under which a variable is kept: of those that stand for it the one that was
set first. -/
def keyOf (env : Environment) (target : Node) : Node :=
  (env.store.keys.find? target.agrees).getD target

/-- An identifier is kept under itself. -/
theorem keyOf_identifier (env : Environment) (id : Identifier) :
    env.keyOf (.identifier id) = .identifier id := by
  unfold keyOf
  cases found : env.store.keys.find? (Node.identifier id).agrees with
  | none => rfl
  | some key => exact ((Node.agrees_identifier id key).1 (List.find?_some found)).symm

def get? (env : Environment) (target : Node) : Option Value := env.store.get? (env.keyOf target)

/-- The value of a variable, zero if it is unset or holds nothing. -/
def read (env : Environment) (target : Node) : Value :=
  match env.get? target with
  | none | some (.other .null) => .zero
  | some value => value

def set (env : Environment) (target : Node) (value : Value) : Environment :=
  { env with store := env.store.set (env.keyOf target) value }

/-- Nothing else is kept under an identifier. -/
theorem keyOf_eq_identifier (env : Environment) {target : Node} {id : Identifier} :
    env.keyOf target = .identifier id ↔ target = .identifier id := by
  constructor
  · intro h
    unfold keyOf at h
    cases found : env.store.keys.find? target.agrees with
    | none => simpa [found] using h
    | some key =>
      obtain rfl : key = .identifier id := by simpa [found] using h
      exact (Node.agrees_identifier_right id target).mp (List.find?_some found)
  · rintro rfl
    exact env.keyOf_identifier id

/-- Setting an identifier leaves the other variables in their places. -/
theorem keyOf_set (env : Environment) {target : Node} {id : Identifier}
    (h : target ≠ .identifier id) (value : Value) :
    (env.set (.identifier id) value).keyOf target = env.keyOf target := by
  have hnew : target.agrees (.identifier id) = false :=
    Bool.eq_false_iff.mpr (mt (Node.agrees_identifier_right id target).mp h)
  have hfind : (env.set (.identifier id) value).store.keys.find? target.agrees =
      env.store.keys.find? target.agrees := by
    rw [set, keyOf_identifier, Store.keys_set, List.find?_append]
    split <;> simp [hnew]
  rw [keyOf, keyOf, hfind]

/-- Setting an identifier changes its value and no other. -/
theorem get?_set (env : Environment) (target : Node) (id : Identifier) (value : Value) :
    (env.set (.identifier id) value).get? target =
      if target = .identifier id then some value else env.get? target := by
  by_cases h : target = .identifier id
  · subst h
    rw [get?, keyOf_identifier, set, keyOf_identifier, Store.get?_set]
    simp
  · have hkey : env.keyOf target ≠ .identifier id := mt env.keyOf_eq_identifier.mp h
    rw [get?, keyOf_set env h, set, keyOf_identifier, Store.get?_set, if_neg hkey, if_neg h, get?]

/-- The shared variables and their values. -/
def shared (env : Environment) : List (String × Value) :=
  env.store.entries.filterMap fun
    | (.identifier id, value) => if id.shared then some (id.name, value) else none
    | _ => none

/-- The environment for a reader: a line each for the next line, the error and every
    variable. -/
def report (env : Environment) : String :=
  "\n".intercalate
    (["Environment " ++ Text.quoted env.name, "  next line: " ++ Decimal.int env.nextLine]
      ++ (if env.error = "" then [] else ["  error: " ++ env.error])
      ++ env.store.entries.map fun e => "  " ++ e.1.source ++ " = " ++ e.2.source)

end Environment

end Yolol
