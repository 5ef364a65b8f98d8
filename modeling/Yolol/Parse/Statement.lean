-- SUMMARY: The grammar of statements, with the trace of the conditions it reads.
import Yolol.Parse.Expression
import Yolol.Trace

/-!
# Statements

A statement is a comment, a jump, a conditional, an assignment or an expression. A
conditional never goes on behind the end of its line, but holds any statements in
between, a comment included.
-/

namespace Yolol.Parse

abbrev StatementStep (n : Nat) := Step StatementFault Node n

/-- A result together with the messages on the way to it. -/
structure Traced (α : Type) where
  value : α
  trace : List Message := []

def Traced.map {α β : Type} (f : α → β) (t : Traced α) : Traced β := ⟨f t.value, t.trace⟩

/-- The operator of an assignment that starts with a token of kind `first`. -/
def compoundAssignment? : Token.Kind → Option Operator
  | .plus => some .addAssign
  | .minus => some .subAssign
  | .star => some .mulAssign
  | .slash => some .divAssign
  | .percent => some .modAssign
  | _ => none

/-- The assignment that three tokens begin: its operator and the number of its tokens
    after the variable. The third token of a plain assignment only has to be there, and
    not be the other half of a comparison. -/
def assignment? (a b c : Token) : Option (Operator × Nat) :=
  if a.kind ≠ .identifier then none
  else if b.kind = .equal then
    if c.kind = .equal then none else some (.assign, 1)
  else if c.kind = .equal then (compoundAssignment? b.kind).map (·, 2)
  else none

/-- A failure of an expression is one of its statement. -/
def Failure.ofExpression : Failure ExpressionFault → Failure StatementFault
  | .fault f => .fault (.expression f)
  | .token f => .token f

/-- Read an expression and make a statement of it. -/
def expressionStatement (make : Node → Node) (ts : List Token) : StatementStep ts.length :=
  match expression ts with
  | .found e rest h => .found (make e) rest h
  | .failed f rest h => .failed f.ofExpression rest h

/-- A statement that is no conditional. -/
def simpleStatement : (ts : List Token) → StatementStep ts.length
  | [] => expressionStatement .evaluation []
  | a :: rest =>
    if a.kind = .comment then .ofToken (textOf .comment .comment a) a rest
    else if a.kind = .gotoWord then .behind a (expressionStatement .goto rest)
    else
      match rest with
      | b :: c :: rest =>
        match assignment? a b c with
        | none => expressionStatement .evaluation (a :: b :: c :: rest)
        | some (op, more) =>
          match identifierOf a with
          | .error e => .stuck (.token e) (a :: b :: c :: rest)
          | .ok id =>
            (expressionStatement (.assignment (.identifier id) op)
              ((b :: c :: rest).drop more)).widen
                (Nat.le_of_lt (length_drop_lt_cons a (b :: c :: rest) more))
      | rest => expressionStatement .evaluation (a :: rest)

/-- The message about the condition of a conditional. -/
def conditionMessage (condition : Node) : Message :=
  ⟨"[Parse If] condition: " ++ condition.source, 3⟩

mutual
/-- A statement. -/
def statement : (ts : List Token) → Traced (StatementStep ts.length)
  | [] => { value := simpleStatement [] }
  | t :: ts =>
    if t.kind = .ifWord then
      match expression ts with
      | .failed f rest h => { value := .behind t (.failed f.ofExpression rest h) }
      | .found condition [] _ =>
        { value := .failed (.fault (.missingThen none)) [] (Nat.zero_le _)
          trace := [conditionMessage condition] }
      | .found condition (u :: rest) h =>
        if u.kind = .thenWord then
          let body := branches condition [] none rest
          { value := body.value.widen (Nat.le_succ_of_le (Nat.le_of_lt h))
            trace := conditionMessage condition :: body.trace }
        else
          { value :=
              .failed (.fault (.missingThen (some u))) (u :: rest)
                (Nat.le_succ_of_le (Nat.le_of_lt h))
            trace := [conditionMessage condition] }
    else { value := simpleStatement (t :: ts) }
termination_by ts => 2 * ts.length
decreasing_by simp only [List.length_cons] at h ⊢; omega

/-- The rest of a conditional: `body` and, behind `else`, `otherwise` have been read. -/
def branches (condition : Node) (body : List Node) (otherwise : Option (List Node)) :
    (ts : List Token) → Traced (StatementStep (ts.length + 1))
  | [] =>
    { value :=
        .failed (.fault (.missingEnd condition body (otherwise.getD []))) [] (Nat.zero_le _) }
  | t :: ts =>
    if t.kind = .newline then
      { value :=
          .failed (.fault (.missingEnd condition body (otherwise.getD []))) (t :: ts)
            (Nat.le_succ _) }
    else if t.kind = .elseWord then
      match otherwise with
      | some statements =>
        { value :=
            .failed (.fault (.repeatedElse condition body statements)) (t :: ts) (Nat.le_succ _) }
      | none => (branches condition body (some []) ts).map (·.widen (Nat.le_succ _))
    else if t.kind = .endWord then
      { value :=
          .found (.conditional condition body (otherwise.getD [])) ts
            (Nat.lt_succ_of_lt (Nat.lt_succ_self _)) }
    else
      let first := statement (t :: ts)
      match first.value with
      | .failed f rest h =>
        { value := .failed f rest (Nat.le_succ_of_le h), trace := first.trace }
      | .found s rest h =>
        let further :=
          match otherwise with
          | none => branches condition (body ++ [s]) none rest
          | some statements => branches condition body (some (statements ++ [s])) rest
        { value := further.value.widen (Nat.le_succ_of_le h)
          trace := first.trace ++ further.trace }
termination_by ts => 2 * ts.length + 1
decreasing_by all_goals simp only [List.length_cons] at *; omega
end

end Yolol.Parse
