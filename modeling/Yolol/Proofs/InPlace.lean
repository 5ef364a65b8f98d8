-- SUMMARY: The rules of the grammar for a parser that moves one cursor over the tokens.
import Yolol.Parse.Line

/-!
# Reading in place

The rules of the grammar once more, as a parser runs them that keeps one cursor, looks ahead
from it and moves it on. The types say nothing of what keeps such a parser in order: that a
rule which finds no expression leaves the cursor where it was, and that what a loop reads
takes it on. Neither do they say that a rule ends. Each rule is told instead how many calls
may be open at once, where the next round of a loop counts as a call from the round before,
and it has no ending if there would be more.
-/

namespace Yolol.Cursor

open Parse

-- ---------------------------------------------------------------------------
-- Looking ahead
-- ---------------------------------------------------------------------------

/-- The kind of the token `offset` places ahead. -/
def kind (c : Cursor) (offset : Int) : Option Token.Kind := (c.peek offset).map (·.kind)

/-- The operator of the given level in front of the cursor. -/
def operator? (c : Cursor) (tier : Tier) : Option (Operator × Nat) :=
  (c.kind 0).bind fun first => tier.operator? first (c.kind 1)

/-- The word in front of the cursor that stands in front of an operand. -/
def word? (c : Cursor) : Option Operator :=
  ((c.kind 0).bind leadingOperator?).filter Operator.isWord

/-- The step of a variable in front of the cursor. -/
def step? (c : Cursor) : Option (Operator × Token) := do
  Parse.step? (← c.peek 0) (← c.peek 1) (← c.peek 2)

/-- The assignment in front of the cursor. -/
def assignment? (c : Cursor) : Option (Operator × Nat) := do
  Parse.assignment? (← c.peek 0) (← c.peek 1) (← c.peek 2)

end Yolol.Cursor

namespace Yolol.Parse

/-- How a rule ends that moves a cursor: its result, and the cursor then. -/
abbrev Ending (φ α : Type) := Except (Failure φ) α × Cursor

abbrev ExpressionEnding := Ending ExpressionFault (Option Node)
abbrev StatementEnding := Ending StatementFault Node

namespace InPlace

-- ---------------------------------------------------------------------------
-- Expressions
-- ---------------------------------------------------------------------------

/-- Take the factorial of `operand` for every `!` that follows. -/
def factorials : Nat → Node → Cursor → Option ExpressionEnding
  | 0, _, _ => none
  | n + 1, operand, c =>
    if c.kind 0 = some .exclam ∧ c.kind 1 ≠ some .equal then
      factorials n (.unary .factorial operand) (c.advance 1)
    else some (.ok (some operand), c)

mutual
/-- An operation of the given level, or what binds tighter. -/
def chain : Nat → Tier → Cursor → Option ExpressionEnding
  | 0, _, _ => none
  | n + 1, tier, c => do
    match ← operand n tier c with
    | (.ok (some left), c) => extend n tier left c
    | stopped => return stopped

/-- An operand of an operation of the given level. -/
def operand : Nat → Tier → Cursor → Option ExpressionEnding
  | 0, _, _ => none
  | n + 1, tier, c =>
    match tier with
    | .conjunction => chain n .disjunction c
    | .disjunction => chain n .equality c
    | .equality => chain n .order c
    | .order => chain n .sum c
    | .sum => chain n .product c
    | .product => power n c

/-- Fold the operators of the given level that follow `left`. -/
def extend : Nat → Tier → Node → Cursor → Option ExpressionEnding
  | 0, _, _, _ => none
  | n + 1, tier, left, c => do
    match c.operator? tier with
    | none => return (.ok (some left), c)
    | some (op, more) =>
      match ← operand n tier (c.advance (more + 1)) with
      | (.ok (some right), c) => extend n tier (.binary op left right) c
      | (.ok none, c) => return (.error (.fault (.nothingAfter op left)), c)
      | (.error (.fault f), c) => return (.error (.fault (.badOperand op left f)), c)
      | (.error (.token f), c) => return (.error (.token f), c)

/-- A power, which associates to the right. -/
def power : Nat → Cursor → Option ExpressionEnding
  | 0, _ => none
  | n + 1, c => do
    match ← repeated n c with
    | (.ok (some base), c) =>
      if c.kind 0 = some .caret then
        match ← power n (c.advance 1) with
        | (.ok (some exponent), c) => return (.ok (some (.binary .pow base exponent)), c)
        | (.ok none, c) => return (.error (.fault (.nothingAfter .pow base)), c)
        | failed => return failed
      else return (.ok (some base), c)
    | stopped => return stopped

/-- An operand with the factorials that follow it. -/
def repeated : Nat → Cursor → Option ExpressionEnding
  | 0, _ => none
  | n + 1, c => do
    match ← unary n c with
    | (.ok (some value), c) => factorials n value c
    | stopped => return stopped

/-- A function of one operand, or what binds tighter. -/
def unary : Nat → Cursor → Option ExpressionEnding
  | 0, _ => none
  | n + 1, c => do
    match ← negation n c with
    | (.ok none, c) =>
      match c.word? with
      | some op => behind n op (c.advance 1)
      | none => return (.ok none, c)
    | stopped => return stopped

/-- A negation, or what binds tighter. -/
def negation : Nat → Cursor → Option ExpressionEnding
  | 0, _ => none
  | n + 1, c => do
    match ← atom n c with
    | (.ok none, c) =>
      if c.kind 0 = some .minus then behind n .negate (c.advance 1) else return (.ok none, c)
    | stopped => return stopped

/-- The operand of `op`, which stands in front of the cursor. -/
def behind : Nat → Operator → Cursor → Option ExpressionEnding
  | 0, _, _ => none
  | n + 1, op, c => do
    match ← unary n c with
    | (.ok (some value), c) => return (.ok (some (.unary op value)), c)
    | (.ok none, c) => return (.error (.fault (.missingOperand op (c.peek 0))), c)
    | failed => return failed

/-- A step of a variable, or a single value. -/
def atom : Nat → Cursor → Option ExpressionEnding
  | 0, _ => none
  | n + 1, c => do
    match c.step? with
    | some (op, t) =>
      match identifierOf t with
      | .ok id => return (.ok (some (.unary op (.value (.identifier id)))), c.advance 3)
      | .error e => return (.error (.token e), c)
    | none =>
      match ← single n c with
      | (.ok (some value), c) => return (.ok (some (.value value)), c)
      | stopped => return stopped

/-- A literal, a variable, or an expression in parentheses. -/
def single : Nat → Cursor → Option ExpressionEnding
  | 0, _ => none
  | n + 1, c => do
    match c.peek 0 with
    | none => return (.ok none, c)
    | some t =>
      match t.kind with
      | .string => return (.ok (some (textOf .text .text t)), c.advance 1)
      | .number =>
        match numberOf t with
        | .ok value => return (.ok (some (.number value)), c.advance 1)
        | .error e => return (.error (.token e), c.advance 1)
      | .identifier =>
        match identifierOf t with
        | .ok id => return (.ok (some (.identifier id)), c.advance 1)
        | .error e => return (.error (.token e), c.advance 1)
      | .lparen =>
        match ← expression n (c.advance 1) with
        | (.ok inner, c) =>
          if c.kind 0 = some .rparen then return (.ok (some (.group inner)), c.advance 1)
          else return (.error (.fault (.unclosed inner)), c)
        | (.error f, c) => return (.error f, c)
      | _ => return (.ok none, c)

/-- An expression. -/
def expression : Nat → Cursor → Option (Ending ExpressionFault Node)
  | 0, _ => none
  | n + 1, c => do
    match ← chain n .conjunction c with
    | (.ok (some e), c) => return (.ok e, c)
    | (.ok none, c) => return (.error (.fault (.expected (c.peek 0))), c)
    | (.error f, c) => return (.error f, c)
end

-- ---------------------------------------------------------------------------
-- Statements
-- ---------------------------------------------------------------------------

/-- Read an expression and make a statement of it. -/
def expressionStatement (n : Nat) (make : Node → Node) (c : Cursor) : Option StatementEnding := do
  match ← expression n c with
  | (.ok e, c) => return (.ok (make e), c)
  | (.error f, c) => return (.error f.ofExpression, c)

/-- A statement that is no conditional and starts with the token `first`. -/
def simpleStatement (n : Nat) (first : Token) (c : Cursor) : Option StatementEnding :=
  if first.kind = .comment then some (.ok (textOf .comment .comment first), c.advance 1)
  else if first.kind = .gotoWord then expressionStatement n .goto (c.advance 1)
  else
    match c.assignment? with
    | none => expressionStatement n .evaluation c
    | some (op, more) =>
      match identifierOf first with
      | .ok id => expressionStatement n (.assignment (.identifier id) op) (c.advance (more + 1))
      | .error e => some (.error (.token e), c)

mutual
/-- A statement. -/
def statement : Nat → Cursor → Option StatementEnding
  | 0, _ => none
  | n + 1, c =>
    match c.peek 0 with
    | none => expressionStatement n .evaluation c
    | some t => if t.kind = .ifWord then conditional n (c.advance 1) else simpleStatement n t c

/-- A conditional behind its first word. -/
def conditional : Nat → Cursor → Option StatementEnding
  | 0, _ => none
  | n + 1, c => do
    match ← expression n c with
    | (.error f, c) => return (.error f.ofExpression, c)
    | (.ok condition, c) =>
      if c.kind 0 = some .thenWord then branches n condition [] none (c.advance 1)
      else return (.error (.fault (.missingThen (c.peek 0))), c)

/-- The rest of a conditional: `body` and, behind `else`, `otherwise` have been read. -/
def branches : Nat → Node → List Node → Option (List Node) → Cursor → Option StatementEnding
  | 0, _, _, _, _ => none
  | n + 1, condition, body, otherwise, c => do
    if 0 < c.remaining ∧ c.kind 0 ≠ some .newline then
      if c.kind 0 = some .elseWord then
        match otherwise with
        | some statements => return (.error (.fault (.repeatedElse condition body statements)), c)
        | none => branches n condition body (some []) (c.advance 1)
      else if c.kind 0 = some .endWord then
        return (.ok (.conditional condition body (otherwise.getD [])), c.advance 1)
      else
        match ← statement n c with
        | (.error f, c) => return (.error f, c)
        | (.ok s, c) =>
          match otherwise with
          | none => branches n condition (body ++ [s]) none c
          | some statements => branches n condition body (some (statements ++ [s])) c
    else return (.error (.fault (.missingEnd condition body (otherwise.getD []))), c)
end

-- ---------------------------------------------------------------------------
-- Lines and programs
-- ---------------------------------------------------------------------------

/-- The rest of a line of which `soFar` has been read. -/
def lineFrom : Nat → List Node → Cursor → Option StatementEnding
  | 0, _, _ => none
  | n + 1, soFar, c => do
    if 0 < c.remaining then
      if c.kind 0 = some .newline then return (.ok (.line soFar), c.advance 1)
      else
        match ← statement n c with
        | (.ok s, c) => lineFrom n (soFar ++ [s]) c
        | failed => return failed
    else return (.ok (.line soFar), c)

/-- The rest of a program of which `lines`, and `soFar` of the line after them, have been
    read. -/
def programFrom : Nat → List Node → List Node → Cursor → Option StatementEnding
  | 0, _, _, _ => none
  | n + 1, lines, soFar, c => do
    if 0 < c.remaining then
      if c.kind 0 = some .newline then
        programFrom n (lines ++ [.line soFar]) [] (c.advance 1)
      else
        match ← statement n c with
        | (.ok s, c) => programFrom n lines (soFar ++ [s]) c
        | failed => return failed
    else if soFar.isEmpty then return (.ok (.program lines), c)
    else return (.ok (.program (lines ++ [.line soFar])), c)

end InPlace
end Yolol.Parse
