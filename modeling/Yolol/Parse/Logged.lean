-- SUMMARY: Reading statements, lines and programs under a log.
import Yolol.Parse.Line

/-!
# Reading under a log

Here the parser asks a log about every message at the place where the message arises, and
the trace is what was let through. The rules are the same as without a log, as is what they
find; only conditionals, and what goes over the statements of a line, have anything to say.
-/

namespace Yolol.Log

open Parse

variable (log : Log)

mutual
/-- A statement. -/
def statement : (ts : List Token) → Traced (StatementStep ts.length)
  | [] => { value := simpleStatement [] }
  | t :: ts =>
    if t.kind = .ifWord then
      match expression ts with
      | .failed f rest h => { value := .behind t (.failed f.ofExpression rest h) }
      | .found condition [] _ =>
        { value := .failed (.fault (.missingThen none)) [] (Nat.zero_le _)
          trace := log.emit (conditionMessage condition) }
      | .found condition (u :: rest) h =>
        if u.kind = .thenWord then
          let body := branches condition [] none rest
          { value := body.value.widen (Nat.le_succ_of_le (Nat.le_of_lt h))
            trace := log.emit (conditionMessage condition) ++ body.trace }
        else
          { value :=
              .failed (.fault (.missingThen (some u))) (u :: rest)
                (Nat.le_succ_of_le (Nat.le_of_lt h))
            trace := log.emit (conditionMessage condition) }
    else { value := simpleStatement (t :: ts) }
termination_by ts => 2 * ts.length
decreasing_by simp only [List.length_cons] at h ⊢; omega

/-- The rest of a conditional: `body` and, behind `else`, `otherwise` have been read. -/
def branches (condition : Node) (body : List Node) (otherwise : Option (List Node)) :
    (ts : List Token) → Traced (StatementStep (ts.length + 1))
  | [] =>
    { value :=
        .failed (.fault (.missingEnd condition body (otherwise.getD []))) [] (Nat.zero_le _) }
  | t :: ts =>
    if t.kind = .newline then
      { value :=
          .failed (.fault (.missingEnd condition body (otherwise.getD []))) (t :: ts)
            (Nat.le_succ _) }
    else if t.kind = .elseWord then
      match otherwise with
      | some statements =>
        { value :=
            .failed (.fault (.repeatedElse condition body statements)) (t :: ts) (Nat.le_succ _) }
      | none => (branches condition body (some []) ts).map (·.widen (Nat.le_succ _))
    else if t.kind = .endWord then
      { value :=
          .found (.conditional condition body (otherwise.getD [])) ts
            (Nat.lt_succ_of_lt (Nat.lt_succ_self _)) }
    else
      let first := statement (t :: ts)
      match first.value with
      | .failed f rest h =>
        { value := .failed f rest (Nat.le_succ_of_le h), trace := first.trace }
      | .found s rest h =>
        let further :=
          match otherwise with
          | none => branches condition (body ++ [s]) none rest
          | some statements => branches condition body (some (statements ++ [s])) rest
        { value := further.value.widen (Nat.le_succ_of_le h)
          trace := first.trace ++ further.trace }
termination_by ts => 2 * ts.length + 1
decreasing_by all_goals simp only [List.length_cons] at *; omega
end

/-- What the log lets through about a line that cannot go on. -/
def failureTrace (soFar : List Node) (rest : List Token) (f : Failure StatementFault) :
    List Message :=
  (failureMessages soFar rest f).flatMap log.emit

/-- The rest of a line of which `soFar` has been read. -/
def lineFrom (soFar : List Node) : List Token → Reading
  | [] => ⟨.ok (.line soFar), [], log.emit (finishedMessage (.line soFar))⟩
  | t :: ts =>
    if t.kind = .newline then ⟨.ok (.line soFar), ts, log.emit (finishedMessage (.line soFar))⟩
    else
      let next := log.statement (t :: ts)
      match next.value with
      | .failed f rest _ => ⟨.error f, rest, next.trace ++ log.failureTrace soFar rest f⟩
      | .found s rest _ =>
        (lineFrom (soFar ++ [s]) rest).prepend (next.trace ++ log.emit (parsedMessage s))
termination_by ts => ts.length
decreasing_by assumption

/-- The first line of the tokens. -/
def line (ts : List Token) : Reading := log.lineFrom [] ts

/-- The rest of a program of which `lines`, and `soFar` of the line after them, have been
    read. -/
def programFrom (lines soFar : List Node) : List Token → Reading
  | [] =>
    if soFar.isEmpty then ⟨.ok (.program lines), [], []⟩
    else
      ⟨.ok (.program (lines ++ [.line soFar])), [],
        log.emit (numberedMessage (lines.length + 1) (.line soFar))⟩
  | t :: ts =>
    if t.kind = .newline then
      (programFrom (lines ++ [.line soFar]) [] ts).prepend
        (log.emit (numberedMessage (lines.length + 1) (.line soFar)))
    else
      let next := log.statement (t :: ts)
      match next.value with
      | .failed f rest _ => ⟨.error f, rest, next.trace ++ log.failureTrace soFar rest f⟩
      | .found s rest _ =>
        (programFrom lines (soFar ++ [s]) rest).prepend (next.trace ++ log.emit (parsedMessage s))
termination_by ts => ts.length
decreasing_by
  · exact Nat.lt_succ_self _
  · assumption

/-- All lines of the tokens. -/
def program (ts : List Token) : Reading := log.programFrom [] [] ts

/-- Read a line from the place of the cursor on and move behind it. -/
def readLine (c : Cursor) : Cursor × Reading :=
  if c.position < 0 then
    let failure : Failure StatementFault := .fault (.expression (.expected none))
    (c, ⟨.error failure, c.tokens, log.failureTrace [] (c.window 3) failure⟩)
  else if c.tokens.length ≤ c.position then (c, log.line [])
  else
    let reading := log.line c.rest
    (c.moveTo reading.rest, reading)

end Yolol.Log
