-- SUMMARY: Running statements, lines and programs under a log.
import Yolol.Run.Host

/-!
# Running under a log

Here the interpreter asks a log about every message at the place where the message arises,
and the trace is what was let through. Expressions report nothing, so they are evaluated
as without a log.
-/

namespace Yolol.Log

open Run

variable (log : Log)

/-- Report a message, if the log lets it through. -/
def report (m : Message) : Action Unit := fun env => ⟨.ok (), env, log.emit m⟩

/-- Assign a value to a target. -/
def assign (target : Node) (op : Operator) (value : Value) : Action Unit :=
  match target.collection? with
  | some name => Action.fail (.tree (.notAVariable name))
  | none => do
    let stored ← assigned target op value
    Action.modifyEnv (·.set target stored)
    log.report ⟨"assign " ++ target.source ++ " = " ++ stored.source, 2⟩

/-- Jump to the line that a value names. -/
def jump : Value → Action Unit
  | .number n => do
    Action.modifyEnv ({ · with nextLine := n.truncate })
    log.report ⟨"goto " ++ Decimal.int n.truncate, 2⟩
  | found => Action.fail (.runtime (.gotoTarget found))

/-- Whether a condition holds. -/
def test (condition : Node) : Action Bool := do
  let value ← evaluate condition
  log.report ⟨"if condition " ++ value.source ++ " -> " ++ Node.dumpBool value.isTruthy, 3⟩
  return value.isTruthy

mutual
/-- Run a statement. -/
def execute : Node → Action Unit
  | .comment _ | .misfit .comment _ => Action.pure ()
  | .goto a => do log.jump (← evaluate a)
  | .ifThen c body => do if ← log.test c then executeAll body else Action.pure ()
  | .ifElse c body otherwise => do
    if ← log.test c then executeAll body else executeAll otherwise
  | .assignment target op a => do log.assign target op (← evaluate a)
  | .evaluation a => do let _ ← evaluate a
  | a => Action.fail (.tree (.notAStatement a))

/-- Run statements in order. -/
def executeAll : List Node → Action Unit
  | [] => Action.pure ()
  | a :: as => do
    execute a
    executeAll as
end

/-- Report the line that runs. -/
def reportLine (line : Node) : Action Unit :=
  match line.unwritable? with
  | some name => Action.fail (.tree (.unwritable name))
  | none => do
    let env ← Action.getEnv
    log.report ⟨"[" ++ env.name ++ "] line " ++ Decimal.int env.nextLine ++ ": " ++ line.source, 1⟩

/-- Run the statements of a line. -/
def runLine (line : Node) : Action Unit := do
  log.reportLine line
  match line with
  | .line statements => log.executeAll statements
  | a => Action.fail (.tree (.notALine a))

/-- Go on after a runtime fault, and record its message. -/
def recordFault (x : Action Unit) : Action Unit := fun env =>
  let done := x env
  match done.result with
  | .error (.runtime f) =>
    { result := .ok ()
      env := { done.env with error := f.message }
      trace :=
        done.trace ++ log.emit ⟨"[" ++ done.env.name ++ "] runtime error: " ++ f.message, 1⟩ }
  | _ => done

/-- Run the next of some lines. -/
def runNext (lines : List Node) : Action Unit := do
  let env ← Action.getEnv
  let number := currentLine lines.length env.nextLine
  Action.modifyEnv ({ · with nextLine := number + 1 })
  match lines[number - 1]? with
  | some line => log.recordFault (log.runLine line)
  | none => Action.pure ()

/-- Run `count` lines, one after the other. -/
def runLines (lines : List Node) : (count : Nat) → Action Unit
  | 0 => Action.pure ()
  | count + 1 => do
    log.runNext lines
    runLines lines count

/-- Run a program for at most `steps` lines. -/
def runProgram (program : Node) (steps : Int) : Action Unit :=
  match program with
  | .program [] => Action.pure ()
  | .program lines => log.runLines lines steps.toNat
  | a => Action.fail (.tree (.notAProgram a))

end Yolol.Log
