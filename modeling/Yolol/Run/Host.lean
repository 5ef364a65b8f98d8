-- SUMMARY: Running lines and programs, and feeding source text line by line.
import Yolol.Parse.Line
import Yolol.Run.Evaluate

/-!
# Hosts

A program runs line by line. The line counter moves on before a line runs, so a jump
in the line wins, and running off either end goes back to the first line. A runtime
fault is recorded, and the next line runs. A host that has only text feeds it one
line at a time.
-/

namespace Yolol.Run

/-- Report the line that runs. -/
def reportLine (line : Node) : Action Unit :=
  match line.unwritable? with
  | some name => Action.fail (.tree (.unwritable name))
  | none => do
    let env ← Action.getEnv
    Action.report
      ⟨"[" ++ env.name ++ "] line " ++ Decimal.int env.nextLine ++ ": " ++ line.source, 1⟩

/-- Run the statements of a line. -/
def runLine (line : Node) : Action Unit := do
  reportLine line
  match line with
  | .line statements => executeAll statements
  | a => Action.fail (.tree (.notALine a))

/-- Go on after a runtime fault, and record its message. -/
def recordFault (x : Action Unit) : Action Unit := fun env =>
  let done := x env
  match done.result with
  | .error (.runtime f) =>
    { result := .ok ()
      env := { done.env with error := f.message }
      trace := done.trace ++ [⟨"[" ++ done.env.name ++ "] runtime error: " ++ f.message, 1⟩] }
  | _ => done

/-- The number of the line that runs next, from one on. -/
def currentLine (count : Nat) (nextLine : Int) : Nat :=
  if 1 ≤ nextLine ∧ nextLine ≤ count then nextLine.toNat else 1

/-- Run the next of some lines. -/
def runNext (lines : List Node) : Action Unit := do
  let env ← Action.getEnv
  let number := currentLine lines.length env.nextLine
  Action.modifyEnv ({ · with nextLine := number + 1 })
  match lines[number - 1]? with
  | some line => recordFault (runLine line)
  | none => Action.pure ()

/-- Run `count` lines, one after the other. -/
def runLines (lines : List Node) : (count : Nat) → Action Unit
  | 0 => Action.pure ()
  | count + 1 => do
    runNext lines
    runLines lines count

/-- The number of lines that run unless a host asks for another one. -/
def defaultSteps : Int := 1000

/-- Run a program for at most `steps` lines. -/
def runProgram (program : Node) (steps : Int) : Action Unit :=
  match program with
  | .program [] => Action.pure ()
  | .program lines => runLines lines steps.toNat
  | a => Action.fail (.tree (.notAProgram a))

/-- Run a line of source text; whether it ran without a fault. Text that cannot be read
    moves the counter on, since nothing ran; after a runtime fault it is left alone. -/
def executeSource (source : String) : Action Bool :=
  let unread (message : String) : Action Bool := do
    Action.modifyEnv fun env => { env with error := message, nextLine := env.nextLine + 1 }
    return false
  match Parse.lineOfSource source with
  | .error (.lex f) => unread f.message
  | .error (.statement f) => unread f.message
  | .error (.token f) => Action.fail (.token f)
  | .ok line => fun env =>
    let done := runLine line env
    match done.result with
    | .ok () => ⟨.ok true, done.env, done.trace⟩
    | .error (.runtime f) => ⟨.ok false, { done.env with error := f.message }, done.trace⟩
    | .error e => ⟨.error e, done.env, done.trace⟩

end Yolol.Run
