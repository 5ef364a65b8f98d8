-- SUMMARY: An environment and a log that a host keeps between its requests.
import Yolol.Run.Logged

/-!
# Sessions

A host that sends one request after the other keeps an environment and the log of
its interpreter. Running a program closes the log, so what later requests report goes
to the console.
-/

namespace Yolol.Run

structure Session where
  env : Environment := {}
  log : Log := {}

/-- What a request gives: its result, the session after it, and what was written. -/
structure Reply (α : Type) where
  result : Except Fault α
  session : Session
  output : Output := {}

namespace Session

variable {α : Type}

/-- Run an action and write its trace to `log`. -/
def performOn (s : Session) (log : Log) (x : Action α) : Reply α :=
  let done := x s.env
  ⟨done.result, { s with env := done.env }, log.writeAll {} done.trace⟩

/-- Run an action and write its trace to the log of the session. -/
def perform (s : Session) (x : Action α) : Reply α := s.performOn s.log x

/-- Run an action with a log of its own, which writes to the console. -/
def performFresh (s : Session) (level : Int) (x : Action α) : Reply α :=
  s.performOn (Log.start level .console) x

/-- Run a program, and close the log. -/
def run (s : Session) (program : Node) (steps : Int) : Reply Unit :=
  let reply := s.perform (s.log.runProgram program steps)
  { reply with session := { reply.session with log := s.log.close } }

end Session

end Yolol.Run
