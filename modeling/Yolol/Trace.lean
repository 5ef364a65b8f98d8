-- SUMMARY: Trace messages, the log that lets some of them through, and where they go.

/-!
# Tracing

What the parser and the interpreter report is kept as a list of messages; nothing
they do depends on it. A log lets a message through if its own level is at least
the level of the message, and writes it to the console, to a stream or to a file.
-/

namespace Yolol

/-- A line of a trace. The higher its level, the less it matters. -/
structure Message where
  text : String
  level : Int := 1
  deriving DecidableEq

/-- Where a log writes. -/
inductive Sink where
  | console | stream | file
  deriving DecidableEq

/-- The text that was written to each sink; the file is absent until it is opened. -/
structure Output where
  console : String := ""
  stream : String := ""
  file : Option String := none
  deriving DecidableEq

namespace Output

/-- Write to a sink. -/
def put (out : Output) (sink : Sink) (text : String) : Output :=
  match sink with
  | .console => { out with console := out.console ++ text }
  | .stream => { out with stream := out.stream ++ text }
  | .file => { out with file := out.file.map (· ++ text) }

end Output

structure Log where
  level : Int := 0
  sink : Sink := .console
  deriving DecidableEq

namespace Log

/-- A log of the given level. A silent one leaves its target alone: what it lets
    through all the same goes to the console. -/
def start (level : Int) (target : Sink) : Log := ⟨level, if 0 < level then target else .console⟩

/-- What is there before the first message: a file that the log writes is empty. -/
def blank (log : Log) : Output := { file := if log.sink = .file then some "" else none }

/-- A message that the log lets through. -/
def admits (log : Log) (m : Message) : Bool := m.level ≤ log.level

/-- Write a message on a line of its own, if the log lets it through. -/
def write (log : Log) (out : Output) (m : Message) : Output :=
  if log.admits m then out.put log.sink (m.text ++ "\n") else out

/-- What the log lets through where `m` is reported. -/
def emit (log : Log) (m : Message) : List Message := if log.admits m then [m] else []

def writeAll (log : Log) (out : Output) (ms : List Message) : Output := ms.foldl log.write out

/-- Let go of the target; later messages go to the console. -/
def close (log : Log) : Log := { log with sink := .console }

end Log

end Yolol
