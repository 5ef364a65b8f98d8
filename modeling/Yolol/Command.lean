-- SUMMARY: What the command does: run a program or a document, list tokens, write a document.
import Yolol.Command.Arguments
import Yolol.Command.Directory
import Yolol.Json.Layout
import Yolol.Json.Reader
import Yolol.Node.Document
import Yolol.Parse.Logged
import Yolol.Run.Logged
import Yolol.Text.Newline

/-!
# The command

A command reads one file and reports what it did: text for the terminal, an exit code,
and the files that it wrote. Everything but the reading and the writing is decided here.
A verbose command empties its trace file before it reads anything.
-/

namespace Yolol.Command

-- ---------------------------------------------------------------------------
-- Tasks
-- ---------------------------------------------------------------------------

/-- What to do with a file. -/
inductive Task where
  | run (file : Path)
  | listTokens (file : Path)
  | emit (file : Path)
  | runDocument (file : Path)
  deriving DecidableEq

def Task.file : Task → Path
  | .run file | .listTokens file | .emit file | .runDocument file => file

/-- A path, unless it is empty. -/
def given (file : Option String) : Option Path :=
  (file.filter (· != "")).map Path.ofText

/-- The task that the options ask for, if they name a file. -/
def Options.task (o : Options) : Option Task :=
  (given o.document).map .runDocument
    <|> (given o.tokens).map .listTokens
    <|> (given o.emit).map .emit
    <|> (given o.file).map .run

/-- The file that takes the trace. -/
def traceFile : Path := ⟨"", ["debug.txt"]⟩

/-- The log of the parser and of the interpreter, into the trace file. -/
def Options.log (o : Options) : Log := Log.start o.verbosity .stream

-- ---------------------------------------------------------------------------
-- Reports
-- ---------------------------------------------------------------------------

/-- A failure that the command does not turn into a message. -/
inductive Crash where
  | token (fault : Parse.TokenFault)
  | json (fault : Json.ReadFault)
  | document (fault : Node.DocumentFault)
  | run (fault : Run.Fault)
  /-- There are lines to run, but no number of them. -/
  | noStepCount
  /-- A file to read or to write is a directory. -/
  | isDirectory (path : Path)

def Crash.message : Crash → String
  | .token .missingText => "token without text"
  | .token (.literal f) => f.message
  | .json .malformed => "malformed document"
  | .json (.tooLong n) => (Number.LiteralFault.tooLong n).message
  | .document f => f.message
  | .run (.runtime f) => f.message
  | .run (.tree f) => f.message
  | .run (.token _) => "token without meaning"
  | .noStepCount => "'list' object cannot be interpreted as an integer"
  | .isDirectory p => p.text ++ " is a directory"

inductive Ending where
  | exit (code : Nat)
  | crash (crash : Crash)

structure Report where
  ending : Ending
  stdout : String := ""
  stderr : String := ""
  /-- The texts of the files that were written. -/
  files : List (Path × String) := []

def failure (message : String) : Report :=
  { ending := .exit 1, stderr := "Error: " ++ message ++ "\n" }

/-- The line that refuses arguments. -/
def refusal (f : UsageFault) : String := "yolol: error: " ++ f.message

/-- What is shown instead of a run if help was asked for. -/
def helpText : String := "usage: yolol [-v] [--steps N] [--tokens F | --emit-ast F | --ast F] [F]"

def Halt.report : Halt → Report
  | .help => { ending := .exit 0, stdout := helpText ++ "\n" }
  | .usage f => { ending := .exit 2, stderr := refusal f ++ "\n" }

-- ---------------------------------------------------------------------------
-- Work
-- ---------------------------------------------------------------------------

/-- A report and the messages on the way to it. -/
abbrev Work := Report × List Message

/-- Run a tree against a new environment named for its file. -/
def runTree (o : Options) (file : Path) (program : Node) : Work :=
  let done := o.log.runProgram program (o.steps.getD 0) { name := file.stem }
  match done.result with
  | .error f => ({ ending := .crash (.run f) }, done.trace)
  | .ok () =>
    if o.steps.isNone && program != .program [] then ({ ending := .crash .noStepCount }, [])
    else ({ ending := .exit 0, stdout := done.env.report ++ "\n" }, done.trace)

/-- Run the tree of a document. -/
def runJson (o : Options) (file : Path) (text : String) : Work :=
  match Json.ofText text with
  | .error f => ({ ending := .crash (.json f) }, [])
  | .ok json =>
    match Node.ofJson json with
    | .error f => ({ ending := .crash (.document f) }, [])
    | .ok program => runTree o file program

/-- The file that takes the document of a tree. -/
def documentFile (file : Path) : Path := file.extend ".ast.json"

/-- Write the document of a tree to `target`. -/
def emitTree (look : Path → Entry) (target : Path) (program : Node) : Work :=
  if look target = .directory then ({ ending := .crash (.isDirectory target) }, [])
  else
    ({ ending := .exit 0, stdout := target.text ++ "\n"
       files := [(target, program.toJson.indented 0)] }, [])

/-- Read source text as a program, and go on with its tree. -/
def withProgram (log : Log) (text : String) (next : Node → Work) : Work :=
  match Token.scan text with
  | .error f => (failure f.message, [])
  | .ok ts =>
    let reading := log.program ts
    match reading.result with
    | .error (.fault f) => (failure f.message, reading.trace)
    | .error (.token f) => ({ ending := .crash (.token f) }, reading.trace)
    | .ok program =>
      let (report, trace) := next program
      (report, reading.trace ++ trace)

/-- List the tokens of source text. -/
def tokenLines (text : String) : Work :=
  match Token.scan text with
  | .error f => (failure f.message, [])
  | .ok ts => ({ ending := .exit 0, stdout := String.join (ts.map (·.dump ++ "\n")) }, [])

/-- The paths that a task looks at. -/
def Task.paths (task : Task) : List Path := [task.file, documentFile task.file]

/-- Do a task; `look` tells what stands at a path. -/
def Task.perform (o : Options) (look : Path → Entry) (task : Task) : Work :=
  match look task.file with
  | .absent => (failure ("file " ++ task.file.text ++ " not found"), [])
  | .directory => ({ ending := .crash (.isDirectory task.file) }, [])
  | .file bytes =>
    let text := String.ofList (Text.unifyNewlines bytes.toList)
    match task with
    | .run file => withProgram o.log text (runTree o file)
    | .listTokens _ => tokenLines text
    | .emit file => withProgram o.log text (emitTree look (documentFile file))
    | .runDocument file => runJson o file text

/-- Do what the options ask for; `look` tells what stands at a path once the trace file is
empty. -/
def Options.perform (o : Options) (look : Path → Entry) : Report :=
  let (report, trace) : Work :=
    match o.task with
    | none => (Halt.report (.usage .missingFile), [])
    | some task => task.perform o look
  if o.verbosity = 0 then report
  else
    let written := (o.log.writeAll {} trace).stream
    { report with files := (traceFile, written) :: report.files }

/-- Run the command in a directory: its report, and the directory after it. -/
def runIn (before : Directory) (arguments : List String) : Report × Directory :=
  match options arguments with
  | .error halt => (halt.report, before)
  | .ok o =>
    if o.verbosity ≠ 0 ∧ before.entry traceFile = .directory then
      ({ ending := .crash (.isDirectory traceFile) }, before)
    else
      let emptied := if o.verbosity = 0 then before else before.write traceFile ""
      let report := o.perform emptied.entry
      (report, report.files.foldl (fun d f => d.write f.1 f.2) emptied)

end Yolol.Command
