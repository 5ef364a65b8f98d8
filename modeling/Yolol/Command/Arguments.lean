-- SUMMARY: The options of the command line and how they are read.
import Yolol.Run.Host
import Yolol.Text.Integer

/-!
# Arguments

Options may stand before and behind the file, may be shortened as long as they stay
unique, and take their value from the next argument or from behind an equals sign.
Behind a double dash there are no options. A negative number and text with a space
count as values. Of a repeated option the last value counts.
-/

namespace Yolol.Command

-- ---------------------------------------------------------------------------
-- Options
-- ---------------------------------------------------------------------------

inductive Flag where
  | help | verbose | steps | tokens | emit | document
  deriving DecidableEq

/-- Every spelling of every option. -/
def spellings : List (String × Flag) :=
  [("-h", .help), ("--help", .help), ("-v", .verbose), ("--steps", .steps),
   ("--tokens", .tokens), ("--emit-ast", .emit), ("--ast", .document)]

namespace Flag

def name (flag : Flag) : String :=
  "/".intercalate ((spellings.filter fun s => s.2 = flag).map (·.1))

def takesValue : Flag → Bool
  | .help | .verbose => false
  | .steps | .tokens | .emit | .document => true

/-- The options that exclude each other. -/
def exclusive : List Flag := [.tokens, .emit, .document]

end Flag

/-- Why arguments are refused. -/
inductive UsageFault where
  | ambiguous (argument : String) (candidates : List String)
  | expectedValue (flag : Flag)
  | unusedValue (flag : Flag) (value : String)
  | invalidInteger (flag : Flag) (value : String)
  | excluded (flag earlier : Flag)
  | unrecognized (arguments : List String)
  | missingFile
  deriving DecidableEq

namespace UsageFault

def about (flag : Flag) (text : String) : String := "argument " ++ flag.name ++ ": " ++ text

def message : UsageFault → String
  | .ambiguous argument candidates =>
    "ambiguous option: " ++ argument ++ " could match " ++ ", ".intercalate candidates
  | .expectedValue flag => about flag "expected one argument"
  | .unusedValue flag value => about flag ("ignored explicit argument " ++ Text.quoted value)
  | .invalidInteger flag value => about flag ("invalid int value: " ++ Text.quoted value)
  | .excluded flag earlier => about flag ("not allowed with argument " ++ earlier.name)
  | .unrecognized arguments => "unrecognized arguments: " ++ " ".intercalate arguments
  | .missingFile => "missing program file; or use --tokens/--emit-ast/--ast"

end UsageFault

/-- Why a command does nothing: help was asked for, or the arguments make no sense. -/
inductive Halt where
  | help
  | usage (fault : UsageFault)
  deriving DecidableEq

-- ---------------------------------------------------------------------------
-- Words
-- ---------------------------------------------------------------------------

/-- What an argument is, before its place is looked at. -/
inductive Word where
  /-- A value or a file. -/
  | plain (text : String)
  /-- The double dash. -/
  | divider
  /-- An option, whether it was spelled with one dash, and the text attached to it. -/
  | option (flag : Flag) (short : Bool) (attached : Option String)
  | unknown (text : String)
  deriving DecidableEq

def flag? (spelling : List Char) : Option Flag :=
  (spellings.find? fun s => s.1.toList == spelling).map (·.2)

/-- Text up to its first equals sign, and what follows the sign. -/
def splitEquals (cs : List Char) : List Char × Option String :=
  match cs.dropWhile (· != '=') with
  | [] => (cs, none)
  | _ :: value => (cs.takeWhile (· != '='), some (String.ofList value))

/-- A minus sign with a number behind it; a newline may end it. -/
def isNegativeNumber (cs : List Char) : Bool :=
  let isNumeral (ds : List Char) : Bool := !ds.isEmpty && ds.all Text.isDecimal
  let body := if cs.getLast? = some '\n' then cs.dropLast else cs
  match body with
  | '-' :: ds =>
    isNumeral ds
      || (match ds.dropWhile Text.isDecimal with
          | '.' :: places => isNumeral places
          | _ => false)
  | _ => false

/-- An argument with a dash that is no option as it stands. -/
def dashed (argument : List Char) : Word :=
  let text := String.ofList argument
  if isNegativeNumber argument || argument.contains ' ' then .plain text else .unknown text

/-- What a single argument is. -/
def word (argument : String) : Except UsageFault Word :=
  let cs := argument.toList
  let (name, value) := splitEquals cs
  match cs with
  | '-' :: second :: rest =>
    let short := second != '-'
    match flag? cs with
    | some flag => .ok (.option flag short none)
    | none =>
      match value.bind fun _ => flag? name with
      | some flag => .ok (.option flag short value)
      | none =>
        if short then
          match flag? ['-', second] with
          | some flag => .ok (.option flag true (some (String.ofList rest)))
          | none => .ok (dashed cs)
        else
          match spellings.filter fun s => name.isPrefixOf s.1.toList with
          | [] => .ok (dashed cs)
          | [candidate] => .ok (.option candidate.2 false value)
          | candidates => .error (.ambiguous argument (candidates.map (·.1)))
  | _ => .ok (.plain argument)

/-- What the arguments are, one by one. -/
def wordsOf : List String → Except UsageFault (List Word)
  | [] => .ok []
  | argument :: arguments =>
    if argument = "--" then .ok (.divider :: arguments.map .plain)
    else do
      let first ← word argument
      return first :: (← wordsOf arguments)

-- ---------------------------------------------------------------------------
-- Places
-- ---------------------------------------------------------------------------

structure Options where
  verbosity : Nat := 0
  /-- The number of lines to run; an empty value gives none. -/
  steps : Option Int := some Run.defaultSteps
  tokens : Option String := none
  emit : Option String := none
  document : Option String := none
  file : Option String := none

/-- What has been read of the arguments. -/
structure Progress where
  options : Options := {}
  /-- Whether the place of the file is taken. -/
  placed : Bool := false
  /-- The option that excludes others. -/
  chosen : Option Flag := none
  /-- Arguments without a place. -/
  extras : List String := []

namespace Progress

def leave (p : Progress) (text : String) : Progress := { p with extras := p.extras ++ [text] }

def placeFile (p : Progress) (file : Option String) : Progress :=
  { p with options := { p.options with file }, placed := true }

/-- Give an option its value. -/
def give (p : Progress) (flag : Flag) (value : Option String) : Except Halt Progress :=
  if flag = .steps then
    match value with
    | none => .ok { p with options := { p.options with steps := none } }
    | some text =>
      match Text.integer? text with
      | some steps => .ok { p with options := { p.options with steps := some steps } }
      | none => .error (.usage (.invalidInteger flag text))
  else
    match p.chosen.filter (· ≠ flag) with
    | some other => .error (.usage (.excluded flag other))
    | none =>
      let p := { p with chosen := some flag }
      match flag with
      | .tokens => .ok { p with options := { p.options with tokens := value } }
      | .emit => .ok { p with options := { p.options with emit := value } }
      | .document => .ok { p with options := { p.options with document := value } }
      | _ => .ok p

/-- Act on an option without a value. -/
def raise (p : Progress) (flag : Flag) : Except Halt Progress :=
  if flag = .help then .error .help
  else .ok { p with options := { p.options with verbosity := p.options.verbosity + 1 } }

end Progress

/-- The options that `flag` and the letters behind it stand for. -/
def cluster (flag : Flag) : List Char → Except UsageFault (List Flag)
  | [] => .ok [flag]
  | c :: cs =>
    match flag? ['-', c] with
    | none => .error (.unusedValue flag (String.ofList (c :: cs)))
    | some next => do return flag :: (← cluster next cs)

/-- The options without a value that one argument stands for. -/
def flagsOf (flag : Flag) (short : Bool) : Option String → Except UsageFault (List Flag)
  | none => .ok [flag]
  | some text =>
    if short && text != "" then cluster flag text.toList else .error (.unusedValue flag text)

/-- The value that text attached to an option stands for; a double dash is an empty one. -/
def valueOf (text : String) : Option String := if text = "--" then none else some text

/-- Read the words from left to right. -/
def place (p : Progress) : List Word → Except Halt Progress
  | [] => .ok p
  | .unknown text :: rest => place (p.leave text) rest
  | .plain text :: rest =>
    if p.placed then place (p.leave text) rest
    else
      match rest with
      | .divider :: rest => place (p.placeFile (some text)) rest
      | rest => place (p.placeFile (some text)) rest
  | .divider :: rest =>
    if p.placed then place (p.leave "--") rest
    else
      match rest with
      | .plain text :: rest => place (p.placeFile (some text)) rest
      | rest => place (p.placeFile none) rest
  | .option flag short attached :: rest =>
    if flag.takesValue then
      match attached, rest with
      | some text, rest => do place (← p.give flag (valueOf text)) rest
      | none, .plain text :: rest => do place (← p.give flag (valueOf text)) rest
      | none, _ => .error (.usage (.expectedValue flag))
    else
      match flagsOf flag short attached with
      | .error f => .error (.usage f)
      | .ok flags => do place (← flags.foldlM Progress.raise p) rest

/-- The options that the arguments spell. -/
def options (arguments : List String) : Except Halt Options :=
  match wordsOf arguments with
  | .error f => .error (.usage f)
  | .ok words => do
    let p ← place {} words
    if p.extras.isEmpty then return p.options else .error (.usage (.unrecognized p.extras))

end Yolol.Command
