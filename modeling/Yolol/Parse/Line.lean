-- SUMMARY: Lines and programs: statements up to a newline, and lines up to the end.
import Yolol.Node.Dump
import Yolol.Parse.Statement
import Yolol.Token.Cursor
import Yolol.Token.Lexer

/-!
# Lines and programs

A newline ends a line; the last line needs none, but exists only if it has a
statement. A program can be read in one go or line by line from a cursor.
-/

namespace Yolol.Parse

/-- The outcome of reading: a tree or a failure, what is left, and the trace. -/
structure Reading where
  result : Except (Failure StatementFault) Node
  rest : List Token
  trace : List Message := []

/-- Put messages in front of the trace. -/
def Reading.prepend (r : Reading) (ms : List Message) : Reading := { r with trace := ms ++ r.trace }

-- ---------------------------------------------------------------------------
-- Messages
-- ---------------------------------------------------------------------------

def parsedMessage (s : Node) : Message := ⟨"[Parser] parsed statement: " ++ s.dump, 2⟩

/-- What the trace says about a line that cannot go on: what has been read of it, the
    tokens that follow, and the fault. Nothing is said about a token without meaning. -/
def failureMessages (soFar : List Node) (rest : List Token) : Failure StatementFault → List Message
  | .fault f =>
    [⟨"[Parser] erroring out, line so far: " ++ (Node.line soFar).source, 2⟩,
     ⟨"[Parser] erroring out, window: " ++ Node.dumpList ((rest.take 3).map Token.dump), 2⟩,
     ⟨"[Parser] " ++ f.message, 1⟩]
  | .token _ => []

def finishedMessage (line : Node) : Message := ⟨"[Parser] finished line: " ++ line.source, 1⟩

def numberedMessage (number : Nat) (line : Node) : Message :=
  ⟨"[Parser] finished line " ++ Decimal.nat number ++ ": " ++ line.source, 1⟩

-- ---------------------------------------------------------------------------
-- Lines
-- ---------------------------------------------------------------------------

/-- The rest of a line of which `soFar` has been read. -/
def lineFrom (soFar : List Node) : List Token → Reading
  | [] => ⟨.ok (.line soFar), [], [finishedMessage (.line soFar)]⟩
  | t :: ts =>
    if t.kind = .newline then ⟨.ok (.line soFar), ts, [finishedMessage (.line soFar)]⟩
    else
      let next := statement (t :: ts)
      match next.value with
      | .failed f rest _ => ⟨.error f, rest, next.trace ++ failureMessages soFar rest f⟩
      | .found s rest _ =>
        (lineFrom (soFar ++ [s]) rest).prepend (next.trace ++ [parsedMessage s])
termination_by ts => ts.length
decreasing_by assumption

/-- The first line of the tokens. -/
def line (ts : List Token) : Reading := lineFrom [] ts

/-- A line that can be read leaves fewer tokens, if there are any. -/
theorem length_rest_lineFrom (soFar : List Node) (ts : List Token) {node : Node}
    (h : (lineFrom soFar ts).result = .ok node) :
    (lineFrom soFar ts).rest.length ≤ ts.length - 1 := by
  fun_induction lineFrom soFar ts with
  | case1 => simp
  | case2 => simp
  | case3 => simp at h
  | case4 soFar t ts _ next s rest fewer _ ih =>
    have shorter : rest.length < ts.length + 1 := fewer
    have := ih h
    simp only [Reading.prepend, List.length_cons]
    omega

/-- The lines of the tokens one by one, up to the first that cannot be read. -/
def lines (ts : List Token) : List Reading :=
  match ts with
  | [] => []
  | t :: ts =>
    let reading := line (t :: ts)
    match h : reading.result with
    | .error _ => [reading]
    | .ok _ =>
      have := length_rest_lineFrom [] (t :: ts) h
      reading :: lines reading.rest
termination_by ts.length
decreasing_by
  show (lineFrom [] (t :: ts)).rest.length < (t :: ts).length
  simp only [List.length_cons] at *
  omega

-- ---------------------------------------------------------------------------
-- Programs
-- ---------------------------------------------------------------------------

/-- The rest of a program of which `lines`, and `soFar` of the line after them, have been
    read. -/
def programFrom (lines soFar : List Node) : List Token → Reading
  | [] =>
    if soFar.isEmpty then ⟨.ok (.program lines), [], []⟩
    else
      ⟨.ok (.program (lines ++ [.line soFar])), [],
        [numberedMessage (lines.length + 1) (.line soFar)]⟩
  | t :: ts =>
    if t.kind = .newline then
      (programFrom (lines ++ [.line soFar]) [] ts).prepend
        [numberedMessage (lines.length + 1) (.line soFar)]
    else
      let next := statement (t :: ts)
      match next.value with
      | .failed f rest _ => ⟨.error f, rest, next.trace ++ failureMessages soFar rest f⟩
      | .found s rest _ =>
        (programFrom lines (soFar ++ [s]) rest).prepend (next.trace ++ [parsedMessage s])
termination_by ts => ts.length
decreasing_by
  · exact Nat.lt_succ_self _
  · assumption

/-- All lines of the tokens. -/
def program (ts : List Token) : Reading := programFrom [] [] ts

-- ---------------------------------------------------------------------------
-- Source text
-- ---------------------------------------------------------------------------

/-- Why source text has no tree. -/
inductive SourceFault where
  | lex (fault : Token.LexFault)
  | statement (fault : StatementFault)
  | token (fault : TokenFault)
  deriving DecidableEq

def SourceFault.ofFailure : Failure StatementFault → SourceFault
  | .fault f => .statement f
  | .token f => .token f

/-- Scan source text and read its tokens by `rule`. -/
def ofSource (rule : List Token → Reading) (source : String) : Except SourceFault Node :=
  match Token.scan source with
  | .error f => .error (.lex f)
  | .ok ts =>
    match (rule ts).result with
    | .ok node => .ok node
    | .error f => .error (.ofFailure f)

/-- A tree of source text is read from its tokens. -/
theorem ofSource_eq_ok {rule : List Token → Reading} {source : String} {node : Node}
    (h : ofSource rule source = .ok node) :
    ∃ ts, Token.scan source = .ok ts ∧ (rule ts).result = .ok node := by
  unfold ofSource at h
  split at h
  · cases h
  · next ts hscan =>
    split at h
    · next hresult =>
      cases h
      exact ⟨ts, hscan, hresult⟩
    · cases h

/-- The program that source text spells. -/
def programOfSource (source : String) : Except SourceFault Node := ofSource program source

/-- The first line that source text spells. -/
def lineOfSource (source : String) : Except SourceFault Node := ofSource line source

end Yolol.Parse

namespace Yolol.Cursor

/-- Read a line from the place of the cursor on and move behind it. In front of the list
    no statement can be read, and behind it there is nothing but the empty line. -/
def readLine (c : Cursor) : Cursor × Parse.Reading :=
  if c.position < 0 then
    let failure : Parse.Failure Parse.StatementFault := .fault (.expression (.expected none))
    (c, ⟨.error failure, c.tokens, Parse.failureMessages [] (c.window 3) failure⟩)
  else if c.tokens.length ≤ c.position then (c, Parse.line [])
  else
    let reading := Parse.line c.rest
    (c.moveTo reading.rest, reading)

end Yolol.Cursor
