-- SUMMARY: From source text to tokens: one lexeme at a time, always the longest that fits.
import Yolol.Token

/-!
# Lexing

Spaces, tabs and carriage returns separate tokens, and a newline is a token. At
every place at most one kind of lexeme can start, and it is taken as long as it
goes. A character that starts none is a fault, and then there are no tokens at all.
-/

namespace Yolol.Token

-- ---------------------------------------------------------------------------
-- Characters
-- ---------------------------------------------------------------------------

/-- A character that separates tokens within a line. -/
def isSeparator (c : Char) : Bool := c == ' ' || c == '\t' || c == '\r'

/-- A digit of a number or an identifier. -/
def isNumeral (c : Char) : Bool := '0' ≤ c && c ≤ '9'

/-- The lower-case letter that `c` counts as. Besides the capital letters these are
    the dotless and the dotted i, the long s and the Kelvin sign. -/
def foldCase (c : Char) : Char :=
  if 'A' ≤ c && c ≤ 'Z' then Char.ofNat (c.toNat + 32)
  else if c == 'ı' || c == 'İ' then 'i'
  else if c == 'ſ' then 's'
  else if c == '\u212a' then 'k'
  else c

/-- A letter or an underscore, which can start an identifier. -/
def isWordStart (c : Char) : Bool := c == '_' || ('a' ≤ foldCase c && foldCase c ≤ 'z')

/-- A character within an identifier. -/
def isWordChar (c : Char) : Bool := isWordStart c || isNumeral c

/-- The kind of a token of a single character. -/
def punctuation? : Char → Option Kind
  | '+' => some .plus
  | '-' => some .minus
  | '*' => some .star
  | '/' => some .slash
  | '%' => some .percent
  | '^' => some .caret
  | '!' => some .exclam
  | '=' => some .equal
  | '<' => some .langle
  | '>' => some .rangle
  | '(' => some .lparen
  | ')' => some .rparen
  | _ => none

/-- The reserved words, in lower case. -/
def reserved : List (String × Kind) :=
  [("goto", .gotoWord), ("if", .ifWord), ("then", .thenWord), ("else", .elseWord),
   ("end", .endWord), ("abs", .absWord), ("sqrt", .sqrtWord), ("sin", .sinWord),
   ("cos", .cosWord), ("tan", .tanWord), ("arcsin", .arcsinWord), ("arccos", .arccosWord),
   ("arctan", .arctanWord), ("not", .notWord), ("and", .andWord), ("or", .orWord)]

/-- The reserved word that `word` is, in any letter case. -/
def reserved? (word : List Char) : Option Kind :=
  (reserved.find? fun r => r.1.toList == word.map foldCase).map (·.2)

-- ---------------------------------------------------------------------------
-- Lexemes
-- ---------------------------------------------------------------------------

/-- A stretch of source text: the kind and the text of its token, if it makes one,
    and the number of its characters after the first. -/
structure Lexeme where
  token : Option (Kind × Option String)
  more : Nat

/-- The length of the rest of a number: digits, and a fraction if a digit follows the
    point. -/
def numeralLength (cs : List Char) : Nat :=
  let whole := (cs.takeWhile isNumeral).length
  match cs.drop whole with
  | '.' :: rest =>
    let fraction := (rest.takeWhile isNumeral).length
    if fraction = 0 then whole else whole + 1 + fraction
  | _ => whole

/-- The lexeme that starts with `c` and goes on in `cs`. -/
def lexeme? (c : Char) (cs : List Char) : Option Lexeme :=
  if isSeparator c then some ⟨none, 0⟩
  else if c = '\n' then some ⟨some (.newline, none), 0⟩
  else if c = '/' ∧ cs.head? = some '/' then
    let body := (cs.drop 1).takeWhile (· != '\n')
    some ⟨some (.comment, some (String.ofList body)), 1 + body.length⟩
  else if c = '\x22' then
    let body := cs.takeWhile fun d => d != '\x22' && d != '\n'
    if cs[body.length]? = some '\x22' then
      some ⟨some (.string, some (String.ofList body)), body.length + 1⟩
    else none
  else if isNumeral c then
    let more := numeralLength cs
    some ⟨some (.number, some (String.ofList (c :: cs.take more))), more⟩
  else if isWordStart c then
    let tail := cs.takeWhile isWordChar
    match reserved? (c :: tail) with
    | some kind => some ⟨some (kind, none), tail.length⟩
    | none => some ⟨some (.identifier, some (String.ofList (c :: tail))), tail.length⟩
  else if c = ':' then
    if cs.head?.any isWordStart then
      let tail := cs.takeWhile isWordChar
      some ⟨some (.identifier, some (String.ofList (c :: tail))), tail.length⟩
    else none
  else (punctuation? c).map fun kind => ⟨some (kind, none), 0⟩

-- ---------------------------------------------------------------------------
-- Scanning
-- ---------------------------------------------------------------------------

/-- A character that starts no lexeme. -/
structure LexFault where
  found : Char
  position : Position
  deriving DecidableEq

def LexFault.text (f : LexFault) : String :=
  "unexpected character " ++ Text.quoted (String.singleton f.found)

def LexFault.message (f : LexFault) : String :=
  "LexError: " ++ f.text ++ " at " ++ Decimal.nat f.position.line ++ ":"
    ++ Decimal.nat f.position.column

/-- The place behind `c`, which stands at `p`. -/
def Position.next (p : Position) (c : Char) : Position :=
  if c = '\n' then ⟨p.line + 1, 1⟩ else ⟨p.line, p.column + 1⟩

/-- The place behind `cs`, which starts at `p`. -/
def Position.after (p : Position) (cs : List Char) : Position := cs.foldl Position.next p

/-- The token of a lexeme that starts at `p`; none for a separator. -/
def Lexeme.tokens (l : Lexeme) (p : Position) : List Token :=
  match l.token with
  | none => []
  | some (kind, text) => [{ kind, text, position := p }]

/-- The tokens of text that starts at `p`. -/
def scanFrom (p : Position) : List Char → Except LexFault (List Token)
  | [] => .ok []
  | c :: cs =>
    match lexeme? c cs with
    | none => .error ⟨c, p⟩
    | some l =>
      match scanFrom (p.after (c :: cs.take l.more)) (cs.drop l.more) with
      | .error f => .error f
      | .ok ts => .ok (l.tokens p ++ ts)
termination_by cs => cs.length
decreasing_by simp only [List.length_cons, List.length_drop]; omega

/-- The tokens of source text. -/
def scan (source : String) : Except LexFault (List Token) := scanFrom ⟨1, 1⟩ source.toList

end Yolol.Token
