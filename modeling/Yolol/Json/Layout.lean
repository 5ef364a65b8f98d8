-- SUMMARY: JSON values as text, on one line or indented.
import Yolol.Json

/-!
# JSON text

Characters stand for themselves, except for the quote, the backslash and the
controls. The indented layout gives every item and every field a line of its own.
-/

namespace Yolol.Json

/-- One character within a JSON string. -/
def escape (c : Char) : List Char :=
  if c == '\x22' then ['\\', '\x22']
  else if c == '\\' then ['\\', '\\']
  else if c == '\n' then ['\\', 'n']
  else if c == '\r' then ['\\', 'r']
  else if c == '\t' then ['\\', 't']
  else if c == '\x08' then ['\\', 'b']
  else if c == '\x0c' then ['\\', 'f']
  else if c.toNat < 0x20 then ['\\', 'u'] ++ Decimal.hex 4 c.toNat
  else [c]

def quote (s : String) : String :=
  String.ofList ('\x22' :: s.toList.flatMap escape ++ ['\x22'])

/-- A value without parts. -/
def scalar : Json → String
  | .null => "null"
  | .bool b => if b then "true" else "false"
  | .int n => Decimal.int n
  | .float bits =>
    match Double.ofBits bits with
    | .notANumber => "NaN"
    | .infinite negative => if negative then "-Infinity" else "Infinity"
    | .finite .. => Double.toText bits
  | .str s => quote s
  | .arr _ => "[]"
  | .obj _ => "\x7b\x7d"

/-- A new line, indented by two spaces a level. -/
def newline (depth : Nat) : String := "\n" ++ String.ofList (List.replicate (2 * depth) ' ')

/-- Parts between brackets, each on a line of its own. -/
def block (start stop : String) (depth : Nat) (parts : List String) : String :=
  if parts.isEmpty then start ++ stop
  else
    start ++ newline (depth + 1) ++ ("," ++ newline (depth + 1)).intercalate parts
      ++ newline depth ++ stop

mutual
/-- The indented layout of a value that stands `depth` levels deep. -/
def indented (depth : Nat) : Json → String
  | .arr items => block "[" "]" depth (indentedItems (depth + 1) items)
  | .obj fields => block "\x7b" "\x7d" depth (indentedFields (depth + 1) fields)
  | j => scalar j

def indentedItems (depth : Nat) : List Json → List String
  | [] => []
  | j :: js => indented depth j :: indentedItems depth js

def indentedFields (depth : Nat) : List (String × Json) → List String
  | [] => []
  | (k, v) :: rest => (quote k ++ ": " ++ indented depth v) :: indentedFields depth rest
end

mutual
/-- The value on one line. -/
def compact : Json → String
  | .arr items => "[" ++ ",".intercalate (compactItems items) ++ "]"
  | .obj fields => "\x7b" ++ ",".intercalate (compactFields fields) ++ "\x7d"
  | j => scalar j

def compactItems : List Json → List String
  | [] => []
  | j :: js => j.compact :: compactItems js

def compactFields : List (String × Json) → List String
  | [] => []
  | (k, v) :: rest => (quote k ++ ":" ++ v.compact) :: compactFields rest
end

end Yolol.Json
