-- SUMMARY: Tokens: what kinds there are, and what a token carries.
import Yolol.Json
import Yolol.Text.Quoted

/-!
# Tokens

Every operator is made of single-character tokens, so `+=` and `==` are two
tokens each. A token carries text only if its kind does not determine it.
-/

namespace Yolol

namespace Token

inductive Kind where
  -- Structure
  | newline | comment
  -- Words
  | gotoWord | ifWord | thenWord | elseWord | endWord
  | absWord | sqrtWord | sinWord | cosWord | tanWord | arcsinWord | arccosWord | arctanWord
  | notWord | andWord | orWord
  -- Punctuation
  | plus | minus | star | slash | percent | caret | exclam | equal
  | langle | rangle | lparen | rparen
  -- Texts
  | identifier | number | string
  deriving DecidableEq

/-- The name of a kind in dumps. -/
def Kind.name : Kind → String
  | .newline => "NEWLINE"
  | .comment => "COMMENT"
  | .gotoWord => "GOTO"
  | .ifWord => "IF"
  | .thenWord => "THEN"
  | .elseWord => "ELSE"
  | .endWord => "END"
  | .absWord => "ABS"
  | .sqrtWord => "SQRT"
  | .sinWord => "SIN"
  | .cosWord => "COS"
  | .tanWord => "TAN"
  | .arcsinWord => "ARCSIN"
  | .arccosWord => "ARCCOS"
  | .arctanWord => "ARCTAN"
  | .notWord => "NOT"
  | .andWord => "AND"
  | .orWord => "OR"
  | .plus => "PLUS"
  | .minus => "MINUS"
  | .star => "STAR"
  | .slash => "SLASH"
  | .percent => "PERCENT"
  | .caret => "CARET"
  | .exclam => "EXCLAM"
  | .equal => "EQUAL"
  | .langle => "LANGLE"
  | .rangle => "RANGLE"
  | .lparen => "LPAREN"
  | .rparen => "RPAREN"
  | .identifier => "IDENTIFIER"
  | .number => "NUMBER"
  | .string => "STRING"

/-- Every kind, once. -/
def Kind.all : List Kind :=
  [.newline, .comment, .gotoWord, .ifWord, .thenWord, .elseWord, .endWord, .absWord,
   .sqrtWord, .sinWord, .cosWord, .tanWord, .arcsinWord, .arccosWord, .arctanWord,
   .notWord, .andWord, .orWord, .plus, .minus, .star, .slash, .percent, .caret, .exclam,
   .equal, .langle, .rangle, .lparen, .rparen, .identifier, .number, .string]

/-- The kind of the given name. -/
def Kind.ofName? (s : String) : Option Kind := all.find? fun k => k.name == s

/-- A place in source text; lines and columns count from one. -/
structure Position where
  line : Nat
  column : Nat
  deriving DecidableEq

end Token

/-- A token. The text is that of a comment without its slashes, of a string without
    its quotes, and of an identifier or a number as written. -/
structure Token where
  kind : Token.Kind
  text : Option String := none
  position : Token.Position := ⟨0, 0⟩
  /-- Some other value in the place of the text; tokens of source text have none. -/
  misfit : Option Json := none
  deriving DecidableEq

namespace Token

/-- The form in which messages show a token; its place is left out. -/
def dump (t : Token) : String :=
  match t.text, t.misfit with
  | some s, _ => "Token(" ++ t.kind.name ++ ", " ++ Text.quoted s ++ ")"
  | none, some content => "Token(" ++ t.kind.name ++ ", " ++ content.dump ++ ")"
  | none, none => "Token(" ++ t.kind.name ++ ")"

/-- What a message says it found in front of the remaining tokens. -/
def describe : Option Token → String
  | none => "end of input"
  | some t => t.dump

end Token

end Yolol
