-- SUMMARY: A place in a list of tokens, with looking ahead and moving on.
import Yolol.Token

/-!
# Cursors

A cursor marks a place in a list of tokens. The place is an integer and may lie
outside the list: looking there finds nothing, and moving on never goes past the
end, though nothing stops it from going back.
-/

namespace Yolol

/-- The items from `start` up to `stop`; a negative bound counts from the end. -/
def slice {α : Type} (xs : List α) (start stop : Int) : List α :=
  let bound (i : Int) : Nat := if i < 0 then (i + xs.length).toNat else i.toNat
  (xs.take (bound stop)).drop (bound start)

structure Cursor where
  tokens : List Token
  position : Int := 0

namespace Cursor

/-- The token `offset` places ahead. -/
def peek (c : Cursor) (offset : Int) : Option Token :=
  let index := c.position + offset
  if index < 0 then none else c.tokens[index.toNat]?

/-- The next `n` tokens, as far as there are any. -/
def window (c : Cursor) (n : Int) : List Token := slice c.tokens c.position (c.position + n)

/-- Move `n` places on, but not past the end. -/
def advance (c : Cursor) (n : Int) : Cursor :=
  { c with position := min (c.position + n) c.tokens.length }

/-- The number of tokens that are left; negative past the end. -/
def remaining (c : Cursor) : Int := c.tokens.length - c.position

/-- The tokens from the place on, for a place within the list. -/
def rest (c : Cursor) : List Token := c.tokens.drop c.position.toNat

/-- Move to the place where `rest` begins. -/
def moveTo (c : Cursor) (rest : List Token) : Cursor :=
  { c with position := c.tokens.length - rest.length }

def dump (c : Cursor) : String :=
  "TokenCursor(position=" ++ Decimal.int c.position ++ ", remaining=" ++ Decimal.int c.remaining
    ++ ")"

end Cursor

end Yolol
