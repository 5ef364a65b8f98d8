-- SUMMARY: Decimal and hexadecimal numerals of natural numbers and integers.

/-!
# Numerals

Natural numbers are written in base ten without leading zeros, and read back as
the value of a list of digits.
-/

namespace Yolol.Decimal

/-- The character for a digit below ten. -/
def digitChar (d : Nat) : Char := Char.ofNat (48 + d)

/-- The digits of `n` in base ten, most significant first. -/
def digits (n : Nat) : List Char :=
  if n < 10 then [digitChar n] else digits (n / 10) ++ [digitChar (n % 10)]

/-- The numeral of a natural number. -/
def nat (n : Nat) : String := String.ofList (digits n)

/-- The numeral of an integer, with a minus sign if it is negative. -/
def int (n : Int) : String := if n < 0 then "-" ++ nat n.natAbs else nat n.natAbs

/-- The number that digit values denote, most significant first. -/
def value (ds : List Nat) : Nat := ds.foldl (fun acc d => 10 * acc + d) 0

/-- `n` written with exactly `width` base-ten digits; higher digits are lost. -/
def padded : (width n : Nat) → List Char
  | 0, _ => []
  | width + 1, n => padded width (n / 10) ++ [digitChar (n % 10)]

/-- The character for a digit below sixteen, in lower case. -/
def hexChar (d : Nat) : Char := Char.ofNat (if d < 10 then 48 + d else 87 + d)

/-- `n` written with exactly `width` base-sixteen digits; higher digits are lost. -/
def hex : (width n : Nat) → List Char
  | 0, _ => []
  | width + 1, n => hex width (n / 16) ++ [hexChar (n % 16)]

end Yolol.Decimal
