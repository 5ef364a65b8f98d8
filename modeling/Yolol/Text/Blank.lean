-- SUMMARY: The characters that surround a numeral without belonging to it.

/-!
# Blank characters

Blank are the controls from tab to carriage return and from file to unit
separator, next line, and the space separators. A numeral is read after the
blanks on both its sides are removed.
-/

namespace Yolol.Text

/-- A character that does not belong to the numeral it surrounds. -/
def isBlank (c : Char) : Bool :=
  let n := c.toNat
  (0x09 ≤ n && n ≤ 0x0d) || (0x1c ≤ n && n ≤ 0x20) || n == 0x85 || n == 0xa0 || n == 0x1680
    || (0x2000 ≤ n && n ≤ 0x200a) || n == 0x2028 || n == 0x2029 || n == 0x202f || n == 0x205f
    || n == 0x3000

/-- Drop the characters satisfying `p` from the end. -/
def dropEnd (p : Char → Bool) (cs : List Char) : List Char :=
  (cs.reverse.dropWhile p).reverse

/-- Drop the blanks on both sides. -/
def strip (cs : List Char) : List Char :=
  dropEnd isBlank (cs.dropWhile isBlank)

end Yolol.Text
