-- SUMMARY: Text in quotes, with the unprintable characters escaped.
import Yolol.Text.Decimal
import Yolol.Text.Printable

/-!
# Quoted text

Diagnostics show text in single quotes. Text that holds a single quote and no
double quote stands in double quotes instead, so that no quote needs an escape.
-/

namespace Yolol.Text

/-- The quote that surrounds `cs`. -/
def quoteFor (cs : List Char) : Char :=
  if cs.contains '\x27' && !cs.contains '\x22' then '\x22' else '\x27'

/-- One character of text that stands between two `quote`s. -/
def escape (quote c : Char) : List Char :=
  if c == '\\' || c == quote then ['\\', c]
  else if c == '\n' then ['\\', 'n']
  else if c == '\r' then ['\\', 'r']
  else if c == '\t' then ['\\', 't']
  else if isPrintable c then [c]
  else if c.toNat < 0x100 then ['\\', 'x'] ++ Decimal.hex 2 c.toNat
  else if c.toNat < 0x10000 then ['\\', 'u'] ++ Decimal.hex 4 c.toNat
  else ['\\', 'U'] ++ Decimal.hex 8 c.toNat

/-- Text between the quotes that fit it. -/
def quoted (s : String) : String :=
  let quote := quoteFor s.toList
  String.ofList (quote :: s.toList.flatMap (escape quote) ++ [quote])

end Yolol.Text
