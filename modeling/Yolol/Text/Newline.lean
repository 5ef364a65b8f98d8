-- SUMMARY: The newlines of text files of every origin made the same.

/-!
# Newlines

A file may end its lines by a line feed, by a carriage return, or by both. Text read
from it has line feeds only.
-/

namespace Yolol.Text

/-- Make every line end a line feed. -/
def unifyNewlines : List Char → List Char
  | [] => []
  | '\r' :: '\n' :: cs => '\n' :: unifyNewlines cs
  | '\r' :: cs => '\n' :: unifyNewlines cs
  | c :: cs => c :: unifyNewlines cs

end Yolol.Text
