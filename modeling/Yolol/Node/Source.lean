-- SUMMARY: A tree written back as source text.
import Yolol.Node
import Yolol.Number.Literal

/-!
# Source text of a tree

Parentheses are part of the tree, so writing never has to add any. Statements are
separated by a space and lines by a newline. A local name that is no text has nothing
around it that could make it one, so a tree with such a name cannot be written.
-/

namespace Yolol.Node

mutual
/-- The node as source text. -/
def source : Node → String
  | .missing => "None"
  | .misfit .comment content => "//" ++ content.dump
  | .misfit .text content => "\"" ++ content.dump ++ "\""
  | .misfit (.name shared) content => if shared then ":" ++ content.dump else content.dump
  | .number n => n.toLiteral
  | .text s => "\"" ++ s ++ "\""
  | .identifier id => id.source
  | .group a => "(" ++ a.source ++ ")"
  | .value a => a.source
  | .unary op a =>
    if op.isTrailing then a.source ++ op.symbol
    else if op.isWord then op.symbol ++ " " ++ a.source
    else op.symbol ++ a.source
  | .binary op a b => a.source ++ " " ++ op.symbol ++ " " ++ b.source
  | .comment s => "//" ++ s
  | .goto a => "goto " ++ a.source
  | .ifThen c body => " ".intercalate ("if" :: c.source :: "then" :: sources body ++ ["end"])
  | .ifElse c body otherwise =>
    " ".intercalate
      ("if" :: c.source :: "then" :: sources body ++ "else" :: sources otherwise ++ ["end"])
  | .assignment target op a => target.source ++ " " ++ op.symbol ++ " " ++ a.source
  | .evaluation a => a.source
  | .line statements => " ".intercalate (sources statements)
  | .program lines => "\n".intercalate (sources lines)

/-- The nodes as source text, one by one. -/
def sources : List Node → List String
  | [] => []
  | a :: as => a.source :: sources as
end

mutual
/-- The first local name that is no text. A tree without one can be written. -/
def unwritable? : Node → Option Json
  | .misfit (.name false) content => some content
  | .missing | .misfit .. | .number _ | .text _ | .identifier _ | .comment _ => none
  | .group a | .value a | .unary _ a | .goto a | .evaluation a => a.unwritable?
  | .binary _ a b | .assignment a _ b => a.unwritable? <|> b.unwritable?
  | .ifThen c body => c.unwritable? <|> unwritableIn? body
  | .ifElse c body otherwise => c.unwritable? <|> unwritableIn? body <|> unwritableIn? otherwise
  | .line as | .program as => unwritableIn? as

/-- The first local name in a list of nodes that is no text. -/
def unwritableIn? : List Node → Option Json
  | [] => none
  | a :: as => a.unwritable? <|> unwritableIn? as
end

end Yolol.Node
