-- SUMMARY: Paths of files: their parts, their names, and their text.

/-!
# Paths

A path is a sequence of parts below a root or below the working directory. Empty
parts and single dots do not count; double dots do.
-/

namespace Yolol

structure Path where
  /-- Nothing, one slash or two. -/
  root : String := ""
  parts : List String
  deriving DecidableEq

namespace Path

/-- The root of a path with that many leading slashes; only exactly two are kept. -/
def rootOf (slashes : Nat) : String :=
  match slashes with
  | 0 => ""
  | 2 => "//"
  | _ => "/"

/-- Cut text at every slash. -/
def cut : List Char → List (List Char)
  | [] => [[]]
  | '/' :: cs => [] :: cut cs
  | c :: cs =>
    match cut cs with
    | [] => [[c]]
    | part :: parts => (c :: part) :: parts

def ofText (text : String) : Path :=
  let cs := text.toList
  { root := rootOf (cs.takeWhile (· == '/')).length
    parts := ((cut cs).map String.ofList).filter fun part => part != "" && part != "." }

def text (p : Path) : String :=
  if p.root = "" && p.parts.isEmpty then "." else p.root ++ "/".intercalate p.parts

/-- The last part. -/
def name (p : Path) : String := p.parts.getLast?.getD ""

/-- The name up to its last dot, unless the dot starts or ends the name. -/
def stem (p : Path) : String :=
  let cs := p.name.toList
  let ending := cs.reverse.takeWhile (· != '.')
  let front := cs.length - ending.length - 1
  if ending.isEmpty || front = 0 || ending.length = cs.length then p.name
  else String.ofList (cs.take front)

/-- The path with `ending` behind its name. -/
def extend (p : Path) (ending : String) : Path :=
  { p with parts := p.parts.dropLast ++ [p.name ++ ending] }

end Path

end Yolol
