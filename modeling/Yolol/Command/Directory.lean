-- SUMMARY: The files below a working directory, as far as a command sees them.
import Yolol.Command.Path
import Yolol.Store

/-!
# Directories

A directory is the collection of the files below it, each under the sequence of its
parts. A sequence of parts is a directory if it leads to a file; going up and down
again is possible only through directories.
-/

namespace Yolol

/-- What stands at a path. -/
inductive Entry where
  | absent
  | directory
  | file (text : String)
  deriving DecidableEq

/-- Where a path leads. -/
inductive Place where
  /-- To the working directory, or below it. -/
  | below (parts : List String)
  /-- To a directory above; it is there, but nothing is known of what it holds. -/
  | above
  deriving DecidableEq

abbrev Directory := Store (List String) String

namespace Directory

/-- Whether there is a directory at `place`. -/
def hasDirectory (d : Directory) (place : List String) : Bool :=
  place.isEmpty || d.keys.any fun key => place.isPrefixOf key && place.length < key.length

/-- Follow `parts` from a place. -/
def follow (d : Directory) : Place → List String → Option Place
  | place, [] => some place
  | .above, part :: parts => if part = ".." then d.follow .above parts else none
  | .below place, part :: parts =>
    if !d.hasDirectory place then none
    else if part != ".." then d.follow (.below (place ++ [part])) parts
    else if place.isEmpty then d.follow .above parts
    else d.follow (.below place.dropLast) parts

/-- The place that a path leads to. -/
def place? (d : Directory) (p : Path) : Option Place :=
  d.follow (if p.root = "" then .below [] else .above) p.parts

/-- What stands at a path. -/
def entry (d : Directory) (p : Path) : Entry :=
  match d.place? p with
  | none => .absent
  | some .above => .directory
  | some (.below place) =>
    match d.get? place with
    | some text => .file text
    | none => if d.hasDirectory place then .directory else .absent

/-- Write a file. -/
def write (d : Directory) (p : Path) (text : String) : Directory :=
  match d.place? p with
  | some (.below place) => d.set place text
  | _ => d

/-- The files that `after` has anew or with another text. -/
def changes (before after : Directory) : List (List String × String) :=
  after.entries.filter fun e => before.get? e.1 ≠ some e.2

end Directory

end Yolol
