import ClassOutline.Text.Split
import ClassOutline.Text.Utf8

/-!
# Paths

A path as its parts: slashes that add nothing and `.` parts vanish, `..` parts stay. The text of a
path reads back as the same path.
-/

namespace ClassOutline

def byteCount (text : String) : Nat :=
  (Utf8.encode text).length

/-- Where a path starts. Two slashes at the start, and no more, are kept apart from one. -/
inductive Anchor where
  | relative
  | root
  | doubleRoot
  deriving DecidableEq, Repr

def Anchor.text : Anchor → String
  | relative => ""
  | root => "/"
  | doubleRoot => "//"

structure Path where
  anchor : Anchor
  parts : List String
  deriving DecidableEq, Repr

namespace Path

def split (text : String) : List String :=
  Split.text '/' text

/-- The anchor that a text announces by the slashes at its start. -/
def anchorOf (text : String) : Anchor :=
  match (text.toList.takeWhile (· = '/')).length with
  | 0 => .relative
  | 2 => .doubleRoot
  | _ => .root

def ofText (text : String) : Path :=
  ⟨anchorOf text, (split text).filter fun part => part ≠ "" ∧ part ≠ "."⟩

def join (parts : List String) : String :=
  "/".intercalate parts

/-- The text of a path; a relative path without parts is a dot. -/
def text (p : Path) : String :=
  match p.anchor, p.parts with
  | .relative, [] => "."
  | anchor, parts => anchor.text ++ join parts

def child (p : Path) (name : String) : Path :=
  ⟨p.anchor, p.parts ++ [name]⟩

def parent (p : Path) : Path :=
  ⟨p.anchor, p.parts.dropLast⟩

/-- The last part of a path; a path without parts has the empty name. -/
def name (p : Path) : String :=
  p.parts.getLast?.getD ""

/-- Puts pieces of a text behind a path, with a slash between. Pieces that start with a slash of
their own take the place of the path. -/
def append (p : Path) (pieces : List String) : Path :=
  match anchorOf (join pieces) with
  | .relative => ⟨p.anchor, p.parts ++ pieces⟩
  | anchor => ⟨anchor, pieces⟩

end Path

/-- A place in a file system: the names from its root on. -/
abbrev Location := List String

def Location.path (loc : Location) : Path :=
  ⟨.root, loc⟩

def Location.text (loc : Location) : String :=
  (Location.path loc).text

end ClassOutline
