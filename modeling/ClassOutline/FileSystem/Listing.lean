import ClassOutline.FileSystem.Lookup

/-!
# Listing a directory tree

The files below a directory whose names have one of the given endings. The files of a directory
come before its subdirectories, each in the order of code points, and links are followed. A
directory whose path is too long is passed over, but a name with one of the endings that leads to
a path or a name that is too long ends the listing.
-/

namespace ClassOutline.FileSystem

/-- Number of bytes that a listing puts before the paths of the directories it goes down to: below
the current directory they start with a dot and a slash. -/
def leadBytes (root : Path) : Nat :=
  if root.anchor = .relative ∧ root.parts = [] then 2 else 0

/-- The directory that a listing opens by a path. -/
def opened? (fs : FileSystem) (lead : Nat) (p : Path) : Option Location :=
  if maxPathBytes < byteCount p.text + lead then none
  else
    match fs.find p with
    | .ok (loc, .directory) => some loc
    | _ => none

/-- The names in the directory that a listing opens by a path, in order. -/
def sortedNames (fs : FileSystem) (lead : Nat) (p : Path) : List String :=
  match fs.opened? lead p with
  | some loc => (fs.namesIn loc).mergeSort fun a b => decide (a ≤ b)
  | none => []

/-- Whether a listing takes a name for that of a directory: the name of a directory, or of a link
that can be followed to one. -/
def entersDirectory (fs : FileSystem) (lead : Nat) (p : Path) (name : String) : Bool :=
  match fs.opened? lead p with
  | none => false
  | some loc =>
    match fs.get? (loc ++ [name]) with
    | some .directory => true
    | some (.link _) => (fs.opened? lead (p.child name)).isSome
    | _ => false

def hasEnding (endings : List String) (name : String) : Bool :=
  endings.any fun e => e.toList.isSuffixOf name.toList

/-- Of the names in a directory, the paths of those that lead to files. -/
def filesAmong (fs : FileSystem) (p : Path) : List String → Except OsError (List Path)
  | [] => .ok []
  | name :: rest => do
    let isFile ← fs.isFile (p.child name)
    let paths ← fs.filesAmong p rest
    return if isFile then p.child name :: paths else paths

/-- The files below a path, to a given depth of directories. -/
def listTo (fs : FileSystem) (endings : List String) (lead : Nat) :
    Nat → Path → Except OsError (List Path)
  | 0, _ => .ok []
  | n + 1, p => do
    let names := fs.sortedNames lead p
    let files ← fs.filesAmong p (names.filter fun name =>
      !fs.entersDirectory lead p name && hasEnding endings name)
    let directories := names.filter (fs.entersDirectory lead p)
    let below ← directories.mapM fun name => fs.listTo endings lead n (p.child name)
    return files ++ below.flatten

/-- A depth that no path can pass: between two links of a path there are at most as many
directories as the file system has. -/
def depthBound (fs : FileSystem) : Nat :=
  (maxLinks + 1) * (fs.directoryCount + 2)

def listFiles (fs : FileSystem) (root : Path) (endings : List String) :
    Except OsError (List Path) :=
  fs.listTo endings (leadBytes root) fs.depthBound root

end ClassOutline.FileSystem
