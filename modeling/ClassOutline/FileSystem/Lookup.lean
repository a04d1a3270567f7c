import ClassOutline.Failure
import ClassOutline.FileSystem.Basic

/-!
# Looking up a path

How the system follows a path, name by name: `..` goes to the parent of the directory reached, a
symbolic link is followed, and at most forty links are followed on the way. Every name on the way
has to lead to a directory; the last one may also be a file or be free. A path that is followed in
order to write a file must not end in a name that asks for a directory.
-/

namespace ClassOutline

/-- Longest name of an entry, in bytes. -/
def maxNameBytes : Nat := 255

/-- Longest text of a path that is looked up, in bytes. -/
def maxPathBytes : Nat := 4095

def maxLinks : Nat := 40

def isAbsolute (target : String) : Bool :=
  target.toList.head? = some '/'

/-- The names of a link's target. A slash at its end asks for a directory, which an empty name
stands for. -/
def targetParts (target : String) : List String :=
  (Path.split target).filter (· ≠ "") ++ if target.toList.getLast? = some '/' then [""] else []

/-- Where a path leads. -/
inductive Place where
  | present (loc : Location) (e : Entry)
  | vacant (parent : Location) (name : String)
  deriving DecidableEq, Repr

namespace FileSystem

/-- Follows names from the directory `here`; `follow` takes over at a link, with the directory that
its target starts from and all names that remain. `writing` says that a file is to be written. -/
def walkWith (fs : FileSystem) (writing : Bool)
    (follow : Location → List String → Except OsCause Place) (here : Location) :
    List String → Except OsCause Place
  | [] => .ok (.present here .directory)
  | name :: rest =>
    if name = "" ∨ name = "." then walkWith fs writing follow here rest
    else if name = ".." then walkWith fs writing follow here.dropLast rest
    else if writing ∧ rest = [""] then .error .isDirectory
    else if maxNameBytes < byteCount name then .error .nameTooLong
    else
      match fs.get? (here ++ [name]) with
      | none => if rest = [] then .ok (.vacant here name) else .error .notFound
      | some .directory => walkWith fs writing follow (here ++ [name]) rest
      | some (.file mode bytes) =>
        if rest = [] then .ok (.present (here ++ [name]) (.file mode bytes))
        else .error .notDirectory
      | some (.link target) =>
        follow (if isAbsolute target then [] else here) (targetParts target ++ rest)

/-- Follows names from a directory and at most the given number of links. -/
def walk (fs : FileSystem) (writing : Bool) :
    Nat → Location → List String → Except OsCause Place
  | 0 => fs.walkWith writing fun _ _ => .error .linkLoop
  | n + 1 => fs.walkWith writing (fs.walk writing n)

def follow (fs : FileSystem) (writing : Bool) (p : Path) : Except OsCause Place :=
  if maxPathBytes < byteCount p.text then .error .nameTooLong
  else fs.walk writing maxLinks (fs.base p) p.parts

def place (fs : FileSystem) (p : Path) : Except OsCause Place :=
  fs.follow false p

/-- Where a path leads when a file is to be written there. -/
def placeToWrite (fs : FileSystem) (p : Path) : Except OsCause Place :=
  fs.follow true p

/-- The file or directory that a path leads to. -/
def find (fs : FileSystem) (p : Path) : Except OsCause (Location × Entry) :=
  match fs.place p with
  | .ok (.present loc e) => .ok (loc, e)
  | .ok (.vacant _ _) => .error .notFound
  | .error c => .error c

/-- The content of the file that a path leads to. -/
def readBytes (fs : FileSystem) (p : Path) : Except OsError Bytes :=
  match fs.find p with
  | .ok (_, .file _ bytes) => .ok bytes
  | .ok _ => .error ⟨.isDirectory, p.text, none⟩
  | .error c => .error ⟨c, p.text, none⟩

/-- What a path leads to, if it leads anywhere. Only a length that is not allowed is an error. -/
def find? (fs : FileSystem) (p : Path) : Except OsError (Option (Location × Entry)) :=
  match fs.find p with
  | .ok found => .ok (some found)
  | .error .nameTooLong => .error ⟨.nameTooLong, p.text, none⟩
  | .error _ => .ok none

def isDirectory (fs : FileSystem) (p : Path) : Bool :=
  match fs.find p with
  | .ok (_, .directory) => true
  | _ => false

/-- Whether a path leads to a file. Only a length that is not allowed is an error. -/
def isFile (fs : FileSystem) (p : Path) : Except OsError Bool :=
  match fs.find? p with
  | .ok (some (_, .file _ _)) => .ok true
  | .ok _ => .ok false
  | .error e => .error e

end FileSystem

end ClassOutline
