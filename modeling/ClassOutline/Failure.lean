import ClassOutline.Text.Quoted
import ClassOutline.Text.Utf8

/-!
# Failures

Everything that can go wrong, as causes, with one wording for each. A `StructureError` is a
failure of the source at hand: the text cannot be parsed, the class is not there, the file cannot
be read or written. A batch scan records these and goes on. Every other `Failure` ends the
operation.
-/

namespace ClassOutline

/-- A complaint about a source text, with as much of its place as is known. -/
structure Diagnostic where
  text : String
  source : Option String
  line : Option Int
  column : Option Int
  deriving DecidableEq, Repr

/-- The place, then the complaint. A source without a name is shown as a string, and a line without
a column as its column zero. -/
def Diagnostic.message (d : Diagnostic) : String :=
  let name :=
    match d.source with
    | some s => if s = "" then "<string>" else s
    | none => "<string>"
  let place :=
    match d.line with
    | some line => name ++ ":" ++ toString line ++ ":" ++ toString (d.column.getD 0)
    | none => name
  place ++ ": " ++ d.text

/-- A failure of the source at hand. -/
inductive StructureError where
  | parse (d : Diagnostic)
  /-- The text is not valid, and no declaration could be found in it at all. -/
  | incomplete (d : Diagnostic)
  | classNotFound (name : String) (source : Option String)
  | file (path reason : String)
  deriving DecidableEq, Repr

namespace StructureError

def message : StructureError → String
  | parse d => d.message
  | incomplete d => d.message
  | classNotFound name source =>
    let place :=
      match source with
      | some s => if s = "" then "" else " in " ++ s
      | none => ""
    "Class \"" ++ name ++ "\" not found" ++ place
  | file path reason => path ++ ": " ++ reason

def isParse : StructureError → Bool
  | parse _ => true
  | incomplete _ => true
  | _ => false

end StructureError

/-! ## Failures of the file system -/

/-- Why the file system refuses a request. -/
inductive OsCause where
  | notFound
  | notDirectory
  | isDirectory
  | busy
  | nameTooLong
  | linkLoop
  deriving DecidableEq, Repr

namespace OsCause

def number : OsCause → Nat
  | notFound => 2
  | busy => 16
  | notDirectory => 20
  | isDirectory => 21
  | nameTooLong => 36
  | linkLoop => 40

def words : OsCause → String
  | notFound => "No such file or directory"
  | busy => "Device or resource busy"
  | notDirectory => "Not a directory"
  | isDirectory => "Is a directory"
  | nameTooLong => "File name too long"
  | linkLoop => "Too many levels of symbolic links"

end OsCause

/-- A refused request: its cause, the path it was made for and, for a renaming, the new path. -/
structure OsError where
  cause : OsCause
  path : String
  target : Option String := none
  deriving DecidableEq, Repr

def OsError.message (e : OsError) : String :=
  let paths :=
    match e.target with
    | some t => Quoted.quote e.path ++ " -> " ++ Quoted.quote t
    | none => Quoted.quote e.path
  "[Errno " ++ toString e.cause.number ++ "] " ++ e.cause.words ++ ": " ++ paths

/-! ## All failures -/

/-- Everything that can end an operation. -/
inductive Failure where
  | source (e : StructureError)
  | undecodable (e : Utf8.DecodeError)
  /-- A request to the file system was refused and nothing above it deals with that. -/
  | refused (e : OsError)
  | linkLoop (path : String)
  | emptyClassName
  | noMethodText
  | noWorkers (reason : String)
  | notShown (reason : String)
  deriving DecidableEq, Repr

def Failure.message : Failure → String
  | .source e => e.message
  | .undecodable e => e.message
  | .refused e => e.message
  | .linkLoop path => "Symlink loop from " ++ Quoted.quote path
  | .emptyClassName => "ClassInfo.name must be non-empty"
  | .noMethodText => "'NoneType' object has no attribute 'encode'"
  | .noWorkers reason => reason
  | .notShown reason => reason

end ClassOutline
