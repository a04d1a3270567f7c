import ClassOutline.Inject
import ClassOutline.SourceFile

/-!
# Injecting into files

Injects a method into a class of a file and delivers the new text: to the standard output, to
another file, or back to the file itself. Nothing is written before the whole text was built.
-/

namespace ClassOutline

inductive Destination where
  | printed
  | file (p : Path)
  | inPlace
  deriving DecidableEq, Repr

structure Injection where
  /-- The name of the class; without one there is no such class. -/
  className : Option String
  /-- The method text; without one the injection fails once the place has been found. -/
  method : Option String
  nested : Bool
  deriving DecidableEq, Repr

inductive Delivery where
  | printed (text : String)
  | written (p : Path)
  deriving DecidableEq, Repr

def noName : String := "[]"

namespace FileSystem

/-- The new text of the file that a path leads to. -/
def injectedText (fs : FileSystem) (parser : Parser) (p : Path) (i : Injection) :
    Except Failure String := do
  let text ← fs.readSource p
  match i.className, i.method with
  | some name, some method => inject parser text name method i.nested (some p.text)
  | some name, none =>
    let _ ← insertionPoint parser text name i.nested (some p.text)
    throw .noMethodText
  | none, _ =>
    let _ ← Source.parse parser text true (some p.text)
    throw (.source (.classNotFound noName (some p.text)))

/-- Injects into the file at `p` and writes the new text to `target`, whose permission bits, if it
is new, are those of `p`. -/
def injectInto (fs : FileSystem) (settings : Settings) (parser : Parser) (p target : Path)
    (i : Injection) : Except Failure Delivery × FileSystem :=
  match fs.injectedText parser p i with
  | .error e => (.error e, fs)
  | .ok text =>
    match fs.writeSource settings target text (some p) with
    | (.error e, fs) => (.error e, fs)
    | (.ok (), fs) => (.ok (.written target), fs)

/-- Injects into the file at `p` and delivers the new text. -/
def runInject (fs : FileSystem) (settings : Settings) (parser : Parser) (p : Path)
    (i : Injection) (destination : Destination) : Except Failure Delivery × FileSystem :=
  match destination with
  | .printed => ((fs.injectedText parser p i).map .printed, fs)
  | .file target => fs.injectInto settings parser p target i
  | .inPlace => fs.injectInto settings parser p p i

end FileSystem

end ClassOutline
