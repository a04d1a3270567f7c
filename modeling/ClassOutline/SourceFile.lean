import ClassOutline.FileSystem.Write
import ClassOutline.Source

/-!
# Source files

Reading and writing whole source files as text, and parsing a file. A refusal by the file system
or an ill-formed text becomes a failure of the file, which names it.
-/

namespace ClassOutline

namespace FileSystem

def readSource (fs : FileSystem) (p : Path) : Except Failure String :=
  match fs.readBytes p with
  | .error e => .error (.source (.file p.text e.message))
  | .ok bytes =>
    match Utf8.decode bytes with
    | .error e => .error (.source (.file p.text e.message))
    | .ok text => .ok text

/-- Writes a text to the path that a path is resolved to, all of it or nothing. A file that is
there keeps its permission bits; a new one takes them from `modeFrom`, if that leads somewhere. -/
def writeSource (fs : FileSystem) (settings : Settings) (p : Path) (text : String)
    (modeFrom : Option Path) : Except Failure Unit × FileSystem :=
  match fs.resolve p with
  | .error e => (.error e, fs)
  | .ok r =>
    match fs.replaceFile settings r (Utf8.encode text) modeFrom with
    | (.error e, fs) => (.error (.source (.file r.text e.message)), fs)
    | (.ok (), fs) => (.ok (), fs)

def parseFile (fs : FileSystem) (parser : Parser) (p : Path) : Except Failure Source := do
  let text ← fs.readSource p
  Source.parse parser text true (some p.text)

end FileSystem

end ClassOutline
