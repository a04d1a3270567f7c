import ClassOutline.FileSystem.Listing
import ClassOutline.Host
import ClassOutline.Outline.Walk
import ClassOutline.Record
import ClassOutline.SourceFile

/-!
# Scanning

Outlines of single files and of all files below a directory. A failure of one file is recorded and
does not stop the scan. A batch scan says on the console what it is doing, and writes the records.
-/

namespace ClassOutline

def defaultEndings : List String := [".java"]

namespace FileSystem

def outlineFile (fs : FileSystem) (parser : Parser) (p : Path) : Except Failure Outline := do
  let s ← fs.parseFile parser p
  s.outline

/-- The record of a file: its outline, or the failure of the file. -/
def scanFile (fs : FileSystem) (parser : Parser) (p : Path) : Except Failure Record :=
  match fs.outlineFile parser p with
  | .ok o => .ok ⟨p.text, some o, none⟩
  | .error (.source e) => .ok ⟨p.text, none, some e.message⟩
  | .error e => .error e

/-- The record of a file that is known by the text of its path, as it is handed to a worker. -/
def scanNamed (fs : FileSystem) (parser : Parser) (name : String) : Except Failure Record :=
  fs.scanFile parser (Path.ofText name)

def inParallel (jobs : Int) (paths : List Path) : Bool :=
  1 < jobs && 1 < paths.length

/-- The records of several files, in order. A worker gets the text of a path. -/
def scanPaths (fs : FileSystem) (host : Host) (parser : Parser) (jobs : Int) (paths : List Path) :
    Except Failure (List Record) :=
  if inParallel jobs paths then do
    host.start jobs
    (paths.map Path.text).mapM (fs.scanNamed parser)
  else paths.mapM (fs.scanFile parser)

/-- The records of all files below a directory. -/
def scanTree (fs : FileSystem) (host : Host) (parser : Parser) (root : Path)
    (endings : List String) (jobs : Int) : Except Failure (List Record) :=
  match fs.listFiles root endings with
  | .error e => .error (.refused e)
  | .ok paths => fs.scanPaths host parser jobs paths

/-! ## Batch scans -/

def foundLine (count : Nat) : Shown :=
  .line ("[dim]Found " ++ toString count ++ " source files to process[/dim]")

def activity (jobs : Int) (paths : List Path) : Shown :=
  if inParallel jobs paths then
    .status ("[bold green]Scanning with " ++ toString jobs ++ " workers...")
  else
    .progress ("Scanning source files" :: paths.map fun p => "Scanning " ++ p.name)

def warnings (records : List Record) : List Shown :=
  records.filterMap fun r => r.error.map fun error =>
    .line ("[yellow]⚠[/yellow] Failed to parse " ++ r.file ++ ": " ++ error)

/-- The records of files, and what is seen while they are taken. A line about workers stands before
they start; a bar goes once the last file was scanned. -/
def scanShown (fs : FileSystem) (host : Host) (parser : Parser) (jobs : Int) (paths : List Path) :
    Except Failure (List Record × String) := do
  let found ← host.display (foundLine paths.length)
  if inParallel jobs paths then
    let seen ← host.display (activity jobs paths)
    let records ← fs.scanPaths host parser jobs paths
    return (records, found ++ seen ++ (← host.displayAll (warnings records)))
  else
    let records ← fs.scanPaths host parser jobs paths
    let seen ← host.display (activity jobs paths)
    return (records, found ++ seen ++ (← host.displayAll (warnings records)))

/-- What a batch scan delivers: the number of files without an error, what it printed, and what was
seen on the console. -/
structure ScanReport where
  count : Nat
  printed : String
  seen : String
  deriving DecidableEq, Repr

/-- Scans all files below a directory and prints the records, or writes them to a file. -/
def runScan (fs : FileSystem) (host : Host) (settings : Settings) (parser : Parser) (root : Path)
    (out : Option Path) (layout : Record.Layout) (endings : List String) (jobs : Int) :
    Except Failure ScanReport × FileSystem :=
  match fs.listFiles root endings with
  | .error e => (.error (.refused e), fs)
  | .ok paths =>
    match fs.scanShown host parser jobs paths with
    | .error e => (.error e, fs)
    | .ok (records, seen) =>
      let count := records.countP Record.ok
      match out with
      | none => (.ok ⟨count, Record.printedText layout records, seen⟩, fs)
      | some p =>
        match fs.writeThrough settings p (Utf8.encode (Record.fileText layout records)) with
        | (.error e, fs) => (.error (.refused e), fs)
        | (.ok (), fs) => (.ok ⟨count, "", seen⟩, fs)

end FileSystem

end ClassOutline
