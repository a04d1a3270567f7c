import ClassOutline.CommandLine.Run
import ClassOutline.FileSystem.Build
import ClassOutline.Syntax.Listing

/-!
# The command line program

Reads the files that a command line names, runs it on them and writes back what changed. The tree
of a source file is read from the file next to it whose name has `.tree` added.
-/

namespace ClassOutline.Program

def listingName (file : String) : String :=
  file ++ ".tree"

structure Loaded where
  files : FileSystem
  trees : List (String × Node)

def attempt {α : Type} (action : IO α) : IO (Option α) :=
  action.toBaseIO.map fun
    | .ok a => some a
    | .error _ => none

def loadFile (loaded : Loaded) (file : String) : IO Loaded := do
  let some content ← attempt (IO.FS.readBinFile file) | return loaded
  let bytes := content.toList
  let files := loaded.files.install (Path.ofText file) (.file 0o644 bytes)
  let listing ← attempt (IO.FS.readFile (listingName file))
  match Utf8.decode bytes, listing.bind Node.ofListing? with
  | .ok text, some tree => return ⟨files, (text, tree) :: loaded.trees⟩
  | _, _ => return ⟨files, loaded.trees⟩

/-- Adds a file or everything below a directory. -/
partial def load (loaded : Loaded) (name : String) : IO Loaded := do
  let some real ← attempt (IO.FS.realPath name) | return loaded
  if ← real.isDir then
    let some inside ← attempt real.readDir | return loaded
    let files := loaded.files.install (Path.ofText name) .directory
    inside.foldlM (fun loaded entry => load loaded (name ++ "/" ++ entry.fileName))
      ⟨files, loaded.trees⟩
  else loadFile loaded name

def namesOf : CommandLine.Request → List String
  | .scan r => r.root :: (r.out.map fun _ => ".").toList
  | .inject r => [".", r.file] ++ r.methodFile.toList ++ r.out.toList

def unknownTree : Node :=
  .mk (Label.ofFlags "program" 0 0 ['n', 'e', 'h'] none) []

def parserOf (loaded : Loaded) : Parser := fun text =>
  (loaded.trees.lookup text).getD unknownTree

/-- Writes the files that a run changed or added. -/
def writeChanges (before after : FileSystem) : IO Unit :=
  after.entries.forM fun (loc, entry) =>
    match entry with
    | .file _ bytes =>
      unless before.get? loc = some entry do
        IO.FS.writeBinFile (Location.text loc) ⟨bytes.toArray⟩
    | _ => pure ()

def usageText : String :=
  "usage: class-outline scan ROOT [--out PATH] [--jsonl] [--ext EXT] [--jobs N]\n" ++
  "       class-outline inject FILE CLASS (--method TEXT | --method-file PATH)\n" ++
  "                     [--nested] [--out PATH | --in-place]\n"

def runWords (words : List String) (request : CommandLine.Request) : IO UInt32 := do
  let here := (← IO.currentDir).toString
  let start : Loaded := ⟨FileSystem.atDirectory (Path.ofText here).parts, []⟩
  let loaded ← (namesOf request).foldlM load start
  let settings := Settings.withTag 0o022 (toString (10000000 + (← IO.rand 0 89999999)))
  let (outcome, files) := CommandLine.run loaded.files .plain settings (parserOf loaded) words
  writeChanges loaded.files files
  match outcome with
  | .stopped s => return s.exitCode.toUInt32
  | .failed f =>
    IO.eprintln f.message
    return 1
  | .finished code stdout stderr =>
    IO.print stdout
    IO.eprint stderr
    return code.toUInt32

end ClassOutline.Program

def main (words : List String) : IO UInt32 := do
  match ClassOutline.CommandLine.readRequest words with
  | .error s =>
    if s = .help then IO.print ClassOutline.Program.usageText
    else IO.eprint ClassOutline.Program.usageText
    return s.exitCode.toUInt32
  | .ok request => ClassOutline.Program.runWords words request
