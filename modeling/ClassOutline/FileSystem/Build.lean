import ClassOutline.FileSystem.Lookup

/-!
# Building and showing file systems

Adds entries by path, with the directories on the way, and lists everything below a location.
-/

namespace ClassOutline.FileSystem

/-- Makes the directories that names lead through, from the directory `here` on, and returns the
last one. Links on the way are followed. -/
def ensureDirectories (fs : FileSystem) (here : Location) : List String → FileSystem × Location
  | [] => (fs, here)
  | name :: rest =>
    match fs.walk false maxLinks here [name] with
    | .ok (.present loc _) => ensureDirectories fs loc rest
    | .ok (.vacant parent name) =>
      ensureDirectories (fs.put (parent ++ [name]) .directory) (parent ++ [name]) rest
    | .error _ => (fs, here)

/-- Adds an entry at a path, with the directories on the way. A file is written through links. -/
def install (fs : FileSystem) (p : Path) (e : Entry) : FileSystem :=
  match p.parts.getLast? with
  | none => fs
  | some name =>
    let (fs, parent) := fs.ensureDirectories (fs.base p) p.parts.dropLast
    match e with
    | .directory => (fs.ensureDirectories parent [name]).1
    | .link target => fs.put (parent ++ [name]) (.link target)
    | .file mode bytes =>
      match fs.walk true maxLinks parent [name] with
      | .ok (.present loc _) => fs.put loc (.file mode bytes)
      | .ok (.vacant parent name) => fs.put (parent ++ [name]) (.file mode bytes)
      | .error _ => fs

/-- A file system whose working directory is an empty directory at a location. -/
def atDirectory (loc : Location) : FileSystem :=
  let (fs, here) := (ofEntries []).ensureDirectories [] loc
  { fs with workingDirectory := here }

/-- Everything below a location, by the text of the path from there, in the order of code
points. -/
def below (fs : FileSystem) (loc : Location) : List (String × Entry) :=
  let found := fs.entries.filterMap fun x =>
    if loc.isPrefixOf x.1 && loc ≠ x.1 then some (Path.join (x.1.drop loc.length), x.2) else none
  found.mergeSort fun a b => decide (a.1 ≤ b.1)

end ClassOutline.FileSystem
