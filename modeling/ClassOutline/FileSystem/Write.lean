import ClassOutline.FileSystem.Resolve

/-!
# Writing files

Two ways of writing. `writeThrough` opens the file that a path leads to and overwrites it.
`replaceFile` never leaves a half-written file behind: it writes a file under a temporary name next
to the target and then gives it the target's name. Both return the state also when they fail.
-/

namespace ClassOutline

/-- Number of letters that make a temporary name different from every other. -/
def tagBytes : Nat := 8

structure Settings where
  umask : Nat
  tag : String
  tag_bytes : byteCount tag = tagBytes := by decide

/-- Settings with the given letters, if their number is right. -/
def Settings.withTag (umask : Nat) (tag : String) : Settings :=
  if h : byteCount tag = tagBytes then ⟨umask, tag, h⟩ else { umask, tag := "00000000" }

def Settings.newMode (settings : Settings) : Nat :=
  0o666 &&& (0o777 ^^^ (settings.umask &&& 0o777))

def temporaryMode : Nat := 0o600

def temporaryName (settings : Settings) (r : Path) : Path :=
  r.parent.child ("." ++ r.name ++ "." ++ settings.tag ++ ".tmp")

namespace FileSystem

/-- Overwrites the file that a path leads to, or makes a new one. -/
def writeThrough (fs : FileSystem) (settings : Settings) (p : Path) (bytes : Bytes) :
    Except OsError Unit × FileSystem :=
  match fs.placeToWrite p with
  | .ok (.present loc (.file mode _)) => (.ok (), fs.put loc (.file mode bytes))
  | .ok (.present _ _) => (.error ⟨.isDirectory, p.text, none⟩, fs)
  | .ok (.vacant parent name) => (.ok (), fs.put (parent ++ [name]) (.file settings.newMode bytes))
  | .error c => (.error ⟨c, p.text, none⟩, fs)

/-- The directory in which the last name of a path stands. The names before it are followed, as
they may still lead over links. -/
def directoryOf (fs : FileSystem) (r : Path) : Except OsCause Location :=
  match fs.find r.parent with
  | .ok (dir, .directory) => .ok dir
  | .ok _ => .error .notDirectory
  | .error c => .error c

/-- The place of the entry that the last name of a path stands for; that entry itself is not
followed. -/
def entryAt (fs : FileSystem) (r : Path) : Location :=
  match fs.directoryOf r, r.parts.getLast? with
  | .ok dir, some name => dir ++ [name]
  | _, _ => r.parts

/-- Makes a file under a temporary name, which is different from every other name. -/
def stage (fs : FileSystem) (name : Path) (bytes : Bytes) : Except OsError Unit × FileSystem :=
  if maxPathBytes < byteCount name.text then (.error ⟨.nameTooLong, name.text, none⟩, fs)
  else
    match fs.directoryOf name with
    | .error c => (.error ⟨c, name.text, none⟩, fs)
    | .ok _ =>
      if maxNameBytes < byteCount name.name then (.error ⟨.nameTooLong, name.text, none⟩, fs)
      else (.ok (), { fs with staged := ⟨name, temporaryMode, bytes⟩ :: fs.staged })

def unstage (fs : FileSystem) : FileSystem :=
  { fs with staged := fs.staged.tail }

def setStagedMode (fs : FileSystem) (mode : Nat) : FileSystem :=
  match fs.staged with
  | [] => fs
  | f :: rest => { fs with staged := { f with mode := mode } :: rest }

/-- Gives the file staged last its final name, which must be neither the root's nor that of another
directory. A link that has the name is replaced. -/
def publish (fs : FileSystem) (r : Path) : Except OsError Unit × FileSystem :=
  match fs.staged with
  | [] => (.ok (), fs)
  | f :: rest =>
    if r.parts = [] then (.error ⟨.busy, f.name.text, some r.text⟩, fs)
    else
      match fs.get? (fs.entryAt r) with
      | some .directory => (.error ⟨.isDirectory, f.name.text, some r.text⟩, fs)
      | _ => (.ok (), { fs with staged := rest }.put (fs.entryAt r) (.file f.mode f.bytes))

/-- The permission bits for a file that is to get the name `r`: those of what has the name now,
else those of what `modeFrom` leads to, else those of a new file. -/
def modeFor (fs : FileSystem) (settings : Settings) (r : Path) (modeFrom : Option Path) :
    Except OsError Nat :=
  match fs.find? r with
  | .error e => .error e
  | .ok (some found) => .ok (fs.modeOf found)
  | .ok none =>
    match modeFrom with
    | none => .ok settings.newMode
    | some p =>
      match fs.find? p with
      | .error e => .error e
      | .ok (some found) => .ok (fs.modeOf found)
      | .ok none => .ok settings.newMode

/-- Replaces the file of a path by one with the given content. Whatever goes wrong after the
temporary file was made, that file is removed again. -/
def replaceFile (fs : FileSystem) (settings : Settings) (r : Path) (bytes : Bytes)
    (modeFrom : Option Path) : Except OsError Unit × FileSystem :=
  match fs.stage (temporaryName settings r) bytes with
  | (.error e, fs) => (.error e, fs)
  | (.ok (), fs) =>
    match fs.modeFor settings r modeFrom with
    | .error e => (.error e, fs.unstage)
    | .ok mode =>
      match (fs.setStagedMode mode).publish r with
      | (.error e, fs) => (.error e, fs.unstage)
      | (.ok (), fs) => (.ok (), fs)

end FileSystem

end ClassOutline
