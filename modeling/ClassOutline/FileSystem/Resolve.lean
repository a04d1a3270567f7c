import ClassOutline.FileSystem.Lookup

/-!
# Resolving a path

The absolute path that a path stands for once its links are replaced by their targets. Unlike a
lookup, resolving does not ask whether the names exist: `..` takes away the last name in any case,
and the names after a missing one are kept. Links are looked up by the path that has been spelled
out so far, and one whose path is too long to be looked up is not replaced. Neither is a link that
is met again while its own target is being resolved; the names after it are then put behind it as
they are.
-/

namespace ClassOutline

/-- Where the path that is spelled out on the way starts: at the root, or so many directories above
the working directory. -/
inductive Start where
  | root
  | working (above : Nat)
  deriving DecidableEq, Repr

/-- A path that has been spelled out on the way. A link that is reached from two starts counts as
two. -/
structure Waypoint where
  start : Start
  names : List String
  deriving DecidableEq, Repr

namespace Waypoint

def extend (w : Waypoint) (name : String) : Waypoint :=
  ⟨w.start, w.names ++ [name]⟩

/-- Goes up. A path that leads no way down goes on above its start. -/
def ascend (w : Waypoint) : Waypoint :=
  match w with
  | ⟨.root, names⟩ => ⟨.root, names.dropLast⟩
  | ⟨.working above, []⟩ => ⟨.working (above + 1), []⟩
  | ⟨.working above, names⟩ => ⟨.working above, names.dropLast⟩

/-- Where the target of a link starts, if the link stands in the directory of `w`. -/
def towards (w : Waypoint) (target : String) : Waypoint :=
  if isAbsolute target then ⟨.root, []⟩ else w

def path (w : Waypoint) : Path :=
  match w.start with
  | .root => ⟨.root, w.names⟩
  | .working above => ⟨.relative, List.replicate above ".." ++ w.names⟩

end Waypoint

/-- What replacing links comes to. -/
inductive Expansion where
  | reached (w : Waypoint)
  /-- A link was met inside its own target; this is its path, with all that was left behind it. -/
  | stuck (p : Path)
  deriving DecidableEq, Repr

def Expansion.path : Expansion → Path
  | reached w => w.path
  | stuck p => p

/-- Takes names from a location. Empty names and dots are left out, and `..` goes up. -/
def tidy (loc : Location) (names : List String) : Location :=
  names.foldl (fun loc name =>
    if name = "" ∨ name = "." then loc
    else if name = ".." then loc.dropLast
    else loc ++ [name]) loc

namespace FileSystem

def locateStart (fs : FileSystem) : Start → Location
  | .root => []
  | .working above => fs.workingDirectory.take (fs.workingDirectory.length - above)

def locate (fs : FileSystem) (w : Waypoint) : Location :=
  fs.locateStart w.start ++ w.names

/-- The target of the link that a path leads to, if the path can be looked up and leads to one. -/
def targetAt? (fs : FileSystem) (w : Waypoint) : Option String :=
  if maxPathBytes < byteCount w.path.text then none
  else
    match fs.get? (fs.locate w) with
    | some (.link target) => some target
    | _ => none

/-- Replaces links in names that follow `here`; `replace` gives the expansion of a link, from the
path of its directory, its own path and its target. -/
def expandWith (fs : FileSystem) (replace : Waypoint → Waypoint → String → Expansion)
    (here : Waypoint) : List String → Expansion
  | [] => .reached here
  | name :: rest =>
    if name = "" ∨ name = "." then expandWith fs replace here rest
    else if name = ".." then expandWith fs replace here.ascend rest
    else
      match fs.targetAt? (here.extend name) with
      | none => expandWith fs replace (here.extend name) rest
      | some target =>
        match replace here (here.extend name) target with
        | .reached w => expandWith fs replace w rest
        | .stuck p => .stuck (p.append rest)

/-- Replaces links; `busy` are the links whose targets are being expanded. The number bounds their
nesting. -/
def expand (fs : FileSystem) : Nat → List Waypoint → Waypoint → List String → Expansion
  | 0, _, here, names => .stuck (here.path.append names)
  | n + 1, busy, here, names =>
    fs.expandWith (fun parent link target =>
      if link ∈ busy then .stuck link.path
      else fs.expand n (link :: busy) (parent.towards target) (Path.split target)) here names

/-- A bound for the links that can be nested: of those whose paths can be looked up, every link has
one from the root, and one from each directory above the working directory. -/
def expansionBound (fs : FileSystem) : Nat :=
  (maxPathBytes + 2) * fs.linkCount + 1

def startOf (p : Path) : Waypoint :=
  match p.anchor with
  | .relative => ⟨.working 0, []⟩
  | _ => ⟨.root, []⟩

def absolute (fs : FileSystem) (p : Path) : Path :=
  match p.anchor with
  | .doubleRoot => ⟨.doubleRoot, tidy [] p.parts⟩
  | _ => ⟨.root, tidy (fs.base p) p.parts⟩

/-- The absolute path that a path stands for. It fails if looking up the result still runs into a
loop of links. -/
def resolve (fs : FileSystem) (p : Path) : Except Failure Path :=
  let r := fs.absolute (fs.expand fs.expansionBound [] (startOf p) p.parts).path
  match fs.place r with
  | .error .linkLoop => .error (.linkLoop r.text)
  | _ => .ok r

end FileSystem

end ClassOutline
