import ClassOutline.Source
import ClassOutline.Syntax.Declaration

/-!
# Locating a class body

The class-like declarations of a source in source order, and the body of the first one of a given
name.
-/

namespace ClassOutline

/-- Lists declarations from a list of those to come, the next one first. With `nested`, the member
declarations of each come right after it. The number bounds the length of the result. -/
def listDeclarations (nested : Bool) : Nat → List Declaration → List Declaration
  | 0, _ => []
  | _, [] => []
  | n + 1, d :: rest =>
    d :: listDeclarations nested n ((if nested then d.memberDeclarations else []) ++ rest)

/-- The declarations of a source: the class-like children of the root and, with `nested`, those
among their members at any depth. There are at most as many as nodes. -/
def Source.declarations (s : Source) (nested : Bool) : List Declaration :=
  listDeclarations nested s.root.size (s.root.children.filterMap Node.declaration?)

def Source.declarationNamed? (s : Source) (name : String) (nested : Bool) : Option Declaration :=
  (s.declarations nested).find? (·.name? s.bytes = some name)

/-- The span of the body of the first declaration of a name, which has to be closed. -/
def Source.locate (s : Source) (name : String) (nested : Bool) : Except Failure BodySpan :=
  match s.declarationNamed? name nested with
  | none => .error (.source (.classNotFound name s.origin))
  | some d =>
    match d.bodySpan? with
    | some span => .ok span
    | none =>
      .error (.source (.parse
        (s.complainAt d.node.label.stop ("body of \"" ++ name ++ "\" is not closed"))))

end ClassOutline
