import ClassOutline.Syntax.Node
import ClassOutline.Text.Blank
import ClassOutline.Text.Position

/-!
# Declarations and members

Which nodes declare a class-like type, which declare a method or fields, and what each of them
says about its name, body and members. Everything is read off the node and the bytes of the source.
-/

namespace ClassOutline

/-- Byte offsets of a class body: `start` is at the opening brace, `stop` just past the closing
one. -/
structure BodySpan where
  start : Int
  stop : Int
  deriving DecidableEq, Repr

def BodySpan.closing (s : BodySpan) : Int :=
  s.stop - 1

def Node.trimmedText (n : Node) (bytes : Bytes) : String :=
  Blank.strip (Bytes.textOf bytes n.label.start n.label.stop)

/-! ## Class-like declarations -/

inductive DeclarationKind where
  | plainClass
  | interface
  | enumeration
  | record
  | annotationType
  /-- A creation expression or an enum constant with a class body of its own. -/
  | anonymous
  deriving DecidableEq, Repr

/-- The kind of declaration that a node's kind alone announces. -/
def DeclarationKind.ofNodeKind? (kind : String) : Option DeclarationKind :=
  if kind = "class_declaration" then some .plainClass
  else if kind = "interface_declaration" then some .interface
  else if kind = "enum_declaration" then some .enumeration
  else if kind = "record_declaration" then some .record
  else if kind = "annotation_type_declaration" then some .annotationType
  else none

/-- Whether a node creates a class by giving it a body on the spot. -/
def Node.createsClass (n : Node) : Bool :=
  if n.kind = "enum_constant" then (n.childAs? .body).isSome
  else if n.kind = "object_creation_expression" then
    n.namedChildren.any (·.kind = "class_body")
  else false

structure Declaration where
  kind : DeclarationKind
  node : Node

def Node.declaration? (n : Node) : Option Declaration :=
  match DeclarationKind.ofNodeKind? n.kind with
  | some k => some ⟨k, n⟩
  | none => if n.createsClass then some ⟨.anonymous, n⟩ else none

namespace Declaration

/-- The declared name. An anonymous class has none, and a blank name is none. -/
def name? (d : Declaration) (bytes : Bytes) : Option String :=
  match d.kind with
  | .anonymous => none
  | _ =>
    match d.node.childAs? .name with
    | none => none
    | some n => if n.trimmedText bytes = "" then none else some (n.trimmedText bytes)

/-- The body: the child with that role or, for an anonymous class without one, the first class
body among the named children. -/
def body? (d : Declaration) : Option Node :=
  match d.kind with
  | .anonymous => (d.node.childAs? .body).or (d.node.namedChildren.find? (·.kind = "class_body"))
  | _ => d.node.childAs? .body

/-- The span between the braces of the body. There is none when the body is absent, does not start
and end with braces, or a brace is not in the text. -/
def bodySpan? (d : Declaration) : Option BodySpan :=
  match d.body? with
  | none => none
  | some body =>
    match body.children with
    | opening :: second :: rest =>
      let closing := (second :: rest).getLast (by simp)
      if opening.kind = "\x7b" ∧ closing.kind = "\x7d" ∧ ¬ opening.label.missing ∧
          ¬ closing.label.missing then
        some ⟨opening.label.start, closing.label.stop⟩
      else none
    | _ => none

/-- The fields that a record's header introduces. -/
def implicitFields (d : Declaration) (bytes : Bytes) : List String :=
  match d.kind with
  | .record =>
    match d.node.childAs? .parameters with
    | none => []
    | some parameters =>
      (parameters.namedChildren.filter (·.kind = "formal_parameter")).filterMap fun p =>
        (p.childAs? .name).map (·.trimmedText bytes)
  | _ => []

/-- The nodes that may be direct members. In an enumeration the declarations after the constants
stand in a node of their own, which is opened. -/
def memberNodes (d : Declaration) : List Node :=
  match d.body? with
  | none => []
  | some body =>
    match d.kind with
    | .enumeration =>
      body.namedChildren.flatMap fun n =>
        if n.kind = "enum_body_declarations" then n.namedChildren else [n]
    | _ => body.namedChildren

def memberDeclarations (d : Declaration) : List Declaration :=
  d.memberNodes.filterMap Node.declaration?

end Declaration

/-! ## Members -/

inductive MemberKind where
  | method
  | field
  deriving DecidableEq, Repr

/-- The kind of member that a node's kind announces. -/
def MemberKind.ofNodeKind? (kind : String) : Option MemberKind :=
  if kind = "method_declaration" ∨ kind = "annotation_type_element_declaration" then some .method
  else if kind = "field_declaration" ∨ kind = "constant_declaration" then some .field
  else none

/-- A method declaration, or a declaration of one or more fields. -/
structure Member where
  kind : MemberKind
  node : Node

def Node.member? (n : Node) : Option Member :=
  (MemberKind.ofNodeKind? n.kind).map (⟨·, n⟩)

namespace Member

/-- The names that a member introduces: a method's own name, a field's one per declarator. A blank
name is kept. -/
def names (m : Member) (bytes : Bytes) : List String :=
  match m.kind with
  | .method => ((m.node.childAs? .name).map (·.trimmedText bytes)).toList
  | .field =>
    (m.node.childrenAs .declarator).filterMap fun d =>
      (d.childAs? .name).map (·.trimmedText bytes)

def body? (m : Member) : Option Node :=
  match m.kind with
  | .method => m.node.childAs? .body
  | .field => none

end Member

/-! ## Items -/

inductive Item where
  | declaration (d : Declaration)
  | member (m : Member)

def Node.item? (n : Node) : Option Item :=
  match n.declaration? with
  | some d => some (.declaration d)
  | none => n.member?.map .member

def Declaration.members (d : Declaration) : List Item :=
  d.memberNodes.filterMap Node.item?

/-- The name by which an item is listed: the first one if there are several. -/
def Item.name? (i : Item) (bytes : Bytes) : Option String :=
  match i with
  | .declaration d => d.name? bytes
  | .member m => (m.names bytes).head?

end ClassOutline
