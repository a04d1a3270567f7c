import ClassOutline.Syntax.Declaration
import ClassOutline.Text.Quoted

/-!
# Declarations and members in words

The words for the kinds of declarations and members, and the short form in angle brackets that
shows a declaration or a member with its names.
-/

namespace ClassOutline

def DeclarationKind.word : DeclarationKind → String
  | .plainClass => "class"
  | .interface => "interface"
  | .enumeration => "enum"
  | .record => "record"
  | .annotationType => "annotation"
  | .anonymous => "anonymous"

def MemberKind.word : MemberKind → String
  | .method => "method"
  | .field => "field"

def Item.word : Item → String
  | .declaration d => d.kind.word
  | .member m => m.kind.word

def DeclarationKind.tag : DeclarationKind → String
  | .plainClass => "DeclarationNode"
  | .interface => "InterfaceDeclarationNode"
  | .enumeration => "EnumDeclarationNode"
  | .record => "RecordDeclarationNode"
  | .annotationType => "AnnotationTypeDeclarationNode"
  | .anonymous => "AnonymousClassNode"

def MemberKind.tag : MemberKind → String
  | .method => "MethodNode"
  | .field => "FieldNode"

def Declaration.shortForm (d : Declaration) (bytes : Bytes) : String :=
  let name :=
    match d.name? bytes with
    | some n => Quoted.quote n
    | none => "None"
  "<" ++ d.kind.tag ++ " " ++ name ++ ">"

def Member.shortForm (m : Member) (bytes : Bytes) : String :=
  "<" ++ m.kind.tag ++ " " ++ Quoted.quoteList (m.names bytes) ++ ">"

def Item.shortForm (i : Item) (bytes : Bytes) : String :=
  match i with
  | .declaration d => d.shortForm bytes
  | .member m => m.shortForm bytes

end ClassOutline
