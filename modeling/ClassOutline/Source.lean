import ClassOutline.Failure
import ClassOutline.Syntax.Node
import ClassOutline.Text.Position

/-!
# Parsed sources

A source text together with its syntax tree and the name it goes by in messages. The parser is an
argument everywhere: any function from texts to trees.
-/

namespace ClassOutline

abbrev Parser := String → Node

structure Source where
  root : Node
  bytes : Bytes
  /-- The name under which messages speak of the text. -/
  origin : Option String

namespace Source

/-- The text of a node, with a replacement character for every ill-formed run. -/
def textOf (s : Source) (n : Node) : String :=
  Bytes.textOf s.bytes n.label.start n.label.stop

def complainAt (s : Source) (offset : Nat) (text : String) : Diagnostic :=
  let p := positionAt s.bytes offset
  ⟨text, s.origin, some p.line, some p.column⟩

/-- The complaint about a tree with errors: about its first error or missing node, or about the
root if there is none. -/
def syntaxComplaint (s : Source) : Diagnostic :=
  let bad := s.root.firstFault?.getD s.root
  let text := if bad.label.missing then "missing '" ++ bad.kind ++ "'" else "syntax error"
  s.complainAt bad.label.start text

/-- Parses a text. A strict parse refuses a tree with errors. -/
def parse (parser : Parser) (text : String) (strict : Bool) (origin : Option String) :
    Except Failure Source :=
  let s : Source := ⟨parser text, Utf8.encode text, origin⟩
  if strict && s.root.label.hasError then .error (.source (.parse s.syntaxComplaint)) else .ok s

end Source

end ClassOutline
