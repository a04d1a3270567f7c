import ClassOutline.Locate

/-!
# Injecting a method

The method text goes on lines of its own right before the closing brace of a class body. The place
comes from the syntax tree alone; braces in comments or literals play no part.
-/

namespace ClassOutline

/-- The bytes with `inserted` put in at an offset, between two line ends. -/
def splice (bytes inserted : Bytes) (offset : Int) : Bytes :=
  let k := cutPoint offset bytes.length
  bytes.take k ++ newline :: inserted ++ newline :: bytes.drop k

/-- Where in a text a method of the class would go, with the bytes of the text. -/
def insertionPoint (parser : Parser) (text name : String) (nested : Bool)
    (origin : Option String) : Except Failure (Bytes × Int) := do
  let s ← Source.parse parser text true origin
  let span ← s.locate name nested
  return (s.bytes, span.closing)

/-- The text with the method inserted into the class. It fails when the offset cuts a character in
two. -/
def inject (parser : Parser) (text name method : String) (nested : Bool)
    (origin : Option String) : Except Failure String := do
  let (bytes, offset) ← insertionPoint parser text name nested origin
  match Utf8.decode (splice bytes (Utf8.encode method) offset) with
  | .ok updated => return updated
  | .error e => throw (.undecodable e)

end ClassOutline
