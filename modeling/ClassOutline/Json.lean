import ClassOutline.Text.Quoted

/-!
# JSON values and their text

The part of JSON that records use: null, strings, arrays and objects. An object keeps its members
in the order given. There are two layouts: compact, on one line and without spaces, and indented by
two spaces per level. Only the quote, the backslash and control characters are escaped.
-/

namespace ClassOutline

inductive Json where
  | null
  | str (text : String)
  | arr (items : List Json)
  | obj (members : List (String × Json))

namespace Json

/-- How one character is written inside a string. -/
def escape (c : Char) : List Char :=
  if c = '"' then ['\\', '"']
  else if c = '\\' then ['\\', '\\']
  else if c.toNat = 8 then ['\\', 'b']
  else if c.toNat = 9 then ['\\', 't']
  else if c.toNat = 10 then ['\\', 'n']
  else if c.toNat = 12 then ['\\', 'f']
  else if c.toNat = 13 then ['\\', 'r']
  else if c.toNat < 32 then '\\' :: 'u' :: Quoted.hex 4 c.toNat
  else [c]

def quote (text : String) : List Char :=
  '"' :: text.toList.flatMap escape ++ ['"']

/-! ## Compact layout -/

mutual

/-- The value on one line, without spaces. -/
def compact : Json → List Char
  | null => ['n', 'u', 'l', 'l']
  | str text => quote text
  | arr items => '[' :: compactItems items ++ [']']
  | obj members => '{' :: compactMembers members ++ ['}']

def compactItems : List Json → List Char
  | [] => []
  | [j] => compact j
  | j :: rest => compact j ++ ',' :: compactItems rest

def compactMembers : List (String × Json) → List Char
  | [] => []
  | [(key, j)] => quote key ++ ':' :: compact j
  | (key, j) :: rest => quote key ++ ':' :: compact j ++ ',' :: compactMembers rest

end

/-! ## Indented layout -/

def newLine (level : Nat) : List Char :=
  '\n' :: List.replicate (2 * level) ' '

mutual

/-- The value with every item and member on a line of its own, where `level` is the nesting of the
value itself. Empty arrays and objects stay on one line. -/
def indented (level : Nat) : Json → List Char
  | null => ['n', 'u', 'l', 'l']
  | str text => quote text
  | arr [] => ['[', ']']
  | arr items => '[' :: indentedItems (level + 1) items ++ newLine level ++ [']']
  | obj [] => ['{', '}']
  | obj members => '{' :: indentedMembers (level + 1) members ++ newLine level ++ ['}']

def indentedItems (level : Nat) : List Json → List Char
  | [] => []
  | [j] => newLine level ++ indented level j
  | j :: rest => newLine level ++ indented level j ++ ',' :: indentedItems level rest

/-- The members of an object, each on a new line at `level`. -/
def indentedMembers (level : Nat) : List (String × Json) → List Char
  | [] => []
  | [(key, j)] => newLine level ++ quote key ++ ':' :: ' ' :: indented level j
  | (key, j) :: rest =>
    newLine level ++ quote key ++ ':' :: ' ' :: indented level j ++ ',' ::
      indentedMembers level rest

end

end Json

end ClassOutline
