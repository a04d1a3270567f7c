import ClassOutline.Json

/-!
# Reading JSON

A reader for the values of `Json` that knows nothing of a layout. Its first stage cuts
characters into tokens: blanks between tokens vanish, and the escapes of a string are
resolved, those for pairs of surrogates included. Its second stage builds a value from
tokens. The tokens of a value are what all its texts have in common.
-/

namespace ClassOutline.Json

/-! ## Tokens -/

inductive Token where
  | openArray
  | closeArray
  | openObject
  | closeObject
  | comma
  | colon
  | null
  | str (text : String)
  deriving DecidableEq, Repr

/-- The characters that may stand between tokens. -/
def isSpace (c : Char) : Bool :=
  c = ' ' || c = '\t' || c = '\n' || c = '\r'

/-- The token that a character is by itself. -/
def mark? (c : Char) : Option Token :=
  if c = '[' then some .openArray
  else if c = ']' then some .closeArray
  else if c = '{' then some .openObject
  else if c = '}' then some .closeObject
  else if c = ',' then some .comma
  else if c = ':' then some .colon
  else none

/-- What a letter behind a backslash stands for; `u` is dealt with apart. -/
def unescape? (c : Char) : Option Char :=
  if c = '"' ∨ c = '\\' ∨ c = '/' then some c
  else if c = 'b' then some (Char.ofNat 8)
  else if c = 't' then some (Char.ofNat 9)
  else if c = 'n' then some (Char.ofNat 10)
  else if c = 'f' then some (Char.ofNat 12)
  else if c = 'r' then some (Char.ofNat 13)
  else none

def hexValue? (c : Char) : Option Nat :=
  let n := c.toNat
  if 48 ≤ n ∧ n ≤ 57 then some (n - 48)
  else if 97 ≤ n ∧ n ≤ 102 then some (n - 87)
  else if 65 ≤ n ∧ n ≤ 70 then some (n - 55)
  else none

/-- Where the first stage stands. In a string it carries the text read so far. -/
inductive Cursor where
  | outside
  /-- In a word, of which some characters are owed. -/
  | word (owed : List Char)
  | inside (text : List Char)
  /-- Behind a backslash. -/
  | escaped (text : List Char)
  /-- In the four digits of a code unit: the unit before it if that is the first half of a
  pair, the value so far and the number of digits owed after the next one. -/
  | unit (text : List Char) (first : Option Nat) (value owed : Nat)
  /-- Behind the first half of a pair, where a backslash and a `u` have to follow. -/
  | half (text : List Char) (first : Nat)
  | halfEscaped (text : List Char) (first : Nat)

/-- A complete code unit: a character, the first half of a pair or the second one. -/
def closeUnit (text : List Char) (first : Option Nat) (unit : Nat) : Option Cursor :=
  match first with
  | none =>
    if 0xD800 ≤ unit ∧ unit < 0xDC00 then some (.half text unit)
    else if 0xDC00 ≤ unit ∧ unit < 0xE000 then none
    else some (.inside (text ++ [Char.ofNat unit]))
  | some high =>
    if 0xDC00 ≤ unit ∧ unit < 0xE000 then
      some (.inside (text ++ [Char.ofNat (0x10000 + (high - 0xD800) * 0x400 + (unit - 0xDC00))]))
    else none

/-- Reads one character: the tokens that it completes and where the stage stands then. -/
def Cursor.step : Cursor → Char → Option (List Token × Cursor)
  | outside, c =>
    if isSpace c then some ([], outside)
    else if c = '"' then some ([], inside [])
    else if c = 'n' then some ([], word ['u', 'l', 'l'])
    else (mark? c).map fun t => ([t], outside)
  | word owed, c =>
    match owed with
    | [] => none
    | x :: rest =>
      if c ≠ x then none
      else if rest = [] then some ([.null], outside)
      else some ([], word rest)
  | inside text, c =>
    if c = '"' then some ([.str (String.ofList text)], outside)
    else if c = '\\' then some ([], escaped text)
    else if c.toNat < 32 then none
    else some ([], inside (text ++ [c]))
  | escaped text, c =>
    if c = 'u' then some ([], unit text none 0 3)
    else (unescape? c).map fun x => ([], inside (text ++ [x]))
  | unit text first value owed, c =>
    match hexValue? c with
    | none => none
    | some digit =>
      match owed with
      | 0 => (closeUnit text first (value * 16 + digit)).map fun next => ([], next)
      | owed + 1 => some ([], unit text first (value * 16 + digit) owed)
  | half text first, c => if c = '\\' then some ([], halfEscaped text first) else none
  | halfEscaped text first, c => if c = 'u' then some ([], unit text (some first) 0 3) else none

/-- The tokens of the characters that follow a cursor. The text may end outside only. -/
def scanFrom : Cursor → List Char → Option (List Token)
  | .outside, [] => some []
  | _, [] => none
  | cursor, c :: cs =>
    match cursor.step c with
    | none => none
    | some (ts, next) => (scanFrom next cs).map (ts ++ ·)

/-! ## Values -/

/-- One or more things with commas between them, up to a closing token. -/
def readMany {α : Type} (close : Token) (one : List Token → Option (α × List Token)) :
    Nat → List Token → Option (List α × List Token)
  | 0, _ => none
  | n + 1, ts =>
    match one ts with
    | some (x, t :: rest) =>
      if t = close then some ([x], rest)
      else if t = .comma then (readMany close one n rest).map fun y => (x :: y.1, y.2)
      else none
    | _ => none

/-- A member of an object, when the values are read by `value`. -/
def readMember (value : List Token → Option (Json × List Token)) :
    List Token → Option ((String × Json) × List Token)
  | .str key :: .colon :: ts => (value ts).map fun x => ((key, x.1), x.2)
  | _ => none

/-- A value that is nested to a given depth at most, and the tokens behind it. -/
def readValue : Nat → List Token → Option (Json × List Token)
  | 0, _ => none
  | n + 1, ts =>
    match ts with
    | .null :: rest => some (.null, rest)
    | .str text :: rest => some (.str text, rest)
    | .openArray :: rest =>
      if rest.head? = some .closeArray then some (.arr [], rest.tail)
      else (readMany .closeArray (readValue n) rest.length rest).map fun x => (.arr x.1, x.2)
    | .openObject :: rest =>
      if rest.head? = some .closeObject then some (.obj [], rest.tail)
      else (readMany .closeObject (readMember (readValue n)) rest.length rest).map
        fun x => (.obj x.1, x.2)
    | _ => none

/-- Reads a text that holds one value and nothing else. -/
def read? (text : String) : Option Json :=
  match scanFrom .outside text.toList with
  | none => none
  | some ts =>
    match readValue ts.length ts with
    | some (j, []) => some j
    | _ => none

/-- Escapes of every kind are resolved, and a comma before a closing bracket is refused. -/
example : (read? "[ \"\\u00e9\\ud83d\\ude00\\/\" ]\n").map compact = some "[\"é😀/\"]".toList ∧
    (read? "[null,]").isNone := by decide +kernel

/-! ## The tokens of a value -/

mutual

def tokens : Json → List Token
  | null => [.null]
  | str text => [.str text]
  | arr items => .openArray :: itemTokens items ++ [.closeArray]
  | obj members => .openObject :: memberTokens members ++ [.closeObject]

def itemTokens : List Json → List Token
  | [] => []
  | [j] => tokens j
  | j :: rest => tokens j ++ .comma :: itemTokens rest

def memberTokens : List (String × Json) → List Token
  | [] => []
  | [(key, j)] => .str key :: .colon :: tokens j
  | (key, j) :: rest => .str key :: .colon :: tokens j ++ .comma :: memberTokens rest

end

end ClassOutline.Json
