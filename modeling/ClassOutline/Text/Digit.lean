import ClassOutline.Text.Blank

/-!
# Decimal digits and whole numbers in words

Decimal digits exist in many scripts; each script's ten digits are consecutive, so a table of the
zeros is enough. `integer?` reads a word that gives a count.
-/

namespace ClassOutline.Digit

/-- The digit zero of every script. -/
def zeros : List Nat :=
  [0x30, 0x660, 0x6F0, 0x7C0, 0x966, 0x9E6, 0xA66, 0xAE6, 0xB66, 0xBE6, 0xC66, 0xCE6, 0xD66,
    0xDE6, 0xE50, 0xED0, 0xF20, 0x1040, 0x1090, 0x17E0, 0x1810, 0x1946, 0x19D0, 0x1A80, 0x1A90,
    0x1B50, 0x1BB0, 0x1C40, 0x1C50, 0xA620, 0xA8D0, 0xA900, 0xA9D0, 0xA9F0, 0xAA50, 0xABF0,
    0xFF10, 0x104A0, 0x10D30, 0x11066, 0x110F0, 0x11136, 0x111D0, 0x112F0, 0x11450, 0x114D0,
    0x11650, 0x116C0, 0x11730, 0x118E0, 0x11950, 0x11C50, 0x11D50, 0x11DA0, 0x16A60, 0x16AC0,
    0x16B50, 0x1D7CE, 0x1D7D8, 0x1D7E2, 0x1D7EC, 0x1D7F6, 0x1E140, 0x1E2F0, 0x1E950, 0x1FBF0]

def value? (c : Char) : Option Nat :=
  (zeros.find? fun z => z ≤ c.toNat && c.toNat ≤ z + 9).map (c.toNat - ·)

def isDigit (c : Char) : Bool :=
  (value? c).isSome

/-- Longest digit string that is still read as a number. -/
def maxDigits : Nat := 4300

/-- The value of digits with single underscores between them, after digits of value `value`;
`afterDigit` says whether a digit came just before. -/
def readDigits (value : Nat) (afterDigit : Bool) : List Char → Option Nat
  | [] => if afterDigit then some value else none
  | c :: cs =>
    if c = '_' then if afterDigit then readDigits value false cs else none
    else
      match value? c with
      | some d => readDigits (10 * value + d) true cs
      | none => none

/-- Blanks that may surround a number: of the ASCII ones only the six common ones, and every blank
beyond ASCII. -/
def isMargin (c : Char) : Bool :=
  if c.toNat < 127 then c = ' ' || (9 ≤ c.toNat && c.toNat ≤ 13) else Blank.isBlank c

def natural? (cs : List Char) : Option Nat :=
  if maxDigits < (cs.filter (· ≠ '_')).length then none else readDigits 0 false cs

/-- The whole number that a word spells: an optional sign and digits, with single underscores
between digits and blanks around the whole. -/
def integer? (word : String) : Option Int :=
  let trimmed := word.toList.dropWhile isMargin
  match (trimmed.reverse.dropWhile isMargin).reverse with
  | '+' :: cs => (natural? cs).map Int.ofNat
  | '-' :: cs => (natural? cs).map fun n => -Int.ofNat n
  | cs => (natural? cs).map Int.ofNat

/-- Whether a word looks like a negative number: a minus sign, then digits, or digits, a point and
digits, where the digits before the point may be missing. One line end may follow. -/
def isNegativeNumber (word : String) : Bool :=
  let cs := word.toList
  let cs := if cs.getLast? = some '\n' then cs.dropLast else cs
  match cs with
  | '-' :: rest =>
    let whole := rest.takeWhile isDigit
    match rest.dropWhile isDigit with
    | [] => !whole.isEmpty
    | '.' :: fraction => !fraction.isEmpty && fraction.all isDigit
    | _ => false
  | _ => false

end ClassOutline.Digit
