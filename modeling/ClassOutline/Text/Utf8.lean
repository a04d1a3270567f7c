/-!
# UTF-8 byte strings

A byte string is read as a list of *pieces*: the characters it spells and, between them, the
maximal ill-formed runs. A run is a bad first byte, or the bytes of a sequence that is well formed
so far and then meets a byte it does not allow, or the end of the input.

The three ways of turning bytes into text differ only in what they do with an ill-formed run:
`decode` stops at the first one and reports it, `decodeLossy` writes one replacement character for
it, `decodeDropping` leaves it out.
-/

namespace ClassOutline

abbrev Bytes := List UInt8

namespace Utf8

/-! ## Encoding -/

/-- The one to four bytes of a character. -/
def encodeChar (c : Char) : Bytes :=
  let v := c.toNat
  if v < 0x80 then
    [UInt8.ofNat v]
  else if v < 0x800 then
    [UInt8.ofNat (0xC0 + v / 0x40), UInt8.ofNat (0x80 + v % 0x40)]
  else if v < 0x10000 then
    [UInt8.ofNat (0xE0 + v / 0x1000), UInt8.ofNat (0x80 + v / 0x40 % 0x40),
      UInt8.ofNat (0x80 + v % 0x40)]
  else
    [UInt8.ofNat (0xF0 + v / 0x40000), UInt8.ofNat (0x80 + v / 0x1000 % 0x40),
      UInt8.ofNat (0x80 + v / 0x40 % 0x40), UInt8.ofNat (0x80 + v % 0x40)]

theorem length_encodeChar_pos (c : Char) : 0 < (encodeChar c).length := by
  simp only [encodeChar]
  repeat' split
  all_goals simp

def encodeChars (cs : List Char) : Bytes :=
  cs.flatMap encodeChar

theorem encodeChars_append (xs ys : List Char) :
    encodeChars (xs ++ ys) = encodeChars xs ++ encodeChars ys := by
  simp [encodeChars]

def encode (text : String) : Bytes :=
  encodeChars text.toList

/-! ## Reading pieces -/

/-- Why a run of bytes is ill formed. -/
inductive Fault where
  | badStart
  /-- A byte follows that the sequence does not allow. -/
  | badContinuation
  /-- The input ends inside a sequence that is well formed so far. -/
  | cutShort
  deriving DecidableEq, Repr

inductive Piece where
  | char (c : Char)
  | ill (run : Bytes) (fault : Fault)
  deriving DecidableEq, Repr

def Piece.width : Piece → Nat
  | .char c => (encodeChar c).length
  | .ill run _ => run.length

/-- A sequence of which the last bytes are still owed. -/
structure Pending where
  run : Bytes
  value : Nat
  /-- Number of bytes owed after the next one. -/
  owed : Nat
  low : Nat
  high : Nat
  deriving DecidableEq, Repr

/-- What a byte does outside any sequence: it is a character, opens a sequence or starts nothing.

The second byte's range is narrower after `E0` and `F0` (no longer spelling than needed), after
`ED` (no surrogates) and after `F4` (nothing past the last code point). -/
def start (b : UInt8) : List Piece × Option Pending :=
  let n := b.toNat
  if n < 0x80 then
    ([.char (Char.ofNat n)], none)
  else if n < 0xC2 then
    ([.ill [b] .badStart], none)
  else if n < 0xE0 then
    ([], some ⟨[b], n - 0xC0, 0, 0x80, 0xBF⟩)
  else if n < 0xF0 then
    ([], some ⟨[b], n - 0xE0, 1, if n = 0xE0 then 0xA0 else 0x80,
      if n = 0xED then 0x9F else 0xBF⟩)
  else if n < 0xF5 then
    ([], some ⟨[b], n - 0xF0, 2, if n = 0xF0 then 0x90 else 0x80,
      if n = 0xF4 then 0x8F else 0xBF⟩)
  else
    ([.ill [b] .badStart], none)

/-- Adds an allowed byte to an open sequence, which ends when nothing more is owed. -/
def Pending.push (p : Pending) (b : UInt8) : List Piece × Option Pending :=
  let value := p.value * 0x40 + (b.toNat - 0x80)
  match p.owed with
  | 0 => ([.char (Char.ofNat value)], none)
  | n + 1 => ([], some ⟨p.run ++ [b], value, n, 0x80, 0xBF⟩)

/-- Reads one byte: the pieces that it completes and the sequence that is open afterwards. A byte
that an open sequence does not allow ends that sequence and is read again on its own. -/
def step : Option Pending → UInt8 → List Piece × Option Pending
  | none, b => start b
  | some p, b =>
    if p.low ≤ b.toNat ∧ b.toNat ≤ p.high then p.push b
    else (.ill p.run .badContinuation :: (start b).1, (start b).2)

/-- The pieces of `bs` when a sequence may be open already. -/
def piecesFrom : Option Pending → Bytes → List Piece
  | none, [] => []
  | some p, [] => [.ill p.run .cutShort]
  | s, b :: bs => (step s b).1 ++ piecesFrom (step s b).2 bs

def pieces (bs : Bytes) : List Piece :=
  piecesFrom none bs

/-! ## Decoding -/

def replacement : Char := Char.ofNat 0xFFFD

/-- Every ill-formed run becomes one replacement character. -/
def decodeLossy (bs : Bytes) : List Char :=
  (pieces bs).map fun
    | .char c => c
    | .ill _ _ => replacement

/-- Every ill-formed run is left out. -/
def decodeDropping (bs : Bytes) : List Char :=
  (pieces bs).filterMap fun
    | .char c => some c
    | .ill _ _ => none

/-- The first ill-formed run of a byte string: where it starts, its bytes and its fault. -/
structure DecodeError where
  position : Nat
  run : Bytes
  fault : Fault
  deriving DecidableEq, Repr

/-- The characters of `ps`, read from offset `position` on, or the first ill-formed run. -/
def charsFrom (position : Nat) : List Piece → Except DecodeError (List Char)
  | [] => .ok []
  | .char c :: ps =>
    match charsFrom (position + (Piece.char c).width) ps with
    | .ok cs => .ok (c :: cs)
    | .error e => .error e
  | .ill run fault :: _ => .error ⟨position, run, fault⟩

def decodeChars (bs : Bytes) : Except DecodeError (List Char) :=
  charsFrom 0 (pieces bs)

def decode (bs : Bytes) : Except DecodeError String :=
  (decodeChars bs).map String.ofList

/-! ## Wording -/

def Fault.reason : Fault → String
  | .badStart => "invalid start byte"
  | .badContinuation => "invalid continuation byte"
  | .cutShort => "unexpected end of data"

def hexByte (b : UInt8) : String :=
  String.ofList [Nat.digitChar (b.toNat / 16), Nat.digitChar (b.toNat % 16)]

/-- Wording of a decoding error: a run of one byte is shown, a longer one is located only. -/
def DecodeError.message (e : DecodeError) : String :=
  let what :=
    match e.run with
    | [b] => "byte 0x" ++ hexByte b ++ " in position " ++ toString e.position
    | run => "bytes in position " ++ toString e.position ++ "-" ++
        toString (e.position + run.length - 1)
  "'utf-8' codec can't decode " ++ what ++ ": " ++ e.fault.reason

end Utf8

end ClassOutline
