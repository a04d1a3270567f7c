import ClassOutline.Text.Utf8

/-!
# Positions in a byte string

Cutting and slicing at arbitrary offsets, and the line and column of an offset. Lines count from
one, columns from zero, and a column counts characters, not bytes.
-/

namespace ClassOutline

/-- Where a cut at `offset` falls in `length` bytes: a negative offset counts from the end, and
nothing lies outside the bytes. -/
def cutPoint (offset : Int) (length : Nat) : Nat :=
  if offset < 0 then (offset + length).toNat else min offset.toNat length

theorem cutPoint_le (offset : Int) (length : Nat) : cutPoint offset length ≤ length := by
  unfold cutPoint
  split <;> omega

/-- An offset inside the bytes is its own cut point. -/
theorem cutPoint_of_le {k length : Nat} (h : k ≤ length) : cutPoint k length = k := by
  unfold cutPoint
  split <;> omega

namespace Bytes

/-- The bytes from offset `start` up to offset `stop`; empty when the range is. -/
def slice (bs : Bytes) (start stop : Nat) : Bytes :=
  (bs.take stop).drop start

theorem slice_eq_nil {start stop : Nat} (bs : Bytes) (h : stop ≤ start) :
    slice bs start stop = [] := by
  have hl : (bs.take stop).length ≤ start := by
    rw [List.length_take]
    omega
  exact List.drop_eq_nil_of_le hl

/-- The text of a byte range, with a replacement character for every ill-formed run. -/
def textOf (bs : Bytes) (start stop : Nat) : String :=
  String.ofList (Utf8.decodeLossy (slice bs start stop))

end Bytes

def newline : UInt8 := 10

/-- A line, counted from one, and a column, counted from zero in characters. -/
structure Position where
  line : Nat
  column : Nat
  deriving DecidableEq, Repr

def lastLine (bs : Bytes) : Bytes :=
  (bs.reverse.takeWhile (· != newline)).reverse

/-- The position just after the last byte of `bs`. A character of which only a part is present
does not count. -/
def endPosition (bs : Bytes) : Position :=
  ⟨bs.count newline + 1, (Utf8.decodeDropping (lastLine bs)).length⟩

/-- The position of a byte offset, which is cut to the bytes as `cutPoint` says. -/
def positionAt (bs : Bytes) (offset : Int) : Position :=
  endPosition (bs.take (cutPoint offset bs.length))

end ClassOutline
