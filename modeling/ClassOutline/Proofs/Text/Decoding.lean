import ClassOutline.Text.Utf8
import Mathlib.Algebra.Group.Nat.Defs
import Mathlib.Data.List.Basic

/-!
# Decoding what was encoded, whole or cut

The bytes of a character are a first byte and continuation bytes, which carry
its value six bits at a time. `Reading` is the invariant of the decoder inside
such a sequence: it holds the high bits read so far and allows the next byte.
From it follow the round trip and what a cut inside a character leaves behind.
-/

namespace ClassOutline.Utf8

/-- What reading bytes completes, and the sequence open afterwards. -/
def feed : Option Pending → Bytes → List Piece × Option Pending
  | s, [] => ([], s)
  | s, b :: bs => ((step s b).1 ++ (feed (step s b).2 bs).1, (feed (step s b).2 bs).2)

theorem piecesFrom_append (s : Option Pending) (bs rest : Bytes) :
    piecesFrom s (bs ++ rest) = (feed s bs).1 ++ piecesFrom (feed s bs).2 rest := by
  induction bs generalizing s with
  | nil => simp [feed]
  | cons b bs ih => simp [feed, piecesFrom, ih]

/-! ## Continuation bytes -/

/-- The last `r` bytes of a longer sequence for the value `v`. -/
def continuation (v : Nat) : Nat → Bytes
  | 0 => []
  | r + 1 => UInt8.ofNat (0x80 + v / 64 ^ r % 64) :: continuation v r

theorem length_continuation (v r : Nat) : (continuation v r).length = r := by
  induction r with
  | zero => rfl
  | succ r ih => simp [continuation, ih]

theorem toNat_continuation (v r : Nat) :
    (UInt8.ofNat (0x80 + v / 64 ^ r % 64)).toNat = 0x80 + v / 64 ^ r % 64 := by
  have hlt : v / 64 ^ r % 64 < 64 := Nat.mod_lt _ (by decide)
  exact UInt8.toNat_ofNat_of_lt' (by change _ < 256; omega)

theorem continuation_ge {v r : Nat} {b : UInt8} (h : b ∈ continuation v r) : 0x80 ≤ b.toNat := by
  induction r with
  | zero => simp [continuation] at h
  | succ r ih =>
    rcases List.mem_cons.mp h with rfl | h
    · rw [toNat_continuation]
      omega
    · exact ih h

/-- An open sequence has read all of `v` but the bytes it still owes, and the
next of these is a byte it allows. -/
structure Reading (v : Nat) (p : Pending) : Prop where
  value : p.value = v / 64 ^ (p.owed + 1)
  low : 0x80 ≤ p.low
  allowed : p.low ≤ 0x80 + v / 64 ^ p.owed % 64 ∧ 0x80 + v / 64 ^ p.owed % 64 ≤ p.high

theorem Reading.value_push {v : Nat} {p : Pending} (h : Reading v p) :
    p.value * 0x40 + v / 64 ^ p.owed % 64 = v / 64 ^ p.owed := by
  have hdiv : v / 64 ^ (p.owed + 1) = v / 64 ^ p.owed / 64 := by
    rw [Nat.pow_succ, Nat.div_div_eq_div_mul]
  rw [h.value, hdiv]
  omega

theorem Reading.step_last {v : Nat} {p : Pending} (h : Reading v p) (ho : p.owed = 0) :
    step (some p) (UInt8.ofNat (0x80 + v / 64 ^ p.owed % 64)) =
      ([.char (Char.ofNat v)], none) := by
  have hpush := h.value_push
  rw [step, toNat_continuation, if_pos h.allowed, Pending.push, toNat_continuation]
  simp only [Nat.add_sub_cancel_left, hpush]
  simp [ho]

/-- Any other byte is kept, and one less is owed. -/
theorem Reading.step_more {v r : Nat} {p : Pending} (h : Reading v p) (ho : p.owed = r + 1) :
    ∃ q, step (some p) (UInt8.ofNat (0x80 + v / 64 ^ p.owed % 64)) = ([], some q) ∧
      q.run = p.run ++ [UInt8.ofNat (0x80 + v / 64 ^ p.owed % 64)] ∧ q.owed = r ∧
      Reading v q := by
  have hpush := h.value_push
  refine ⟨⟨p.run ++ [UInt8.ofNat (0x80 + v / 64 ^ p.owed % 64)], v / 64 ^ p.owed, r, 0x80, 0xBF⟩,
    ?_, rfl, rfl, ?_⟩
  · rw [step, toNat_continuation, if_pos h.allowed, Pending.push, toNat_continuation]
    simp only [Nat.add_sub_cancel_left, hpush]
    rw [ho]
  · have hlt : v / 64 ^ r % 64 < 64 := Nat.mod_lt _ (by decide)
    exact ⟨by rw [ho], Nat.le_refl _, by simp only; omega⟩

theorem Reading.feed_all {v : Nat} {p : Pending} (h : Reading v p) :
    feed (some p) (continuation v (p.owed + 1)) = ([.char (Char.ofNat v)], none) := by
  generalize hr : p.owed = r
  induction r generalizing p with
  | zero =>
    have hs := h.step_last hr
    rw [hr] at hs
    rw [continuation, feed, hs]
    rfl
  | succ r ih =>
    obtain ⟨q, hs, _, hq, hread⟩ := h.step_more hr
    have hrest := ih hread hq
    rw [hr] at hs
    rw [continuation, feed, hs, hrest]
    rfl

/-- Fewer bytes than owed complete nothing and are all kept. -/
theorem Reading.feed_take {v : Nat} {p : Pending} (h : Reading v p) {j : Nat} (hj : j ≤ p.owed) :
    ∃ q, feed (some p) ((continuation v (p.owed + 1)).take j) = ([], some q) ∧
      q.run = p.run ++ (continuation v (p.owed + 1)).take j ∧ 0x80 ≤ q.low := by
  generalize hr : p.owed = r at hj ⊢
  induction r generalizing p j with
  | zero =>
    have hz : j = 0 := by omega
    subst hz
    exact ⟨p, rfl, by simp, h.low⟩
  | succ r ih =>
    cases j with
    | zero => exact ⟨p, rfl, by simp, h.low⟩
    | succ j =>
      obtain ⟨q, hs, hrun, hq, hread⟩ := h.step_more hr
      obtain ⟨q', hfeed, hrun', hlow⟩ := ih (j := j) hread hq (by omega)
      rw [hr] at hs hrun
      refine ⟨q', ?_, ?_, hlow⟩
      · rw [continuation, List.take_succ_cons, feed, hs, hfeed]
        rfl
      · rw [continuation, List.take_succ_cons, hrun', hrun, List.append_assoc]
        rfl

/-! ## Characters -/

theorem toNat_valid (c : Char) :
    c.toNat < 0xD800 ∨ 0xDFFF < c.toNat ∧ c.toNat < 0x110000 :=
  c.valid

theorem encodeChar_of_lt {c : Char} (hc : c.toNat < 0x80) :
    encodeChar c = [UInt8.ofNat c.toNat] := by
  rw [encodeChar, if_pos hc]

theorem step_none_of_lt {c : Char} (hc : c.toNat < 0x80) :
    step none (UInt8.ofNat c.toNat) = ([.char c], none) := by
  have hb : (UInt8.ofNat c.toNat).toNat = c.toNat :=
    UInt8.toNat_ofNat_of_lt' (by change _ < 256; omega)
  rw [step, start, hb, if_pos hc, Char.ofNat_toNat]

/-- A byte opens a sequence that reads `v` and owes `r` bytes after the next. -/
def Opens (v : Nat) (b : UInt8) (r : Nat) : Prop :=
  ∃ p, step none b = ([], some p) ∧ p.run = [b] ∧ p.owed = r ∧ Reading v p

theorem opens_two {v : Nat} (h : 0x80 ≤ v) (h' : v < 0x800) :
    Opens v (UInt8.ofNat (0xC0 + v / 0x40)) 0 := by
  have hb : (UInt8.ofNat (0xC0 + v / 0x40)).toNat = 0xC0 + v / 0x40 :=
    UInt8.toNat_ofNat_of_lt' (by change _ < 256; omega)
  refine ⟨⟨[UInt8.ofNat (0xC0 + v / 0x40)], v / 0x40, 0, 0x80, 0xBF⟩, ?_, rfl, rfl, ?_⟩
  · rw [step, start, hb, if_neg (by omega), if_neg (by omega), if_pos (by omega),
      Nat.add_sub_cancel_left]
  · have hlt : v / 64 ^ 0 % 64 < 64 := Nat.mod_lt _ (by decide)
    exact ⟨rfl, Nat.le_refl _, by simp only; omega⟩

/-- Three bytes: the second one excludes longer spellings and surrogates. -/
theorem opens_three {v : Nat} (h : 0x800 ≤ v) (h' : v < 0x10000)
    (hv : v < 0xD800 ∨ 0xDFFF < v) : Opens v (UInt8.ofNat (0xE0 + v / 0x1000)) 1 := by
  have hb : (UInt8.ofNat (0xE0 + v / 0x1000)).toNat = 0xE0 + v / 0x1000 :=
    UInt8.toNat_ofNat_of_lt' (by change _ < 256; omega)
  refine ⟨⟨[UInt8.ofNat (0xE0 + v / 0x1000)], v / 0x1000, 1,
    if 0xE0 + v / 0x1000 = 0xE0 then 0xA0 else 0x80,
    if 0xE0 + v / 0x1000 = 0xED then 0x9F else 0xBF⟩, ?_, rfl, rfl, ?_⟩
  · rw [step, start, hb, if_neg (by omega), if_neg (by omega), if_neg (by omega),
      if_pos (by omega), Nat.add_sub_cancel_left]
  · exact ⟨rfl, by simp only; split <;> omega, by constructor <;> simp only <;> split <;> omega⟩

/-- Four bytes: the second one excludes longer spellings and values past the last. -/
theorem opens_four {v : Nat} (h : 0x10000 ≤ v) (h' : v < 0x110000) :
    Opens v (UInt8.ofNat (0xF0 + v / 0x40000)) 2 := by
  have hb : (UInt8.ofNat (0xF0 + v / 0x40000)).toNat = 0xF0 + v / 0x40000 :=
    UInt8.toNat_ofNat_of_lt' (by change _ < 256; omega)
  refine ⟨⟨[UInt8.ofNat (0xF0 + v / 0x40000)], v / 0x40000, 2,
    if 0xF0 + v / 0x40000 = 0xF0 then 0x90 else 0x80,
    if 0xF0 + v / 0x40000 = 0xF4 then 0x8F else 0xBF⟩, ?_, rfl, rfl, ?_⟩
  · rw [step, start, hb, if_neg (by omega), if_neg (by omega), if_neg (by omega),
      if_neg (by omega), if_pos (by omega), Nat.add_sub_cancel_left]
  · exact ⟨rfl, by simp only; split <;> omega, by constructor <;> simp only <;> split <;> omega⟩

theorem exists_opens {c : Char} (hc : 0x80 ≤ c.toNat) :
    ∃ b r, encodeChar c = b :: continuation c.toNat (r + 1) ∧ Opens c.toNat b r := by
  have hv := toNat_valid c
  by_cases h2 : c.toNat < 0x800
  · refine ⟨_, 0, ?_, opens_two hc h2⟩
    simp [encodeChar, continuation, h2, show ¬ c.toNat < 0x80 by omega]
  · by_cases h3 : c.toNat < 0x10000
    · refine ⟨_, 1, ?_, opens_three (by omega) h3 (by omega)⟩
      simp [encodeChar, continuation, h2, h3, show ¬ c.toNat < 0x80 by omega]
    · refine ⟨_, 2, ?_, opens_four (by omega) (by omega)⟩
      simp [encodeChar, continuation, h2, h3, show ¬ c.toNat < 0x80 by omega]

theorem feed_encodeChar (c : Char) : feed none (encodeChar c) = ([.char c], none) := by
  by_cases hc : c.toNat < 0x80
  · rw [encodeChar_of_lt hc, feed, step_none_of_lt hc]
    rfl
  · obtain ⟨b, r, he, p, hstep, _, ho, hread⟩ := exists_opens (c := c) (by omega)
    have hall := hread.feed_all
    rw [ho, Char.ofNat_toNat] at hall
    rw [he, feed, hstep, hall]
    rfl

/-- The first bytes of a character, but not all, are one open sequence. -/
theorem feed_take_encodeChar {c : Char} {j : Nat} (h0 : 0 < j) (hj : j < (encodeChar c).length) :
    ∃ p, feed none ((encodeChar c).take j) = ([], some p) ∧ p.run = (encodeChar c).take j ∧
      0x80 ≤ p.low := by
  have hc : 0x80 ≤ c.toNat := by
    by_contra hlt
    rw [encodeChar_of_lt (by omega), List.length_singleton] at hj
    omega
  obtain ⟨b, r, he, p, hstep, hrun, ho, hread⟩ := exists_opens hc
  rw [he, List.length_cons, length_continuation] at hj
  obtain ⟨i, rfl⟩ : ∃ i, j = i + 1 := ⟨j - 1, by omega⟩
  obtain ⟨q, hfeed, hq, hlow⟩ := hread.feed_take (j := i) (by omega)
  rw [ho] at hfeed hq
  refine ⟨q, ?_, ?_, hlow⟩
  · rw [he, List.take_succ_cons, feed, hstep, hfeed]
    rfl
  · rw [he, List.take_succ_cons, hq, hrun]
    rfl

/-- Every byte of a character after its first is a continuation byte. -/
theorem getElem_encodeChar_ge {c : Char} {j : Nat} {b : UInt8} (h0 : 0 < j)
    (hb : (encodeChar c)[j]? = some b) : 0x80 ≤ b.toNat := by
  obtain ⟨i, rfl⟩ : ∃ i, j = i + 1 := ⟨j - 1, by omega⟩
  by_cases hc : c.toNat < 0x80
  · simp [encodeChar_of_lt hc] at hb
  · obtain ⟨_, r, he, _⟩ := exists_opens (c := c) (by omega)
    rw [he, List.getElem?_cons_succ] at hb
    exact continuation_ge (List.mem_of_getElem? hb)

/-! ## Texts -/

theorem length_encodeChars_cons (c : Char) (cs : List Char) :
    (encodeChars (c :: cs)).length = (encodeChar c).length + (encodeChars cs).length := by
  rw [encodeChars, List.flatMap_cons, List.length_append]
  rfl

theorem pieces_encodeChars_append (cs : List Char) (rest : Bytes) :
    pieces (encodeChars cs ++ rest) = cs.map .char ++ pieces rest := by
  induction cs with
  | nil => simp [encodeChars]
  | cons c cs ih =>
    have hc : encodeChars (c :: cs) ++ rest = encodeChar c ++ (encodeChars cs ++ rest) := by
      simp [encodeChars]
    rw [hc, pieces, piecesFrom_append, feed_encodeChar]
    simpa [pieces] using ih

/-- Characters are read as they are, and reading goes on behind them. -/
theorem charsFrom_map_append (position : Nat) (cs : List Char) (ps : List Piece) :
    charsFrom position (cs.map .char ++ ps) =
      (charsFrom (position + (encodeChars cs).length) ps).map (cs ++ ·) := by
  induction cs generalizing position with
  | nil => cases h : charsFrom position ps <;> simp [encodeChars, h, Except.map]
  | cons c cs ih =>
    have hlen : position + (encodeChar c).length + (encodeChars cs).length =
        position + (encodeChars (c :: cs)).length := by
      rw [length_encodeChars_cons]
      omega
    simp only [List.map_cons, List.cons_append, charsFrom, Piece.width, ih, hlen]
    cases charsFrom (position + (encodeChars (c :: cs)).length) ps <;> rfl

theorem decode_encodeChars (cs : List Char) : decode (encodeChars cs) = .ok (String.ofList cs) := by
  have hp := pieces_encodeChars_append cs []
  have hc := charsFrom_map_append 0 cs (pieces [])
  rw [List.append_nil] at hp
  rw [decode, decodeChars, hp, hc]
  simp [pieces, piecesFrom, charsFrom, Except.map]

/-- A character that is cut off by a byte below the continuation bytes is the
first ill-formed run: its bytes before the cut are reported. -/
theorem decode_cut (before : List Char) {c : Char} {j : Nat} (h0 : 0 < j)
    (hj : j < (encodeChar c).length) {b : UInt8} (hb : b.toNat < 0x80) (rest : Bytes) :
    decode (encodeChars before ++ ((encodeChar c).take j ++ b :: rest)) =
      .error ⟨(encodeChars before).length, (encodeChar c).take j, .badContinuation⟩ := by
  obtain ⟨p, hfeed, hrun, hlow⟩ := feed_take_encodeChar h0 hj
  have hstep : step (some p) b = (.ill p.run .badContinuation :: (start b).1, (start b).2) := by
    rw [step, if_neg (by omega)]
  have hcut : pieces ((encodeChar c).take j ++ b :: rest) =
      .ill ((encodeChar c).take j) .badContinuation :: piecesFrom none (b :: rest) := by
    rw [pieces, piecesFrom_append, hfeed, ← hrun]
    simp only [piecesFrom, hstep, List.nil_append, List.cons_append]
    rfl
  rw [decode, decodeChars, pieces_encodeChars_append, charsFrom_map_append, hcut]
  simp [charsFrom, Except.map]

/-! ## What decodes was encoded -/

/-- Every value that an open sequence can still read is a character's, and its bytes
are those read so far and those that are owed. -/
structure Faithful (p : Pending) : Prop where
  low : 0x80 ≤ p.low
  high : p.high ≤ 0xBF
  encode : ∀ v, Reading v p → encodeChar (Char.ofNat v) = p.run ++ continuation v (p.owed + 1)

theorem toNat_ofNat {v : Nat} (hv : v < 0xD800 ∨ 0xDFFF < v ∧ v < 0x110000) :
    (Char.ofNat v).toNat = v := by
  rw [Char.ofNat, dif_pos hv]
  rfl

theorem eq_ofNat_of_toNat {b : UInt8} {n : Nat} (h : b.toNat = n) : b = UInt8.ofNat n := by
  rw [← h, UInt8.ofNat_toNat]

theorem faithful_start {b : UInt8} {p : Pending} (h : (start b).2 = some p) : Faithful p := by
  rw [start] at h
  split at h
  · cases h
  split at h
  · cases h
  split at h
  · -- Two bytes.
    obtain rfl := Option.some.inj h
    refine ⟨Nat.le_refl _, Nat.le_refl _, fun v hread => ?_⟩
    have hvalue := hread.value
    simp only [Nat.zero_add, Nat.pow_one] at hvalue
    have hb : b = UInt8.ofNat (0xC0 + v / 64) := eq_ofNat_of_toNat (by omega)
    rw [encodeChar, toNat_ofNat (by omega)]
    simp only [continuation, Nat.pow_zero, Nat.div_one]
    rw [if_neg (by omega), if_pos (by omega), hb]
    rfl
  split at h
  · -- Three bytes.
    obtain rfl := Option.some.inj h
    refine ⟨by simp only; split <;> omega, by simp only; split <;> omega, fun v hread => ?_⟩
    have hvalue := hread.value
    obtain ⟨hlow, hhigh⟩ := hread.allowed
    simp only [Nat.reduceAdd, Nat.reducePow, Nat.pow_one] at hvalue hlow hhigh
    have hv : 0x800 ≤ v ∧ v < 0x10000 ∧ (v < 0xD800 ∨ 0xDFFF < v) := by
      split at hlow <;> split at hhigh <;> omega
    have hb : b = UInt8.ofNat (0xE0 + v / 0x1000) := eq_ofNat_of_toNat (by omega)
    rw [encodeChar, toNat_ofNat (by omega)]
    simp only [continuation, Nat.pow_zero, Nat.div_one, Nat.pow_one]
    rw [if_neg (by omega), if_neg (by omega), if_pos (by omega), hb]
    rfl
  split at h
  · -- Four bytes.
    obtain rfl := Option.some.inj h
    refine ⟨by simp only; split <;> omega, by simp only; split <;> omega, fun v hread => ?_⟩
    have hvalue := hread.value
    obtain ⟨hlow, hhigh⟩ := hread.allowed
    simp only [Nat.reduceAdd, Nat.reducePow] at hvalue hlow hhigh
    have hv : 0x10000 ≤ v ∧ v < 0x110000 := by
      split at hlow <;> split at hhigh <;> omega
    have hb : b = UInt8.ofNat (0xF0 + v / 0x40000) := eq_ofNat_of_toNat (by omega)
    rw [encodeChar, toNat_ofNat (by omega)]
    simp only [continuation, Nat.pow_zero, Nat.div_one, Nat.pow_one, Nat.reducePow]
    rw [if_neg (by omega), if_neg (by omega), if_neg (by omega), hb]
    rfl
  · cases h

/-- A byte outside any sequence is a character, opens a sequence or is ill formed. -/
theorem start_cases (b : UInt8) :
    (∃ c, start b = ([.char c], none) ∧ encodeChar c = [b]) ∨
      (∃ p, start b = ([], some p) ∧ p.run = [b] ∧ Faithful p) ∨
      start b = ([.ill [b] .badStart], none) := by
  by_cases hascii : b.toNat < 0x80
  · have hb := toNat_ofNat (v := b.toNat) (by omega)
    refine Or.inl ⟨Char.ofNat b.toNat, by simp only [start, if_pos hascii], ?_⟩
    rw [encodeChar_of_lt (by omega), hb, UInt8.ofNat_toNat]
  · right
    cases hopen : (start b).2 with
    | some p =>
      refine Or.inl ⟨p, ?_, ?_, faithful_start hopen⟩ <;> revert hopen <;> simp only [start] <;>
        split_ifs <;> simp <;> rintro rfl <;> rfl
    | none =>
      right
      revert hopen
      simp only [start]
      split_ifs <;> simp

/-- The value that a sequence has once an allowed byte is read. -/
theorem Faithful.reading_push {p : Pending} {b : UInt8} {v : Nat} (h : Faithful p)
    (hallowed : p.low ≤ b.toNat ∧ b.toNat ≤ p.high)
    (hv : v / 64 ^ p.owed = p.value * 0x40 + (b.toNat - 0x80)) :
    Reading v p ∧ b = UInt8.ofNat (0x80 + v / 64 ^ p.owed % 64) := by
  have hlow := h.low
  have hhigh := h.high
  have hmod : v / 64 ^ p.owed % 64 = b.toNat - 0x80 := by omega
  refine ⟨⟨?_, h.low, by omega⟩, eq_ofNat_of_toNat (by omega)⟩
  rw [Nat.pow_succ, ← Nat.div_div_eq_div_mul, hv]
  omega

theorem Faithful.push_last {p : Pending} {b : UInt8} (h : Faithful p)
    (hallowed : p.low ≤ b.toNat ∧ b.toNat ≤ p.high) (ho : p.owed = 0) :
    ∃ c, p.push b = ([.char c], none) ∧ encodeChar c = p.run ++ [b] := by
  obtain ⟨hread, hb⟩ := h.reading_push (v := p.value * 0x40 + (b.toNat - 0x80)) hallowed
    (by rw [ho, Nat.pow_zero, Nat.div_one])
  refine ⟨Char.ofNat (p.value * 0x40 + (b.toNat - 0x80)), by simp only [Pending.push, ho], ?_⟩
  rw [h.encode _ hread]
  rw [ho] at hb ⊢
  rw [continuation, continuation, ← hb]

theorem Faithful.push_more {p : Pending} {b : UInt8} {r : Nat} (h : Faithful p)
    (hallowed : p.low ≤ b.toNat ∧ b.toNat ≤ p.high) (ho : p.owed = r + 1) :
    ∃ q, p.push b = ([], some q) ∧ q.run = p.run ++ [b] ∧ Faithful q := by
  refine ⟨⟨p.run ++ [b], p.value * 0x40 + (b.toNat - 0x80), r, 0x80, 0xBF⟩,
    by simp only [Pending.push, ho], rfl, Nat.le_refl _, Nat.le_refl _, fun v hread => ?_⟩
  obtain ⟨hp, hb⟩ := h.reading_push hallowed (by rw [ho]; exact hread.value.symm)
  rw [h.encode v hp, ho, continuation]
  rw [ho] at hb
  rw [← hb, List.append_assoc]
  rfl

def openRun : Option Pending → Bytes
  | none => []
  | some p => p.run

/-- What the first of some pieces and the rest are, if they hold no fault. -/
theorem charsFrom_char_cons {position : Nat} {c : Char} {ps : List Piece} {cs : List Char}
    (h : charsFrom position (.char c :: ps) = .ok cs) :
    ∃ rest next, charsFrom next ps = .ok rest ∧ cs = c :: rest := by
  rw [charsFrom] at h
  split at h
  · rename_i rest hrest
    exact ⟨rest, _, hrest, (Except.ok.inj h).symm⟩
  · cases h

/-- Bytes that are read without a fault are those of the characters read. -/
theorem encodeChars_of_charsFrom {s : Option Pending} {bs : Bytes} {position : Nat}
    {cs : List Char} (hs : ∀ p, s = some p → Faithful p)
    (h : charsFrom position (piecesFrom s bs) = .ok cs) : encodeChars cs = openRun s ++ bs := by
  induction bs generalizing s position cs with
  | nil =>
    cases s with
    | none =>
      rw [piecesFrom, charsFrom] at h
      rw [← Except.ok.inj h]
      rfl
    | some p => cases h
  | cons b bs ih =>
    rw [piecesFrom] at h
    cases s with
    | none =>
      rw [step] at h
      rcases start_cases b with ⟨c, hstart, hc⟩ | ⟨p, hstart, hrun, hp⟩ | hstart
      · rw [hstart] at h
        obtain ⟨rest, next, hrest, rfl⟩ := charsFrom_char_cons h
        have htail := ih (fun _ hnone => by cases hnone) hrest
        show encodeChar c ++ encodeChars rest = b :: bs
        rw [hc, htail]
        rfl
      · rw [hstart] at h
        rw [ih (fun _ he => Option.some.inj he ▸ hp) h]
        show p.run ++ bs = b :: bs
        rw [hrun]
        rfl
      · rw [hstart] at h
        cases h
    | some p =>
      by_cases hallowed : p.low ≤ b.toNat ∧ b.toNat ≤ p.high
      · rw [step, if_pos hallowed] at h
        cases ho : p.owed with
        | zero =>
          obtain ⟨c, hpush, hc⟩ := (hs p rfl).push_last hallowed ho
          rw [hpush] at h
          obtain ⟨rest, next, hrest, rfl⟩ := charsFrom_char_cons h
          have htail := ih (fun _ hnone => by cases hnone) hrest
          show encodeChar c ++ encodeChars rest = p.run ++ b :: bs
          rw [hc, htail, List.append_assoc]
          rfl
        | succ r =>
          obtain ⟨q, hpush, hrun, hq⟩ := (hs p rfl).push_more hallowed ho
          rw [hpush] at h
          have htail := ih (fun _ he => Option.some.inj he ▸ hq) h
          rw [htail, openRun, hrun, List.append_assoc]
          rfl
      · rw [step, if_neg hallowed] at h
        cases h

theorem decode_encode (text : String) : decode (encode text) = .ok text := by
  rw [encode, decode_encodeChars, String.ofList_toList]

theorem encode_of_decode {bs : Bytes} {text : String} (h : decode bs = .ok text) :
    encode text = bs := by
  rw [decode, decodeChars] at h
  cases hchars : charsFrom 0 (pieces bs) with
  | error e =>
    rw [hchars] at h
    cases h
  | ok cs =>
    rw [hchars] at h
    obtain rfl : String.ofList cs = text := Except.ok.inj h
    rw [encode, String.toList_ofList]
    exact encodeChars_of_charsFrom (fun _ hnone => by cases hnone) hchars

/-! ## Where a cut falls -/

/-- A cut after `k` bytes falls between two characters, or at an end. -/
def IsBoundary (cs : List Char) (k : Nat) : Prop :=
  ∃ before after, cs = before ++ after ∧ (encodeChars before).length = k

/-- A cut after `k` bytes falls inside the character `c` after `before`. -/
def Cuts (cs : List Char) (k : Nat) (before : List Char) (c : Char) (after : List Char) : Prop :=
  cs = before ++ c :: after ∧ (encodeChars before).length < k ∧
    k < (encodeChars before).length + (encodeChar c).length

/-- Every cut inside the bytes of a text is of one of the two kinds. -/
theorem isBoundary_or_cuts (cs : List Char) {k : Nat} (hk : k ≤ (encodeChars cs).length) :
    IsBoundary cs k ∨ ∃ before c after, Cuts cs k before c after := by
  induction cs generalizing k with
  | nil =>
    have hz : k = 0 := by simpa [encodeChars] using hk
    exact Or.inl ⟨[], [], rfl, by simp [encodeChars, hz]⟩
  | cons c cs ih =>
    by_cases hz : k = 0
    · exact Or.inl ⟨[], c :: cs, rfl, by simp [encodeChars, hz]⟩
    by_cases hin : k < (encodeChar c).length
    · refine Or.inr ⟨[], c, cs, rfl, ?_, ?_⟩
      · simp [encodeChars]
        omega
      · simpa [encodeChars] using hin
    · rw [length_encodeChars_cons] at hk
      rcases ih (k := k - (encodeChar c).length) (by omega) with
        ⟨before, after, he, hb⟩ | ⟨before, x, after, he, hlt, hgt⟩
      · refine Or.inl ⟨c :: before, after, by rw [he]; rfl, ?_⟩
        rw [length_encodeChars_cons]
        omega
      · refine Or.inr ⟨c :: before, x, after, by rw [he]; rfl, ?_, ?_⟩
        · rw [length_encodeChars_cons]
          omega
        · rw [length_encodeChars_cons]
          omega

/-- The byte behind a cut inside a character is a continuation byte. -/
theorem Cuts.getElem_ge {cs : List Char} {k : Nat} {before after : List Char} {c : Char}
    (h : Cuts cs k before c after) {b : UInt8} (hb : (encodeChars cs)[k]? = some b) :
    0x80 ≤ b.toNat := by
  obtain ⟨he, hlt, hgt⟩ := h
  have hbytes : encodeChars cs = encodeChars before ++ (encodeChar c ++ encodeChars after) := by
    simp [he, encodeChars]
  rw [hbytes, List.getElem?_append_right (by omega), List.getElem?_append_left (by omega)] at hb
  exact getElem_encodeChar_ge (by omega) hb

end ClassOutline.Utf8
