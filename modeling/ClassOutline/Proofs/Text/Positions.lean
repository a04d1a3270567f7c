import ClassOutline.Proofs.Text.Decoding
import ClassOutline.Text.Position
import Mathlib.Data.List.DropRight
import Mathlib.Data.Prod.Lex

/-!
# The position of an offset, told in characters

Lines are counted in bytes and columns after a decoding that drops what it cannot
read, at a cut that may fall inside a character. Told in characters this is simple:
the bytes of a character that is cut hold no line end and decode to nothing, so the
position of an offset is that of the characters which lie whole before it. Every
further character moves the position on, so it says how many there are.
-/

namespace ClassOutline

open Utf8 (encodeChars encodeChar IsBoundary Cuts)

/-! ## Line ends in encoded text -/

theorem newline_mem_encodeChar {c : Char} : newline ∈ encodeChar c ↔ c = '\n' := by
  constructor
  · intro hmem
    by_cases hc : c.toNat < 0x80
    · rw [Utf8.encodeChar_of_lt hc, List.mem_singleton] at hmem
      have hn : (UInt8.ofNat c.toNat).toNat = c.toNat :=
        UInt8.toNat_ofNat_of_lt' (by change _ < 256; omega)
      rw [← hmem] at hn
      rw [← Char.ofNat_toNat c, ← hn]
      rfl
    · -- Neither the first byte nor one that continues a sequence ends a line.
      obtain ⟨b, r, he, p, hstep, _⟩ := Utf8.exists_opens (c := c) (by omega)
      rw [he] at hmem
      rcases List.mem_cons.mp hmem with hb | hmem
      · rw [← hb] at hstep
        cases hstep
      · have hge := Utf8.continuation_ge hmem
        exact absurd hge (by decide)
  · rintro rfl
    decide

theorem count_newline_encodeChar (c : Char) :
    (encodeChar c).count newline = if c = '\n' then 1 else 0 := by
  split
  · rename_i hc
    rw [hc]
    decide
  · rename_i hc
    exact List.count_eq_zero_of_not_mem (mt newline_mem_encodeChar.mp hc)

theorem count_newline_encodeChars (cs : List Char) :
    (encodeChars cs).count newline = cs.count '\n' := by
  induction cs with
  | nil => rfl
  | cons c cs ih =>
    have hcons : encodeChars (c :: cs) = encodeChar c ++ encodeChars cs := rfl
    rw [hcons, List.count_append, ih, count_newline_encodeChar, List.count_cons]
    simp only [beq_iff_eq]
    omega

/-- Bytes without a line end all belong to the last line. -/
theorem lastLine_append (before : Bytes) {bs : Bytes} (h : newline ∉ bs) :
    lastLine (before ++ bs) = lastLine before ++ bs := by
  have hall : ∀ b ∈ bs.reverse, (b != newline) = true := by
    intro b hb
    rw [List.mem_reverse] at hb
    rw [bne_iff_ne]
    exact fun he => h (he ▸ hb)
  rw [lastLine, lastLine, List.reverse_append, List.takeWhile_append_of_pos hall,
    List.reverse_append, List.reverse_reverse]

theorem lastLine_concat_newline (before : Bytes) : lastLine (before ++ [newline]) = [] := by
  rw [lastLine, List.reverse_append, List.reverse_singleton, List.singleton_append,
    List.takeWhile_cons_of_neg (by simp), List.reverse_nil]

/-- The last line of encoded characters is that of the characters, whatever bytes
without a line end follow. -/
theorem lastLine_encodeChars_append (cs : List Char) {bs : Bytes} (h : newline ∉ bs) :
    lastLine (encodeChars cs ++ bs) = encodeChars (cs.rtakeWhile (· ≠ '\n')) ++ bs := by
  induction cs using List.reverseRecOn generalizing bs with
  | nil => exact lastLine_append [] h
  | append_singleton cs c ih =>
    have hbytes : encodeChars (cs ++ [c]) ++ bs = encodeChars cs ++ (encodeChar c ++ bs) := by
      simp [encodeChars]
    rw [hbytes]
    by_cases hc : c = '\n'
    · have hline :
          encodeChars cs ++ (encodeChar '\n' ++ bs) = encodeChars cs ++ [newline] ++ bs := by
        rw [List.append_assoc]
        rfl
      rw [List.rtakeWhile_concat_neg _ _ _ (by simp [hc]), hc, hline, lastLine_append _ h,
        lastLine_concat_newline]
      rfl
    · have hnot : newline ∉ encodeChar c ++ bs := by
        rw [List.mem_append, newline_mem_encodeChar]
        exact not_or.mpr ⟨hc, h⟩
      rw [List.rtakeWhile_concat_pos _ _ _ (by simp [hc]), ih hnot, Utf8.encodeChars_append,
        List.append_assoc]
      simp [encodeChars]

/-! ## The characters before an offset -/

/-- Number of characters of which every byte is among the first `k`. -/
def wholeChars (cs : List Char) (k : Nat) : Nat :=
  (List.range cs.length).countP fun j => (encodeChars (cs.take (j + 1))).length ≤ k

theorem wholeChars_le (cs : List Char) (k : Nat) : wholeChars cs k ≤ cs.length := by
  have h := List.countP_le_length (l := List.range cs.length)
    (p := fun j => decide ((encodeChars (cs.take (j + 1))).length ≤ k))
  rwa [List.length_range] at h

theorem wholeChars_mono (cs : List Char) {k k' : Nat} (h : k ≤ k') :
    wholeChars cs k ≤ wholeChars cs k' := by
  apply List.countP_mono_left
  intro j _ hj
  simp only [decide_eq_true_eq] at hj ⊢
  omega

theorem length_encodeChars_take (cs : List Char) {i j : Nat} (h : i ≤ j) :
    (encodeChars (cs.take i)).length ≤ (encodeChars (cs.take j)).length := by
  have hbegin : cs.take i = (cs.take j).take i := by rw [List.take_take, Nat.min_eq_left h]
  obtain ⟨rest, hrest⟩ := List.take_prefix i (cs.take j)
  rw [hbegin, ← congrArg encodeChars hrest, Utf8.encodeChars_append, List.length_append]
  omega

/-- The whole characters are those before the first one that does not end in time. -/
theorem wholeChars_eq {cs before after : List Char} {k : Nat} (he : cs = before ++ after)
    (hbefore : (encodeChars before).length ≤ k)
    (hafter : ∀ c ∈ after.head?, k < (encodeChars before).length + (encodeChar c).length) :
    wholeChars cs k = before.length := by
  have hsplit : List.range cs.length =
      List.range before.length ++ (List.range after.length).map (before.length + ·) := by
    rw [he, List.length_append, List.range_add]
  have htake : cs.take before.length = before := by rw [he, List.take_left' rfl]
  rw [wholeChars, hsplit, List.countP_append]
  have hin : (List.range before.length).countP
      (fun j => decide ((encodeChars (cs.take (j + 1))).length ≤ k)) = before.length := by
    rw [List.countP_eq_length.mpr, List.length_range]
    intro j hj
    have hle := length_encodeChars_take cs (Nat.succ_le_of_lt (List.mem_range.mp hj))
    rw [htake] at hle
    exact decide_eq_true (Nat.le_trans hle hbefore)
  have hout : ((List.range after.length).map (before.length + ·)).countP
      (fun j => decide ((encodeChars (cs.take (j + 1))).length ≤ k)) = 0 := by
    rw [List.countP_eq_zero]
    intro j hj
    obtain ⟨i, hi, rfl⟩ := List.mem_map.mp hj
    cases after with
    | nil => simp at hi
    | cons c rest =>
      have hc := hafter c rfl
      have hle := length_encodeChars_take cs (Nat.le_add_right (before.length + 1) i)
      have hone : encodeChars (cs.take (before.length + 1)) =
          encodeChars before ++ encodeChar c := by
        rw [he, List.take_append, List.take_of_length_le (by omega)]
        simp [encodeChars]
      rw [hone, List.length_append] at hle
      simp only [decide_eq_true_eq]
      rw [show before.length + i + 1 = before.length + 1 + i by omega]
      omega
  omega

/-- Bytes that are no line end and decode to nothing. -/
structure Unread (bs : Bytes) : Prop where
  newline : newline ∉ bs
  dropped : Utf8.decodeDropping bs = []

theorem unread_nil : Unread [] :=
  ⟨List.not_mem_nil, rfl⟩

theorem unread_take_encodeChar {c : Char} {j : Nat} (h0 : 0 < j)
    (hj : j < (encodeChar c).length) : Unread ((encodeChar c).take j) where
  newline := by
    intro hmem
    have hc := newline_mem_encodeChar.mp (List.mem_of_mem_take hmem)
    have hone : (encodeChar '\n').length = 1 := by decide
    rw [hc, hone] at hj
    omega
  dropped := by
    obtain ⟨p, hfeed, _⟩ := Utf8.feed_take_encodeChar h0 hj
    have hpieces : Utf8.pieces ((encodeChar c).take j) = [.ill p.run .cutShort] := by
      rw [Utf8.pieces, ← List.append_nil ((encodeChar c).take j), Utf8.piecesFrom_append, hfeed]
      rfl
    rw [Utf8.decodeDropping, hpieces]
    rfl

/-- The first bytes of a text are those of its whole characters and of a part that
is not read. -/
theorem take_encodeChars (cs : List Char) {k : Nat} (hk : k ≤ (encodeChars cs).length) :
    ∃ part, (encodeChars cs).take k = encodeChars (cs.take (wholeChars cs k)) ++ part ∧
      Unread part := by
  rcases Utf8.isBoundary_or_cuts cs hk with
    ⟨before, after, he, hb⟩ | ⟨before, c, after, he, hlt, hgt⟩
  · have hwhole : wholeChars cs k = before.length := by
      refine wholeChars_eq he (Nat.le_of_eq hb) fun c _ => ?_
      have hpos := Utf8.length_encodeChar_pos c
      omega
    refine ⟨[], ?_, unread_nil⟩
    rw [hwhole, he, List.take_left' rfl, Utf8.encodeChars_append, List.take_left' hb,
      List.append_nil]
  · have hwhole : wholeChars cs k = before.length := by
      refine wholeChars_eq he (Nat.le_of_lt hlt) fun x hx => ?_
      rw [← Option.some.inj hx]
      exact hgt
    have hbytes : encodeChars cs = encodeChars before ++ (encodeChar c ++ encodeChars after) := by
      simp [he, encodeChars]
    refine ⟨(encodeChar c).take (k - (encodeChars before).length), ?_,
      unread_take_encodeChar (by omega) (by omega)⟩
    rw [hwhole, hbytes, List.take_append, List.take_of_length_le (by omega),
      List.take_append_of_le_length (by omega), he, List.take_left' rfl]

/-! ## Positions of characters -/

def charsPosition (cs : List Char) : Position :=
  ⟨1 + cs.count '\n', (cs.rtakeWhile (· ≠ '\n')).length⟩

theorem decodeDropping_encodeChars_append (cs : List Char) (bs : Bytes) :
    Utf8.decodeDropping (encodeChars cs ++ bs) = cs ++ Utf8.decodeDropping bs := by
  rw [Utf8.decodeDropping, Utf8.pieces_encodeChars_append, List.filterMap_append,
    List.filterMap_map]
  congr 1
  exact List.filterMap_some

theorem endPosition_encodeChars_append (cs : List Char) {bs : Bytes} (h : Unread bs) :
    endPosition (encodeChars cs ++ bs) = charsPosition cs := by
  rw [endPosition, charsPosition, List.count_append, count_newline_encodeChars,
    List.count_eq_zero_of_not_mem h.newline, lastLine_encodeChars_append cs h.newline,
    decodeDropping_encodeChars_append, h.dropped, List.append_nil, Nat.add_zero, Nat.add_comm]

theorem positionAt_encodeChars (cs : List Char) (b : Nat) :
    positionAt (encodeChars cs) b =
      charsPosition (cs.take (wholeChars cs (min b (encodeChars cs).length))) := by
  have hcut : cutPoint b (encodeChars cs).length = min b (encodeChars cs).length := by
    rw [cutPoint, if_neg (by omega), Int.toNat_natCast]
  obtain ⟨part, htake, hpart⟩ := take_encodeChars cs (Nat.min_le_right b (encodeChars cs).length)
  rw [positionAt, hcut, htake, endPosition_encodeChars_append _ hpart]

/-! ## The order of positions -/

/-- Positions are compared by line and then by column. -/
instance : PartialOrder Position :=
  PartialOrder.lift (fun p => toLex (p.line, p.column)) fun p q h => by
    cases p
    cases q
    simpa using h

theorem Position.lt_iff {p q : Position} :
    p < q ↔ p.line < q.line ∨ p.line = q.line ∧ p.column < q.column :=
  Prod.Lex.lt_iff

theorem charsPosition_lt_concat (cs : List Char) (c : Char) :
    charsPosition cs < charsPosition (cs ++ [c]) := by
  rw [Position.lt_iff, charsPosition, charsPosition, List.count_append]
  by_cases hc : c = '\n'
  · left
    simp [hc]
  · right
    rw [List.rtakeWhile_concat_pos _ _ _ (by simp [hc])]
    simp [hc]

/-- Further characters move the position on. -/
theorem charsPosition_take_lt (cs : List Char) {i j : Nat} (hij : i < j) (hj : j ≤ cs.length) :
    charsPosition (cs.take i) < charsPosition (cs.take j) := by
  induction j with
  | zero => omega
  | succ j ih =>
    have hnext : cs.take (j + 1) = cs.take j ++ [cs.get ⟨j, by omega⟩] := by
      rw [List.take_succ_eq_append_getElem (by omega)]
      rfl
    rw [hnext]
    rcases Nat.lt_or_ge i j with hlt | hge
    · exact (ih hlt (by omega)).trans (charsPosition_lt_concat _ _)
    · rw [show i = j by omega]
      exact charsPosition_lt_concat _ _

theorem positionAt_lt (text : String) {b b' : Nat}
    (h : wholeChars text.toList (min b (Utf8.encode text).length) <
      wholeChars text.toList (min b' (Utf8.encode text).length)) :
    positionAt (Utf8.encode text) b < positionAt (Utf8.encode text) b' := by
  rw [Utf8.encode, positionAt_encodeChars, positionAt_encodeChars]
  exact charsPosition_take_lt _ h (wholeChars_le _ _)

theorem positionAt_monotone (text : String) :
    Monotone fun b : Nat => positionAt (Utf8.encode text) b := by
  intro b b' hb
  have hwhole : wholeChars text.toList (min b (Utf8.encode text).length) ≤
      wholeChars text.toList (min b' (Utf8.encode text).length) := wholeChars_mono _ (by omega)
  rcases Nat.lt_or_eq_of_le hwhole with h | h
  · exact (positionAt_lt text h).le
  · apply le_of_eq
    simp only [Utf8.encode] at h ⊢
    rw [positionAt_encodeChars, positionAt_encodeChars, h]

/-! ## From the position back to the characters -/

/-- Number of characters up to the line end number `n`, which is counted too. -/
def skipLines : Nat → List Char → Nat
  | 0, _ => 0
  | _ + 1, [] => 0
  | n + 1, c :: cs => 1 + skipLines (if c = '\n' then n else n + 1) cs

theorem skipLines_newline (cs rest : List Char) :
    skipLines (cs.count '\n' + 1) (cs ++ '\n' :: rest) = cs.length + 1 := by
  induction cs with
  | nil => simp [skipLines]
  | cons c cs ih =>
    rw [List.cons_append, skipLines, List.length_cons]
    have hnext : (if c = '\n' then (c :: cs).count '\n' else (c :: cs).count '\n' + 1) =
        cs.count '\n' + 1 := by
      split
      · rename_i hc
        rw [hc, List.count_cons_self]
      · rename_i hc
        rw [List.count_cons_of_ne hc]
    rw [hnext, ih]
    omega

theorem skipLines_add_column (cs rest : List Char) :
    skipLines (cs.count '\n') (cs ++ rest) + (cs.rtakeWhile (· ≠ '\n')).length = cs.length := by
  induction cs using List.reverseRecOn generalizing rest with
  | nil => simp [skipLines]
  | append_singleton cs c ih =>
    rw [List.append_assoc, List.singleton_append, List.count_append, List.length_append]
    by_cases hc : c = '\n'
    · rw [List.rtakeWhile_concat_neg _ _ _ (by simp [hc]), hc]
      exact skipLines_newline cs rest
    · have hcount : [c].count '\n' = 0 := by simp [hc]
      have hrest := ih (c :: rest)
      rw [List.rtakeWhile_concat_pos _ _ _ (by simp [hc]), hcount, Nat.add_zero, List.length_append,
        List.length_singleton]
      omega

/-- The position of an offset into a text is that of the characters which lie whole
before it: its line counts the line ends among them, its column the characters after
the last of these. It never moves back, two offsets share it exactly when as many
characters lie before them, and skipping the lines before it and then its column gives
that number. -/
theorem positionAt_counts_whole_characters (text : String) :
    let whole := fun b : Nat => wholeChars text.toList (min b (Utf8.encode text).length)
    let position := fun b : Nat => positionAt (Utf8.encode text) b
    (∀ b, position b = ⟨1 + (text.toList.take (whole b)).count '\n',
      ((text.toList.take (whole b)).rtakeWhile (· ≠ '\n')).length⟩) ∧
    Monotone position ∧
    (∀ b b', position b = position b' ↔ whole b = whole b') ∧
    ∀ b, whole b = skipLines ((position b).line - 1) text.toList + (position b).column := by
  intro whole position
  have hposition : ∀ b, position b = charsPosition (text.toList.take (whole b)) :=
    positionAt_encodeChars text.toList
  have hle : ∀ b, whole b ≤ text.toList.length := fun b => wholeChars_le _ _
  refine ⟨hposition, positionAt_monotone text, ?_, ?_⟩
  · intro b b'
    refine ⟨fun he => ?_, fun he => by rw [hposition, hposition, he]⟩
    rcases Nat.lt_trichotomy (whole b) (whole b') with h | h | h
    · exact absurd he (positionAt_lt text h).ne
    · exact h
    · exact absurd he.symm (positionAt_lt text h).ne
  · intro b
    have hskip := skipLines_add_column (text.toList.take (whole b)) (text.toList.drop (whole b))
    rw [List.take_append_drop, List.length_take, Nat.min_eq_left (hle b)] at hskip
    rw [hposition, charsPosition, Nat.add_sub_cancel_left, hskip]

/-- The cut falls inside a character that starts a line. -/
example : positionAt (Utf8.encode "a\né") 3 = ⟨2, 0⟩ := by decide

end ClassOutline
