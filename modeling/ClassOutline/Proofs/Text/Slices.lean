import ClassOutline.Proofs.Syntax.Address
import ClassOutline.Proofs.Text.Positions
import ClassOutline.Source

/-!
# The text of a byte range, told in characters

A range may start and end inside a character. What it shows of each character depends
on that character alone: one replacement for every byte of it if the range starts
inside, the character itself if it lies in the range, one replacement if the range ends
inside, and nothing else (`decodeLossy_slice`). At most one character is cut at either
end, so the text is a broken start, whole characters and a broken end, in this order.
-/

namespace ClassOutline

namespace Utf8

structure CharAt where
  start : Nat
  char : Char
  deriving DecidableEq, Repr

def CharAt.stop (x : CharAt) : Nat :=
  x.start + (encodeChar x.char).length

/-- The characters of a text, the first of which is at offset `o`. -/
def charsAt : Nat → List Char → List CharAt
  | _, [] => []
  | o, c :: cs => ⟨o, c⟩ :: charsAt (o + (encodeChar c).length) cs

/-- The character that a cut at offset `k` falls inside. -/
def cutChar? (xs : List CharAt) (k : Nat) : Option CharAt :=
  xs.find? fun x => x.start < k ∧ k < x.stop

/-- One replacement for every byte in the range of the character that its start cuts. -/
def brokenStart (start stop : Nat) (xs : List CharAt) : List Char :=
  (cutChar? xs start).elim [] fun x => List.replicate (min stop x.stop - start) replacement

/-- The characters that lie in the range with all their bytes. -/
def wholeInside (start stop : Nat) (xs : List CharAt) : List Char :=
  (xs.filter fun x => start ≤ x.start ∧ x.stop ≤ stop).map (·.char)

/-- One replacement if the range ends inside a character whose first byte it has. -/
def brokenEnd (start stop : Nat) (xs : List CharAt) : List Char :=
  (cutChar? xs stop).elim [] fun x => if start ≤ x.start then [replacement] else []

/-- What a range shows of one character. -/
def CharAt.shown (start stop : Nat) (x : CharAt) : List Char :=
  if x.start < start then List.replicate (min stop x.stop - start) replacement
  else if x.stop ≤ stop then [x.char]
  else if x.start < stop then [replacement]
  else []

/-! ## Where the characters stand -/

theorem CharAt.start_lt_stop (x : CharAt) : x.start < x.stop := by
  have hpos := Utf8.length_encodeChar_pos x.char
  unfold stop
  omega

theorem CharAt.cases_range (start stop : Nat) (x : CharAt) :
    x.start < start ∨ (start ≤ x.start ∧ x.stop ≤ stop) ∨
      (start ≤ x.start ∧ x.start < stop ∧ stop < x.stop) ∨ (start ≤ x.start ∧ stop ≤ x.start) := by
  omega

section Shown

variable {start stop : Nat} {x : CharAt}

theorem CharAt.shown_of_behind (h : x.start < start) :
    x.shown start stop = List.replicate (min stop x.stop - start) replacement :=
  if_pos h

theorem CharAt.shown_of_whole (h : start ≤ x.start) (hwhole : x.stop ≤ stop) :
    x.shown start stop = [x.char] := by
  rw [shown, if_neg (by omega), if_pos hwhole]

theorem CharAt.shown_of_cut (h : start ≤ x.start) (hcut : x.start < stop ∧ stop < x.stop) :
    x.shown start stop = [replacement] := by
  rw [shown, if_neg (by omega), if_neg (by omega), if_pos hcut.1]

theorem CharAt.shown_of_after (h : start ≤ x.start) (hafter : stop ≤ x.start) :
    x.shown start stop = [] := by
  have hlt := x.start_lt_stop
  rw [shown, if_neg (by omega), if_neg (by omega), if_neg (by omega)]

end Shown

theorem charsAt_cons (o : Nat) (c : Char) (cs : List Char) :
    charsAt o (c :: cs) = ⟨o, c⟩ :: charsAt (CharAt.stop ⟨o, c⟩) cs :=
  rfl

theorem charsAt_append (o : Nat) (cs cs' : List Char) :
    charsAt o (cs ++ cs') = charsAt o cs ++ charsAt (o + (encodeChars cs).length) cs' := by
  induction cs generalizing o with
  | nil => rfl
  | cons c cs ih =>
    rw [List.cons_append, charsAt_cons, ih, charsAt_cons, length_encodeChars_cons, CharAt.stop,
      Nat.add_assoc]
    rfl

theorem bounds_of_mem_charsAt {o : Nat} {cs : List Char} {x : CharAt} (h : x ∈ charsAt o cs) :
    o ≤ x.start ∧ x.stop ≤ o + (encodeChars cs).length := by
  induction cs generalizing o with
  | nil => cases h
  | cons c cs ih =>
    have hlen := length_encodeChars_cons c cs
    rcases List.mem_cons.mp h with rfl | h
    · exact ⟨Nat.le_refl _, by simp only [CharAt.stop]; omega⟩
    · have hbounds := ih h
      omega

/-! ## What the decoder makes of the bytes in a range -/

theorem mem_continuation_lt {v r : Nat} {b : UInt8} (h : b ∈ continuation v r) :
    b.toNat < 0xC0 := by
  induction r with
  | zero => cases h
  | succ r ih =>
    rcases List.mem_cons.mp h with rfl | h
    · rw [toNat_continuation]
      omega
    · exact ih h

/-- Continuation bytes outside any sequence are replaced one by one. -/
theorem decodeLossy_continuations {bs : Bytes}
    (h : ∀ b ∈ bs, 0x80 ≤ b.toNat ∧ b.toNat < 0xC0) (rest : Bytes) :
    decodeLossy (bs ++ rest) = List.replicate bs.length replacement ++ decodeLossy rest := by
  induction bs with
  | nil => rfl
  | cons b bs ih =>
    obtain ⟨hlow, hhigh⟩ := h b (List.mem_cons_self ..)
    have hstart : start b = ([.ill [b] .badStart], none) := by
      rw [start, if_neg (by omega), if_pos (by omega)]
    have hpieces : pieces (b :: (bs ++ rest)) = .ill [b] .badStart :: pieces (bs ++ rest) := by
      rw [pieces, piecesFrom, step, hstart]
      rfl
    have hrest := ih fun x hx => h x (List.mem_cons_of_mem _ hx)
    rw [List.cons_append, decodeLossy, hpieces, List.map_cons, List.length_cons,
      List.replicate_succ, List.cons_append, ← hrest]
    rfl

theorem decodeLossy_encodeChar (c : Char) (rest : Bytes) :
    decodeLossy (encodeChar c ++ rest) = c :: decodeLossy rest := by
  have hpieces := pieces_encodeChars_append [c] rest
  rw [encodeChars, List.flatMap_singleton] at hpieces
  rw [decodeLossy, hpieces]
  rfl

/-- A character that lacks its last bytes at the end of the input is replaced as a whole. -/
theorem decodeLossy_take_encodeChar {c : Char} {j : Nat} (h0 : 0 < j)
    (hj : j < (encodeChar c).length) : decodeLossy ((encodeChar c).take j) = [replacement] := by
  obtain ⟨p, hfeed, _⟩ := feed_take_encodeChar h0 hj
  have hpieces := piecesFrom_append none ((encodeChar c).take j) []
  rw [List.append_nil, hfeed] at hpieces
  rw [decodeLossy, pieces, hpieces]
  rfl

theorem continuation_of_mem_drop {c : Char} {i : Nat} (h0 : 0 < i) {b : UInt8}
    (hb : b ∈ (encodeChar c).drop i) : 0x80 ≤ b.toNat ∧ b.toNat < 0xC0 := by
  obtain ⟨k, rfl⟩ : ∃ k, i = k + 1 := ⟨i - 1, by omega⟩
  by_cases hc : c.toNat < 0x80
  · rw [encodeChar_of_lt hc, List.drop_succ_cons, List.drop_nil] at hb
    cases hb
  · obtain ⟨_, r, he, _⟩ := exists_opens (c := c) (by omega)
    rw [he, List.drop_succ_cons] at hb
    have hmem := List.mem_of_mem_drop hb
    exact ⟨continuation_ge hmem, mem_continuation_lt hmem⟩

theorem slice_append (bs bs' : Bytes) (i j : Nat) :
    Bytes.slice (bs ++ bs') i j =
      Bytes.slice bs i j ++ Bytes.slice bs' (i - bs.length) (j - bs.length) := by
  unfold Bytes.slice
  rw [List.take_append, List.drop_append, List.length_take]
  by_cases hj : bs.length ≤ j
  · rw [Nat.min_eq_right hj]
  · rw [show j - bs.length = 0 by omega, List.take_zero, List.drop_nil, List.drop_nil]

/-- The bytes of one character at the front of a text, then those behind it. -/
theorem decodeLossy_slice_append (start stop : Nat) (x : CharAt) (bs : Bytes) :
    decodeLossy (Bytes.slice (encodeChar x.char ++ bs) (start - x.start) (stop - x.start)) =
      x.shown start stop ++ decodeLossy (Bytes.slice bs (start - x.stop) (stop - x.stop)) := by
  have hstop : x.stop = x.start + (encodeChar x.char).length := rfl
  rw [slice_append, Nat.sub_sub, Nat.sub_sub, ← hstop]
  rcases x.cases_range start stop with h | ⟨h, hwhole⟩ | ⟨h, hcut⟩ | ⟨h, hafter⟩
  · have hmem : ∀ b ∈ Bytes.slice (encodeChar x.char) (start - x.start) (stop - x.start),
        0x80 ≤ b.toNat ∧ b.toNat < 0xC0 := by
      intro b hb
      rw [Bytes.slice, List.drop_take] at hb
      exact continuation_of_mem_drop (by omega) (List.mem_of_mem_take hb)
    have hlen : (Bytes.slice (encodeChar x.char) (start - x.start) (stop - x.start)).length =
        min stop x.stop - start := by
      rw [Bytes.slice, List.length_drop, List.length_take]
      omega
    rw [decodeLossy_continuations hmem, hlen, CharAt.shown_of_behind h]
  · rw [CharAt.shown_of_whole h hwhole, Nat.sub_eq_zero_of_le h, Bytes.slice, List.drop_zero,
      List.take_of_length_le (by omega), decodeLossy_encodeChar]
    rfl
  · -- The range ends before the last byte, so nothing is left of what follows.
    rw [CharAt.shown_of_cut h hcut, Nat.sub_eq_zero_of_le h,
      Bytes.slice_eq_nil bs (by omega), List.append_nil, Bytes.slice, List.drop_zero,
      decodeLossy_take_encodeChar (by omega) (by omega)]
    rfl
  · rw [CharAt.shown_of_after h hafter, Bytes.slice_eq_nil (encodeChar x.char) (by omega)]
    rfl

/-- A range shows of every character what that character alone determines. -/
theorem decodeLossy_slice (start stop o : Nat) (cs : List Char) :
    decodeLossy (Bytes.slice (encodeChars cs) (start - o) (stop - o)) =
      (charsAt o cs).flatMap (CharAt.shown start stop) := by
  induction cs generalizing o with
  | nil =>
    rw [encodeChars, List.flatMap_nil, Bytes.slice, List.take_nil, List.drop_nil]
    rfl
  | cons c cs ih =>
    rw [charsAt_cons, List.flatMap_cons, ← ih]
    exact decodeLossy_slice_append start stop ⟨o, c⟩ (encodeChars cs)

/-! ## At most one character is cut at either end -/

theorem cutChar?_charsAt_eq_none {k o : Nat} (h : k ≤ o) (cs : List Char) :
    cutChar? (charsAt o cs) k = none := by
  rw [cutChar?, List.find?_eq_none]
  intro x hx
  have hbounds := bounds_of_mem_charsAt hx
  simp only [decide_eq_true_eq]
  omega

theorem wholeInside_charsAt_eq_nil {stop o : Nat} (start : Nat) (h : stop ≤ o) (cs : List Char) :
    wholeInside start stop (charsAt o cs) = [] := by
  rw [wholeInside, List.map_eq_nil_iff, List.filter_eq_nil_iff]
  intro x hx
  have hbounds := bounds_of_mem_charsAt hx
  have hlt := x.start_lt_stop
  simp only [decide_eq_true_eq]
  omega

theorem cutChar?_cons_of_not {x : CharAt} {k : Nat} (h : ¬ (x.start < k ∧ k < x.stop))
    (xs : List CharAt) : cutChar? (x :: xs) k = cutChar? xs k := by
  rw [cutChar?, List.find?_cons_of_neg (by simpa using h)]
  rfl

theorem cutChar?_cons_of_cut {x : CharAt} {k : Nat} (h : x.start < k ∧ k < x.stop)
    (xs : List CharAt) : cutChar? (x :: xs) k = some x := by
  rw [cutChar?, List.find?_cons_of_pos (by simpa using h)]

theorem wholeInside_cons_of_not {start stop : Nat} {x : CharAt}
    (h : ¬ (start ≤ x.start ∧ x.stop ≤ stop)) (xs : List CharAt) :
    wholeInside start stop (x :: xs) = wholeInside start stop xs := by
  rw [wholeInside, List.filter_cons_of_neg (by simpa using h)]
  rfl

theorem wholeInside_cons_of_whole {start stop : Nat} {x : CharAt}
    (h : start ≤ x.start ∧ x.stop ≤ stop) (xs : List CharAt) :
    wholeInside start stop (x :: xs) = x.char :: wholeInside start stop xs := by
  rw [wholeInside, List.filter_cons_of_pos (by simpa using h)]
  rfl

/-- What a character that starts before the range adds to each part. -/
theorem parts_of_behind {start : Nat} {x : CharAt} (h : x.start < start) (stop : Nat)
    (cs : List Char) :
    brokenStart start stop (x :: charsAt x.stop cs) =
      x.shown start stop ++ brokenStart start stop (charsAt x.stop cs) ∧
    wholeInside start stop (x :: charsAt x.stop cs) =
      wholeInside start stop (charsAt x.stop cs) ∧
    brokenEnd start stop (x :: charsAt x.stop cs) = brokenEnd start stop (charsAt x.stop cs) := by
  refine ⟨?_, wholeInside_cons_of_not (by omega) _, ?_⟩
  · rw [CharAt.shown_of_behind h]
    by_cases hcut : x.start < start ∧ start < x.stop
    · rw [brokenStart, brokenStart, cutChar?_cons_of_cut hcut,
        cutChar?_charsAt_eq_none (by omega) cs]
      exact (List.append_nil _).symm
    · rw [brokenStart, cutChar?_cons_of_not hcut, show min stop x.stop - start = 0 by omega]
      rfl
  · by_cases hcut : x.start < stop ∧ stop < x.stop
    · rw [brokenEnd, brokenEnd, cutChar?_cons_of_cut hcut, cutChar?_charsAt_eq_none (by omega) cs]
      exact if_neg (by omega)
    · rw [brokenEnd, brokenEnd, cutChar?_cons_of_not hcut]

/-- Character by character, a range shows its broken start, its whole characters and
its broken end. -/
theorem flatMap_shown (start stop o : Nat) (cs : List Char) :
    (charsAt o cs).flatMap (CharAt.shown start stop) =
      brokenStart start stop (charsAt o cs) ++ wholeInside start stop (charsAt o cs) ++
        brokenEnd start stop (charsAt o cs) := by
  induction cs generalizing o with
  | nil => rfl
  | cons c cs ih =>
    rw [charsAt_cons, List.flatMap_cons, ih]
    generalize CharAt.mk o c = x
    have hlt := x.start_lt_stop
    -- Behind the first byte of the range no character is cut by its start.
    have hnone : start ≤ x.start →
        brokenStart start stop (x :: charsAt x.stop cs) = [] ∧
        brokenStart start stop (charsAt x.stop cs) = [] := by
      intro h
      rw [brokenStart, brokenStart, cutChar?_cons_of_not (by omega),
        cutChar?_charsAt_eq_none (by omega) cs]
      exact ⟨rfl, rfl⟩
    rcases x.cases_range start stop with h | ⟨h, hwhole⟩ | ⟨h, hcut⟩ | ⟨h, hafter⟩
    · obtain ⟨hstart, hinside, hend⟩ := parts_of_behind h stop cs
      rw [hstart, hinside, hend]
      simp only [List.append_assoc]
    · rw [(hnone h).1, (hnone h).2, CharAt.shown_of_whole h hwhole,
        wholeInside_cons_of_whole ⟨h, hwhole⟩, brokenEnd, brokenEnd,
        cutChar?_cons_of_not (by omega)]
      rfl
    · rw [(hnone h).1, (hnone h).2, CharAt.shown_of_cut h hcut, wholeInside_cons_of_not (by omega),
        wholeInside_charsAt_eq_nil start (by omega), brokenEnd, brokenEnd,
        cutChar?_cons_of_cut hcut, cutChar?_charsAt_eq_none (by omega) cs]
      exact (if_pos h).symm
    · rw [(hnone h).1, (hnone h).2, CharAt.shown_of_after h hafter,
        wholeInside_cons_of_not (by omega), brokenEnd, brokenEnd, cutChar?_cons_of_not (by omega)]
      rfl

/-! ## Ranges that meet between two characters -/

theorem CharAt.shown_of_stop_le {start : Nat} {x : CharAt} (h : x.stop ≤ start) (stop : Nat) :
    x.shown start stop = [] := by
  have hlt := x.start_lt_stop
  rw [shown_of_behind (by omega), show min stop x.stop - start = 0 by omega, List.replicate_zero]

theorem CharAt.shown_of_le_start {stop : Nat} {x : CharAt} (h : stop ≤ x.start) (start : Nat) :
    x.shown start stop = [] := by
  by_cases hbehind : x.start < start
  · rw [shown_of_behind hbehind, show min stop x.stop - start = 0 by omega, List.replicate_zero]
  · exact shown_of_after (by omega) h

theorem CharAt.shown_congr_stop {mid stop : Nat} {x : CharAt} (h : x.stop ≤ mid)
    (hstop : x.stop ≤ stop) (start : Nat) : x.shown start stop = x.shown start mid := by
  unfold shown
  rw [Nat.min_eq_right h, Nat.min_eq_right hstop, if_pos h, if_pos hstop]

theorem CharAt.shown_congr_start {start mid : Nat} {x : CharAt} (h : mid ≤ x.start)
    (hstart : start ≤ x.start) (stop : Nat) : x.shown start stop = x.shown mid stop := by
  have hbehind : ∀ i, i ≤ x.start → ¬ x.start < i := fun i hi => by omega
  rw [shown, shown, if_neg (hbehind start hstart), if_neg (hbehind mid h)]

/-- A range that is parted between two characters shows what its parts show. -/
theorem decodeLossy_slice_parted {cs : List Char} {start mid stop : Nat} (h : IsBoundary cs mid)
    (hstart : start ≤ mid) (hstop : mid ≤ stop) :
    decodeLossy (Bytes.slice (encodeChars cs) start stop) =
      decodeLossy (Bytes.slice (encodeChars cs) start mid) ++
        decodeLossy (Bytes.slice (encodeChars cs) mid stop) := by
  obtain ⟨before, after, rfl, hmid⟩ := h
  have hshown : ∀ i j, decodeLossy (Bytes.slice (encodeChars (before ++ after)) i j) =
      (charsAt 0 before).flatMap (CharAt.shown i j) ++
        (charsAt mid after).flatMap (CharAt.shown i j) := by
    intro i j
    have hall := decodeLossy_slice i j 0 (before ++ after)
    rwa [charsAt_append, Nat.zero_add, hmid, List.flatMap_append] at hall
  have hbefore : ∀ x ∈ charsAt 0 before, x.stop ≤ mid := by
    intro x hx
    have hbounds := bounds_of_mem_charsAt hx
    omega
  have hafter : ∀ x ∈ charsAt mid after, mid ≤ x.start :=
    fun x hx => (bounds_of_mem_charsAt hx).1
  have hleft : (charsAt 0 before).flatMap (CharAt.shown start stop) =
      (charsAt 0 before).flatMap (CharAt.shown start mid) :=
    List.flatMap_congr fun x hx =>
      CharAt.shown_congr_stop (hbefore x hx) ((hbefore x hx).trans hstop) start
  have hright : (charsAt mid after).flatMap (CharAt.shown start stop) =
      (charsAt mid after).flatMap (CharAt.shown mid stop) :=
    List.flatMap_congr fun x hx =>
      CharAt.shown_congr_start (hafter x hx) (hstart.trans (hafter x hx)) stop
  have hnoleft : (charsAt 0 before).flatMap (CharAt.shown mid stop) = [] :=
    List.flatMap_eq_nil_iff.mpr fun x hx => CharAt.shown_of_stop_le (hbefore x hx) stop
  have hnoright : (charsAt mid after).flatMap (CharAt.shown start mid) = [] :=
    List.flatMap_eq_nil_iff.mpr fun x hx => CharAt.shown_of_le_start (hafter x hx) start
  rw [hshown, hshown, hshown, hleft, hright, hnoleft, hnoright, List.append_nil, List.nil_append]

theorem decodeLossy_encodeChars (cs : List Char) : decodeLossy (encodeChars cs) = cs := by
  have hpieces := pieces_encodeChars_append cs []
  rw [List.append_nil] at hpieces
  rw [decodeLossy, hpieces, List.map_append, List.map_map]
  exact (List.append_nil _).trans (List.map_id cs)

theorem slice_encodeChars (before inside after : List Char) :
    Bytes.slice (encodeChars (before ++ inside ++ after)) (encodeChars before).length
      (encodeChars (before ++ inside)).length = encodeChars inside := by
  rw [Bytes.slice, encodeChars_append (before ++ inside), List.take_left, encodeChars_append,
    List.drop_left]

end Utf8

/-- Offsets past the end are cut to the end. -/
theorem Bytes.slice_min (bs : Bytes) (start stop : Nat) :
    slice bs (min start bs.length) (min stop bs.length) = slice bs start stop := by
  have htake : bs.take (min stop bs.length) = bs.take stop := by
    rw [List.take_eq_take_iff]
    omega
  rw [slice, slice, htake]
  by_cases hstart : start ≤ bs.length
  · rw [Nat.min_eq_left hstart]
  · rw [List.drop_eq_nil_of_le (by rw [List.length_take]; omega),
      List.drop_eq_nil_of_le (by rw [List.length_take]; omega)]

/-- The text of a range that is parted between two characters, or past the end. -/
theorem Bytes.textOf_parted {text : String} {start mid stop : Nat}
    (h : Utf8.IsBoundary text.toList (min mid (Utf8.encode text).length)) (hstart : start ≤ mid)
    (hstop : mid ≤ stop) :
    textOf (Utf8.encode text) start stop =
      textOf (Utf8.encode text) start mid ++ textOf (Utf8.encode text) mid stop := by
  have hcut : ∀ {i j : Nat}, i ≤ j →
      min i (Utf8.encode text).length ≤ min j (Utf8.encode text).length := by
    intro i j hij
    omega
  have hparted := Utf8.decodeLossy_slice_parted h (hcut hstart) (hcut hstop)
  have hbytes : Utf8.encodeChars text.toList = Utf8.encode text := rfl
  rw [hbytes, slice_min, slice_min, slice_min] at hparted
  rw [textOf, hparted, String.ofList_append]
  rfl

open Utf8 (charsAt brokenStart wholeInside brokenEnd)

/-- The text of a node of any range: a replacement for every byte in the range of the
character that its start cuts, the characters that lie in it, and one replacement if it
ends inside a character that starts in it. Offsets past the end are cut to the end, and
an empty range has the empty text. A range between characters has just the text there,
and one that is parted between two characters has the texts of its parts. -/
theorem Source.textOf_in_characters (root : Node) (text : String) (origin : Option String) :
    let s : Source := ⟨root, Utf8.encode text, origin⟩
    let xs := charsAt 0 text.toList
    (∀ n : Node, s.textOf n = String.ofList (brokenStart n.label.start n.label.stop xs ++
      wholeInside n.label.start n.label.stop xs ++ brokenEnd n.label.start n.label.stop xs)) ∧
    (∀ n n' : Node, n'.label.start = min n.label.start s.bytes.length →
      n'.label.stop = min n.label.stop s.bytes.length → s.textOf n' = s.textOf n) ∧
    (∀ n : Node, n.label.stop ≤ n.label.start → s.textOf n = "") ∧
    (∀ (n : Node) before inside after, text = before ++ inside ++ after →
      n.label.start = (Utf8.encode before).length →
      n.label.stop = (Utf8.encode (before ++ inside)).length → s.textOf n = inside) ∧
    ∀ n left right : Node, left.label.start = n.label.start →
      left.label.stop = right.label.start → right.label.stop = n.label.stop →
      n.label.start ≤ right.label.start → right.label.start ≤ n.label.stop →
      Utf8.IsBoundary text.toList (min right.label.start s.bytes.length) →
      s.textOf n = s.textOf left ++ s.textOf right := by
  intro s xs
  refine ⟨?_, ?_, ?_, ?_, ?_⟩
  · intro n
    have hshown := Utf8.decodeLossy_slice n.label.start n.label.stop 0 text.toList
    rw [Utf8.flatMap_shown] at hshown
    exact congrArg String.ofList hshown
  · intro n n' hstart hstop
    rw [textOf, textOf, Bytes.textOf, hstart, hstop, Bytes.slice_min]
    rfl
  · intro n hempty
    rw [textOf, Bytes.textOf, Bytes.slice_eq_nil _ hempty]
    rfl
  · intro n before inside after htext hstart hstop
    have hslice := Utf8.slice_encodeChars before.toList inside.toList after.toList
    rw [← String.toList_append, ← String.toList_append, ← htext] at hslice
    have hbytes : s.bytes.slice n.label.start n.label.stop = Utf8.encodeChars inside.toList := by
      rw [hstart, hstop]
      exact hslice
    rw [textOf, Bytes.textOf, hbytes, Utf8.decodeLossy_encodeChars, String.ofList_toList]
  · intro n left right hleft hmid hright hstart hstop hboundary
    have hparted := Bytes.textOf_parted hboundary hstart hstop
    rw [textOf, textOf, textOf, hleft, hmid, hright]
    exact hparted

/-- In a text of two, three and four bytes, a range cuts the first character and the
last; another one lies inside the last. -/
theorem Source.textOf_cut_at_both_ends :
    let s : Source := ⟨.token "" 0, Utf8.encode "é€𝄞", none⟩
    s.textOf (.plain "identifier" 1 7 none []) = "\uFFFD€\uFFFD" ∧
    s.textOf (.plain "identifier" 6 8 none []) = "\uFFFD\uFFFD" ∧
    s.textOf (.plain "identifier" 2 5 none []) = "€" ∧
    s.textOf (.plain "identifier" 1 7 none []) =
      s.textOf (.plain "identifier" 1 5 none []) ++
        s.textOf (.plain "identifier" 5 7 none []) := by
  intro s
  obtain ⟨hall, _, _, hbetween, hparted⟩ := textOf_in_characters (.token "" 0) "é€𝄞" none
  refine ⟨?_, ?_, ?_, ?_⟩
  · rw [hall]
    decide +kernel
  · rw [hall]
    decide +kernel
  · exact hbetween _ "é" "€" "𝄞" rfl rfl rfl
  · exact hparted _ _ _ rfl rfl rfl (by decide) (by decide)
      ⟨['é', '€'], ['𝄞'], rfl, by decide⟩

end ClassOutline
