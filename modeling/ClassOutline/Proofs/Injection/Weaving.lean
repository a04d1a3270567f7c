import ClassOutline.Proofs.Injection.LocatedAfter

/-!
# Blocks at the offsets of the first text

Each of several insertions moves what the later ones aim at. Here they are all
told by the offsets of the text before the first one: `weave` puts their blocks
in, and `Site.moved` says where a located body is afterwards. The two lemmas
`weave_shift` and `Site.moved_shift` take the first insertion of a list out: the
others then aim at the text that it gives, `Insertion.shift`ed along with it.
-/

namespace ClassOutline

/-- A block of bytes and the offset it goes to. -/
abbrev Insertion := Nat × Bytes

def Insertion.shift (offset width : Nat) (x : Insertion) : Insertion :=
  (if offset ≤ x.1 then x.1 + width else x.1, x.2)

/-- The blocks for one offset, in their order. -/
def blocksAt (ins : List Insertion) (offset : Nat) : Bytes :=
  (ins.filter (·.1 = offset)).flatMap (·.2)

/-- The bytes from an offset on, each after the blocks for its place. -/
def weave (ins : List Insertion) : Nat → Bytes → Bytes
  | _, [] => []
  | i, b :: bs => blocksAt ins i ++ b :: weave ins (i + 1) bs

/-- The number of bytes that come in at the offsets of a kind. -/
def widthAt (ins : List Insertion) (p : Nat → Bool) : Nat :=
  ((ins.filter (p ·.1)).flatMap (·.2)).length

def BodySpan.moved (ins : List Insertion) (span : BodySpan) : BodySpan :=
  ⟨span.start + widthAt ins fun a => (a : Int) ≤ span.start,
    span.stop + widthAt ins fun a => (a : Int) < span.stop⟩

def Site.moved (ins : List Insertion) (x : Site) : Site :=
  { x with span? := x.span?.map (BodySpan.moved ins) }

/-! ## Bytes -/

section Weave

variable {ins ins' : List Insertion} {offset : Nat}

theorem blocksAt_cons (x : Insertion) (ins : List Insertion) (i : Nat) :
    blocksAt (x :: ins) i = (if x.1 = i then x.2 else []) ++ blocksAt ins i := by
  unfold blocksAt
  by_cases hx : x.1 = i
  · simp [hx]
  · simp [hx]

theorem blocksAt_shift {width i j : Nat}
    (h : ∀ a, (if offset ≤ a then a + width else a) = j ↔ a = i) :
    blocksAt (ins.map (Insertion.shift offset width)) j = blocksAt ins i := by
  unfold blocksAt
  rw [List.filter_map, List.flatMap_map]
  simp only [Function.comp_def, Insertion.shift, h]

theorem blocksAt_eq_nil {i : Nat} (h : ∀ x ∈ ins, x.1 ≠ i) : blocksAt ins i = [] := by
  have hnone : ins.filter (·.1 = i) = [] := by
    apply List.filter_eq_nil_iff.mpr
    intro x hx
    simpa using h x hx
  rw [blocksAt, hnone, List.flatMap_nil]

theorem weave_append (ins : List Insertion) (i : Nat) (bs bs' : Bytes) :
    weave ins i (bs ++ bs') = weave ins i bs ++ weave ins (i + bs.length) bs' := by
  induction bs generalizing i with
  | nil => rfl
  | cons b bs ih =>
    rw [List.cons_append, weave, weave, ih, List.length_cons, Nat.add_right_comm, ← Nat.add_assoc]
    simp

/-- Only the blocks for the places of the bytes matter. -/
theorem weave_congr {i i' : Nat} (bs : Bytes)
    (h : ∀ j < bs.length, blocksAt ins' (i' + j) = blocksAt ins (i + j)) :
    weave ins' i' bs = weave ins i bs := by
  induction bs generalizing i i' with
  | nil => rfl
  | cons b bs ih =>
    have hfirst := h 0 (by simp)
    rw [Nat.add_zero, Nat.add_zero] at hfirst
    have hrest : ∀ j < bs.length, blocksAt ins' (i' + 1 + j) = blocksAt ins (i + 1 + j) := by
      intro j hj
      rw [Nat.add_right_comm, Nat.add_right_comm i]
      exact h (j + 1) (by simpa using hj)
    rw [weave, weave, hfirst, ih hrest]

theorem weave_eq_self {i : Nat} (bs : Bytes) (h : ∀ j < bs.length, blocksAt ins (i + j) = []) :
    weave ins i bs = bs := by
  have hempty : ∀ i (bs : Bytes), weave [] i bs = bs := by
    intro i bs
    induction bs generalizing i with
    | nil => rfl
    | cons b bs ih =>
      rw [weave, ih]
      rfl
  have hnone : weave ins i bs = weave [] i bs := weave_congr bs h
  rw [hnone, hempty]

/-- Putting in the first block and then the others, which have moved. -/
theorem weave_shift (ins : List Insertion) {bytes : Bytes} (block : Bytes)
    (h : offset < bytes.length) :
    weave (ins.map (Insertion.shift offset block.length)) 0
        (bytes.take offset ++ block ++ bytes.drop offset) =
      weave ((offset, block) :: ins) 0 bytes := by
  have hbefore : ∀ i < offset,
      blocksAt (ins.map (Insertion.shift offset block.length)) i = blocksAt ins i := by
    intro i hi
    refine blocksAt_shift fun a => ?_
    split <;> omega
  have hinside : ∀ j < block.length,
      blocksAt (ins.map (Insertion.shift offset block.length)) (offset + j) = [] := by
    intro j hj
    refine blocksAt_eq_nil fun x hx => ?_
    obtain ⟨y, _, rfl⟩ := List.mem_map.mp hx
    unfold Insertion.shift
    split <;> omega
  have hafter : ∀ i, offset ≤ i →
      blocksAt (ins.map (Insertion.shift offset block.length))
        (offset + block.length + (i - offset)) = blocksAt ins i := by
    intro i hi
    refine blocksAt_shift fun a => ?_
    split <;> omega
  generalize ins.map (Insertion.shift offset block.length) = ins' at hbefore hinside hafter
  have hlen : (bytes.take offset).length = offset := by
    rw [List.length_take]
    omega
  have hfront : weave ins' 0 (bytes.take offset) =
      weave ((offset, block) :: ins) 0 (bytes.take offset) := by
    refine weave_congr _ fun j hj => ?_
    rw [blocksAt_cons, if_neg (by simp only; omega), List.nil_append, hbefore _ (by omega)]
  -- The byte at the offset has the new block and then the others before it.
  obtain ⟨b, rest, hdrop⟩ : ∃ b rest, bytes.drop offset = b :: rest :=
    ⟨_, _, List.drop_eq_getElem_cons h⟩
  have hrest : weave ins' (offset + block.length + 1) rest =
      weave ((offset, block) :: ins) (offset + 1) rest := by
    refine weave_congr _ fun j _ => ?_
    have hj := hafter (offset + 1 + j) (by omega)
    rw [show offset + block.length + (offset + 1 + j - offset) =
      offset + block.length + 1 + j by omega] at hj
    rw [blocksAt_cons, if_neg (by simp only; omega), List.nil_append, hj]
  have hhere := hafter offset (Nat.le_refl _)
  rw [Nat.sub_self, Nat.add_zero] at hhere
  calc weave ins' 0 (bytes.take offset ++ block ++ bytes.drop offset)
      = weave ((offset, block) :: ins) 0 (bytes.take offset) ++ block ++
          (blocksAt ins offset ++ b :: weave ((offset, block) :: ins) (offset + 1) rest) := by
        rw [weave_append, weave_append, hfront, List.length_append, hlen, Nat.zero_add,
          Nat.zero_add, weave_eq_self block hinside, hdrop, weave, hhere, hrest]
    _ = weave ((offset, block) :: ins) 0 (bytes.take offset) ++
          weave ((offset, block) :: ins) offset (b :: rest) := by
        rw [weave, blocksAt_cons, if_pos rfl, List.append_assoc, List.append_assoc]
    _ = weave ((offset, block) :: ins) 0 bytes := by
        have happend := weave_append ((offset, block) :: ins) 0 (bytes.take offset)
          (bytes.drop offset)
        rw [List.take_append_drop, hlen, Nat.zero_add, hdrop] at happend
        exact happend.symm

end Weave

/-! ## Spans -/

theorem widthAt_cons (x : Insertion) (ins : List Insertion) (p : Nat → Bool) :
    widthAt (x :: ins) p = (if p x.1 then x.2.length else 0) + widthAt ins p := by
  unfold widthAt
  cases hx : p x.1 <;> simp [hx]

theorem widthAt_shift {ins : List Insertion} {offset width : Nat} {p q : Nat → Bool}
    (h : ∀ a, q (if offset ≤ a then a + width else a) = p a) :
    widthAt (ins.map (Insertion.shift offset width)) q = widthAt ins p := by
  unfold widthAt
  rw [List.filter_map, List.flatMap_map]
  simp only [Function.comp_def, Insertion.shift, h]

theorem BodySpan.moved_shift (ins : List Insertion) (offset : Nat) (block : Bytes)
    (span : BodySpan) :
    (span.shift offset block.length).moved (ins.map (Insertion.shift offset block.length)) =
      span.moved ((offset, block) :: ins) := by
  unfold moved
  rw [widthAt_cons, widthAt_cons]
  have hstart : widthAt (ins.map (Insertion.shift offset block.length))
      (fun a => (a : Int) ≤ (span.shift offset block.length).start) =
        widthAt ins fun a => (a : Int) ≤ span.start := by
    refine widthAt_shift fun a => decide_eq_decide.mpr ?_
    unfold shift
    simp only
    split <;> split <;> omega
  have hstop : widthAt (ins.map (Insertion.shift offset block.length))
      (fun a => (a : Int) < (span.shift offset block.length).stop) =
        widthAt ins fun a => (a : Int) < span.stop := by
    refine widthAt_shift fun a => decide_eq_decide.mpr ?_
    unfold shift
    simp only
    split <;> split <;> omega
  rw [hstart, hstop]
  unfold shift
  simp only [decide_eq_true_eq, BodySpan.mk.injEq]
  constructor <;> split <;> omega

theorem Site.moved_shift (ins : List Insertion) (offset : Nat) (block : Bytes) (x : Site) :
    (x.shift offset block.length).moved (ins.map (Insertion.shift offset block.length)) =
      x.moved ((offset, block) :: ins) := by
  cases x with
  | mk a k span? =>
    cases span? with
    | none => rfl
    | some span =>
      unfold moved shift
      simp only [Option.map_some, BodySpan.moved_shift]

theorem Site.moved_nil (x : Site) : x.moved [] = x := by
  cases x with
  | mk a k span? =>
    cases span? with
    | none => rfl
    | some span =>
      unfold moved BodySpan.moved
      simp [widthAt]

end ClassOutline
