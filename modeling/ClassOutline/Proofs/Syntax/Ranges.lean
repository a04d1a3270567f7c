import ClassOutline.Proofs.Syntax.Address
import ClassOutline.Text.Utf8

/-!
# Byte ranges in a tree

A tree is well formed over its source when ranges nest like the nodes, siblings
follow each other without overlap, and a brace token that is in the text is
exactly that byte of it. Nothing is asked of the ranges themselves; an empty or
a reversed one can only be that of a node without braces below it.
-/

namespace ClassOutline

namespace Node

def braceByte? (kind : String) : Option UInt8 :=
  if kind = "\x7b" then some 0x7B else if kind = "\x7d" then some 0x7D else none

/-- A tree over the bytes of its source, as a parser is taken to build it. -/
structure WellFormed (bytes : Bytes) (root : Node) : Prop where
  inside : ∀ n ∈ root.preorder, ∀ c ∈ n.children,
    n.label.start ≤ c.label.start ∧ c.label.stop ≤ n.label.stop
  ordered : ∀ n ∈ root.preorder, n.children.Pairwise fun a b => a.label.stop ≤ b.label.start
  braces : ∀ n ∈ root.preorder, n.label.missing = false → ∀ byte ∈ braceByte? n.kind,
    n.label.stop = n.label.start + 1 ∧ bytes[n.label.start]? = some byte

section WellFormed

variable {bytes : Bytes} {root : Node}

theorem WellFormed.below (h : root.WellFormed bytes) {n : Node} (hn : n ∈ root.preorder) :
    n.WellFormed bytes where
  inside m hm := h.inside m (mem_preorder_trans hm hn)
  ordered m hm := h.ordered m (mem_preorder_trans hm hn)
  braces m hm := h.braces m (mem_preorder_trans hm hn)

theorem WellFormed.child (h : root.WellFormed bytes) {i : Nat} {c : Node}
    (hc : root.children[i]? = some c) : c.WellFormed bytes :=
  h.below (mem_preorder_of_mem_children (List.mem_of_getElem? hc) c.mem_preorder_self)

theorem WellFormed.at? (h : root.WellFormed bytes) {a : Address} {n : Node}
    (hn : root.at? a = some n) : n.WellFormed bytes :=
  h.below (mem_preorder_of_at? hn)

/-- Whatever is below a node lies in its range. -/
theorem WellFormed.range (h : root.WellFormed bytes) {a : Address} {n : Node}
    (hn : root.at? a = some n) :
    root.label.start ≤ n.label.start ∧ n.label.stop ≤ root.label.stop := by
  induction a generalizing root with
  | nil =>
    have he : root = n := Option.some.inj hn
    subst he
    omega
  | cons i a ih =>
    obtain ⟨c, hc, hcn⟩ := Option.bind_eq_some_iff.mp hn
    have hchild := h.inside root root.mem_preorder_self c (List.mem_of_getElem? hc)
    have hbelow := ih (h.child hc) hcn
    omega

theorem WellFormed.children_apart (h : root.WellFormed bytes) {i j : Nat} {c d : Node}
    (hc : root.children[i]? = some c) (hd : root.children[j]? = some d) (hij : i < j) :
    c.label.stop ≤ d.label.start := by
  obtain ⟨hi, rfl⟩ := List.getElem?_eq_some_iff.mp hc
  obtain ⟨hj, rfl⟩ := List.getElem?_eq_some_iff.mp hd
  exact List.pairwise_iff_getElem.mp (h.ordered root root.mem_preorder_self) i j hi hj hij

/-- What is below two different children does not overlap. -/
theorem WellFormed.apart (h : root.WellFormed bytes) {i j : Nat} {a b : Address} {m n : Node}
    (hm : root.at? (i :: a) = some m) (hn : root.at? (j :: b) = some n) (hij : i ≠ j) :
    m.label.stop ≤ n.label.start ∨ n.label.stop ≤ m.label.start := by
  obtain ⟨c, hc, hcm⟩ := Option.bind_eq_some_iff.mp hm
  obtain ⟨d, hd, hdn⟩ := Option.bind_eq_some_iff.mp hn
  have hcr := (h.child hc).range hcm
  have hdr := (h.child hd).range hdn
  rcases Nat.lt_or_gt_of_ne hij with hlt | hgt
  · have hcd := h.children_apart hc hd hlt
    omega
  · have hdc := h.children_apart hd hc hgt
    omega

end WellFormed

end Node

end ClassOutline
