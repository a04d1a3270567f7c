import ClassOutline.Proofs.Locate.Placement
import ClassOutline.Proofs.Syntax.Ranges

/-!
# The insertion point lies in one body

In a well-formed tree the closing brace of a located body is in no other body but
those around the declaration. Two declarations are either one above the other,
and then the lower one is in the upper one's body or beside it, or they part at
some node. In each case the spans of their bodies nest or are apart, which
`nested_or_apart` and `WellFormed.apart` say for one step of the descent.
-/

namespace ClassOutline

/-! ## Braces -/

/-- The span between a first and a last label that are braces of the text. -/
def braceSpan? (labels : List Label) : Option BodySpan :=
  labels.head?.bind fun opening => labels.getLast?.bind fun closing =>
    if opening.kind = "\x7b" ∧ closing.kind = "\x7d" ∧ ¬ opening.missing ∧ ¬ closing.missing then
      some ⟨opening.start, closing.stop⟩
    else none

/-- Nodes with a brace span start and end with the braces. -/
theorem exists_braces {cs : List Node} {span : BodySpan}
    (h : braceSpan? (cs.map Node.label) = some span) :
    ∃ opening middle closing, cs = opening :: (middle ++ [closing]) ∧ opening.kind = "\x7b" ∧
      closing.kind = "\x7d" ∧ opening.label.missing = false ∧ closing.label.missing = false ∧
      span = ⟨opening.label.start, closing.label.stop⟩ := by
  obtain ⟨lo, hlo, hrest⟩ := Option.bind_eq_some_iff.mp h
  obtain ⟨lc, hlc, hspan⟩ := Option.bind_eq_some_iff.mp hrest
  rw [List.head?_map, Option.map_eq_some_iff] at hlo
  rw [List.getLast?_map, Option.map_eq_some_iff] at hlc
  obtain ⟨opening, hopening, rfl⟩ := hlo
  obtain ⟨closing, hclosing, rfl⟩ := hlc
  by_cases hkinds : opening.label.kind = "\x7b" ∧ closing.label.kind = "\x7d" ∧
      ¬ opening.label.missing ∧ ¬ closing.label.missing
  · rw [if_pos hkinds] at hspan
    obtain ⟨hko, hkc, hmo, hmc⟩ := hkinds
    obtain ⟨front, rfl⟩ := List.getLast?_eq_some_iff.mp hclosing
    cases front with
    | nil =>
      -- One node cannot be both braces.
      have he : closing = opening := by simpa using hopening
      rw [he, hko] at hkc
      exact absurd hkc (by decide)
    | cons first middle =>
      have he : first = opening := by simpa using hopening
      subst he
      exact ⟨first, middle, closing, rfl, hko, hkc, by simpa using hmo, by simpa using hmc,
        (Option.some.inj hspan).symm⟩
  · rw [if_neg hkinds] at hspan
    cases hspan

namespace Declaration

theorem bodySpan?_eq (d : Declaration) :
    d.bodySpan? = d.body?.bind fun body => braceSpan? (body.children.map Node.label) := by
  unfold bodySpan?
  cases d.body? with
  | none => rfl
  | some body =>
    simp only [Option.bind_some]
    match hcs : body.children with
    | [] => rfl
    | [c] =>
      -- One child cannot be both braces.
      have hkinds : ¬ (c.label.kind = "\x7b" ∧ c.label.kind = "\x7d" ∧ ¬ c.label.missing ∧
          ¬ c.label.missing) := by
        rintro ⟨ho, hc, _⟩
        rw [ho] at hc
        exact absurd hc (by decide)
      exact (if_neg hkinds).symm
    | opening :: second :: rest =>
      have hlast : ((opening :: second :: rest).map Node.label).getLast? =
          some ((second :: rest).getLast (by simp)).label := by
        rw [List.getLast?_map, List.getLast?_cons_cons, List.getLast?_eq_some_getLast (by simp),
          Option.map_some]
      rw [braceSpan?, hlast]
      rfl

/-- A declaration with a body span: the number of the body, the body, and the
offsets of its braces. -/
structure Braced (bytes : Bytes) (d : Declaration) (b : Nat) (body : Node)
    (start closing : Nat) : Prop where
  index : d.bodyIndex? = some b
  child : d.node.children[b]? = some body
  span : d.bodySpan? = some ⟨start, closing + 1⟩
  ordered : start < closing
  opening_byte : bytes[start]? = some 0x7B
  closing_byte : bytes[closing]? = some 0x7D
  within : body.label.start ≤ start ∧ closing + 1 ≤ body.label.stop
  /-- Two bytes or more in a child of the body are between the braces. -/
  between : ∀ c ∈ body.children, ∀ x y, c.label.start ≤ x → x < y → y + 1 ≤ c.label.stop →
    start < x ∧ y < closing

theorem exists_braced {bytes : Bytes} {d : Declaration} {span : BodySpan}
    (hform : d.node.WellFormed bytes) (h : d.bodySpan? = some span) :
    ∃ b body start closing, Braced bytes d b body start closing ∧ span = ⟨start, closing + 1⟩ := by
  have hspan := h
  rw [bodySpan?_eq, body?_eq] at h
  obtain ⟨body, hbody, h⟩ := Option.bind_eq_some_iff.mp h
  obtain ⟨b, hb, hbody⟩ := Option.bind_eq_some_iff.mp hbody
  obtain ⟨opening, middle, closing, hcs, hko, hkc, hmo, hmc, rfl⟩ := exists_braces h
  have hwf := hform.child hbody
  have hbrace : ∀ c ∈ body.children, c.label.missing = false →
      ∀ byte ∈ Node.braceByte? c.kind, c.label.stop = c.label.start + 1 ∧
        bytes[c.label.start]? = some byte := fun c hc =>
    hwf.braces c (Node.mem_preorder_of_mem_children hc c.mem_preorder_self)
  have hino : opening ∈ body.children := by simp [hcs]
  have hinc : closing ∈ body.children := by simp [hcs]
  obtain ⟨hone, hobyte⟩ := hbrace opening hino hmo 0x7B (by simp [Node.braceByte?, hko])
  obtain ⟨hcne, hcbyte⟩ := hbrace closing hinc hmc 0x7D (by simp [Node.braceByte?, hkc])
  have hinside := hwf.inside body body.mem_preorder_self
  have horder := hwf.ordered body body.mem_preorder_self
  rw [hcs, List.pairwise_cons, List.pairwise_append] at horder
  obtain ⟨hafter, _, _, hbefore⟩ := horder
  have hapart := hafter closing (by simp)
  have hstop : (⟨opening.label.start, closing.label.stop⟩ : BodySpan) =
      ⟨opening.label.start, closing.label.start + 1⟩ := by
    rw [hcne]
    rfl
  refine ⟨b, body, opening.label.start, closing.label.start, ⟨hb, hbody, hstop ▸ hspan, by omega,
    hobyte, hcbyte, ?_, ?_⟩, hstop⟩
  · have hio := hinside opening hino
    have hic := hinside closing hinc
    omega
  · -- A child with two bytes is neither brace, so it stands between them.
    intro c hc x y hx hxy hy
    rw [hcs, List.mem_cons, List.mem_append, List.mem_singleton] at hc
    rcases hc with rfl | hc | rfl
    · omega
    · have hfirst := hafter c (List.mem_append_left _ hc)
      have hlast := hbefore c hc closing (List.mem_singleton_self _)
      omega
    · omega

end Declaration

/-! ## Two bodies -/

section Bodies

open Declaration (Braced)

variable {bytes : Bytes} {root : Node} {d e : Declaration} {b c start closing start' closing' : Nat}
  {body body' : Node}

theorem Declaration.Braced.range (h : Braced bytes d b body start closing)
    (hform : d.node.WellFormed bytes) :
    d.node.label.start ≤ start ∧ closing + 1 ≤ d.node.label.stop := by
  have hin := hform.inside d.node d.node.mem_preorder_self body (List.mem_of_getElem? h.child)
  have hwithin := h.within
  omega

/-- What a tree holds in braces is in a child of the tree. -/
theorem Declaration.Braced.in_child (h : Braced bytes e c body' start' closing')
    (hform : root.WellFormed bytes) {a : Address} (he : root.declarationAt? a = some e) :
    ∃ (k : Nat) (child : Node), root.children[k]? = some child ∧ child.label.start ≤ start' ∧
      closing' + 1 ≤ child.label.stop := by
  obtain ⟨hat, _⟩ := Node.at?_of_declarationAt? he
  cases a with
  | nil =>
    have hroot : root = e.node := Option.some.inj hat
    exact ⟨c, body', hroot ▸ h.child, h.within.1, h.within.2⟩
  | cons k a =>
    obtain ⟨child, hchild, hbelow⟩ := Option.bind_eq_some_iff.mp hat
    have hwf := hform.child hchild
    have hrange := hwf.range hbelow
    have hown := h.range (hwf.at? hbelow)
    exact ⟨k, child, hchild, by omega, by omega⟩

/-- A declaration below another one: in its body the braces nest, beside it they
are apart. -/
theorem nested_or_apart (hform : root.WellFormed bytes) (hd : root.declarationAt? [] = some d)
    (h : Braced bytes d b body start closing) {j : Nat} {a : Address}
    (he : root.declarationAt? (j :: a) = some e) (h' : Braced bytes e c body' start' closing') :
    (j = b → start < start' ∧ closing' < closing) ∧
      (j ≠ b → closing' < start ∨ closing < start') := by
  have hroot : root = d.node := Option.some.inj (Node.at?_of_declarationAt? hd).1
  have hbody : root.children[b]? = some body := hroot ▸ h.child
  have hord := h'.ordered
  constructor
  · rintro rfl
    rw [Node.declarationAt?_child hbody] at he
    obtain ⟨k, child, hchild, hstart, hstop⟩ := h'.in_child (hform.child hbody) he
    exact h.between child (List.mem_of_getElem? hchild) start' closing' hstart hord hstop
  · intro hj
    obtain ⟨hat, _⟩ := Node.at?_of_declarationAt? he
    have hbodyAt : root.at? [b] = some body := by
      rw [Node.at?, hbody]
      rfl
    have hapart := hform.apart hat hbodyAt hj
    have hown := h'.range (hform.at? hat)
    have hwithin := h.within
    have hord' := h.ordered
    omega

/-- The closing brace of one body is in another one exactly when the declarations
are the same or the first stands in the other's body. -/
theorem closing_mem_iff (hform : root.WellFormed bytes) {p q : Address}
    (hd : root.declarationAt? p = some d) (h : Braced bytes d b body start closing)
    (he : root.declarationAt? q = some e) (h' : Braced bytes e c body' start' closing') :
    start' ≤ closing ∧ closing ≤ closing' ↔ q = p ∨ q ++ [c] <+: p := by
  have hord := h.ordered
  have hord' := h'.ordered
  induction p generalizing root q with
  | nil =>
    cases q with
    | nil =>
      have hde : d = e := Option.some.inj (hd.symm.trans he)
      subst hde
      have hspan := h.span.symm.trans h'.span
      simp only [Option.some.injEq, BodySpan.mk.injEq] at hspan
      simp
      omega
    | cons j a =>
      have hcase := nested_or_apart hform hd h he h'
      have hno : ¬ (start' ≤ closing ∧ closing ≤ closing') := by
        by_cases hj : j = b
        · have hin := hcase.1 hj
          omega
        · have hout := hcase.2 hj
          omega
      simp [hno]
  | cons i p ih =>
    cases q with
    | nil =>
      have hcase := nested_or_apart hform he h' hd h
      by_cases hi : i = c
      · have hin := hcase.1 hi
        simp [hi]
        omega
      · have hout := hcase.2 hi
        have hno : ¬ (start' ≤ closing ∧ closing ≤ closing') := by omega
        simp [hno, Ne.symm hi]
    | cons j q =>
      by_cases hij : i = j
      · subst hij
        obtain ⟨hat, _⟩ := Node.at?_of_declarationAt? hd
        obtain ⟨child, hchild, _⟩ := Option.bind_eq_some_iff.mp hat
        rw [Node.declarationAt?_child hchild] at hd he
        refine (ih (hform.child hchild) hd he).trans ?_
        simp
      · obtain ⟨hat, _⟩ := Node.at?_of_declarationAt? hd
        obtain ⟨hat', _⟩ := Node.at?_of_declarationAt? he
        have hapart := hform.apart hat hat' hij
        have hown := h.range (hform.at? hat)
        have hown' := h'.range (hform.at? hat')
        have hno : ¬ (start' ≤ closing ∧ closing ≤ closing') := by omega
        simp [hno, Ne.symm hij]

theorem closing_ne (hform : root.WellFormed bytes) {p q : Address}
    (hd : root.declarationAt? p = some d) (h : Braced bytes d b body start closing)
    (he : root.declarationAt? q = some e) (h' : Braced bytes e c body' start' closing')
    (hpq : p ≠ q) : closing ≠ closing' := by
  rintro rfl
  have hord := h.ordered
  have hord' := h'.ordered
  have hin := ((closing_mem_iff hform hd h he h').mp ⟨by omega, by omega⟩).resolve_left hpq.symm
  have hin' := ((closing_mem_iff hform he h' hd h).mp ⟨by omega, by omega⟩).resolve_left hpq
  have hlen := hin.length_le
  have hlen' := hin'.length_le
  simp only [List.length_append, List.length_singleton] at hlen hlen'
  omega

end Bodies

theorem Source.locate_eq_ok_iff {s : Source} {name : String} {nested : Bool} {span : BodySpan} :
    s.locate name nested = .ok span ↔
      ∃ x, s.placedNamed? name nested = some x ∧ x.2.bodySpan? = some span := by
  rw [locate, declarationNamed?_eq]
  cases s.placedNamed? name nested with
  | none => simp
  | some x =>
    simp only [Option.map_some, Option.some.injEq, exists_eq_left']
    cases x.2.bodySpan? with
    | none => simp
    | some t => simp

/-- In a well-formed tree a located body starts at an opening brace and ends with
a later closing brace, both in the node of its declaration. The closing brace is
between the braces of exactly those bodies that belong to the declaration or hold
it. No two declarations have their closing braces in one place. -/
theorem Source.insertion_point_in_own_body {s : Source} (hform : s.root.WellFormed s.bytes) :
    (∀ name nested span, s.locate name nested = .ok span →
      ∃ p d start closing, s.placedNamed? name nested = some (p, d) ∧
        s.root.declarationAt? p = some d ∧ d.bodySpan? = some span ∧
        span.start = (start : Nat) ∧ span.closing = (closing : Nat) ∧
        s.bytes[start]? = some 0x7B ∧ s.bytes[closing]? = some 0x7D ∧ start < closing ∧
        d.node.label.start ≤ start ∧ closing + 1 ≤ d.node.label.stop ∧
        ∀ q e other, s.root.declarationAt? q = some e → e.bodySpan? = some other →
          (other.start ≤ span.closing ∧ span.closing < other.stop ↔
            q = p ∨ ∃ b, e.bodyIndex? = some b ∧ q ++ [b] <+: p)) ∧
    ∀ p q d e t t', s.root.declarationAt? p = some d → s.root.declarationAt? q = some e →
      d.bodySpan? = some t → e.bodySpan? = some t' → p ≠ q → t.closing ≠ t'.closing := by
  have hbraced : ∀ p d t, s.root.declarationAt? p = some d → d.bodySpan? = some t →
      ∃ b body start closing, Declaration.Braced s.bytes d b body start closing ∧
        t = ⟨start, closing + 1⟩ := by
    intro p d t hd ht
    exact Declaration.exists_braced (hform.at? (Node.at?_of_declarationAt? hd).1) ht
  constructor
  · intro name nested span hlocate
    obtain ⟨⟨p, d⟩, hx, hspan⟩ := locate_eq_ok_iff.mp hlocate
    have hd := (s.reached_of_placedNamed? hx).1.declarationAt?
    obtain ⟨b, body, start, closing, h, rfl⟩ := hbraced p d span hd hspan
    have hrange := h.range (hform.at? (Node.at?_of_declarationAt? hd).1)
    have hclosing : BodySpan.closing ⟨start, closing + 1⟩ = (closing : Int) := by
      change (closing : Int) + 1 - 1 = closing
      omega
    refine ⟨p, d, start, closing, hx, hd, hspan, rfl, hclosing, h.opening_byte, h.closing_byte,
      h.ordered, hrange.1, hrange.2, ?_⟩
    intro q e other he hother
    obtain ⟨c, body', start', closing', h', rfl⟩ := hbraced q e other he hother
    have hiff := closing_mem_iff hform hd h he h'
    simp only [hclosing, h'.index, Option.some.injEq, exists_eq_left']
    rw [← hiff]
    omega
  · intro p q d e t t' hd he ht ht' hpq
    obtain ⟨b, body, start, closing, h, rfl⟩ := hbraced p d t hd ht
    obtain ⟨c, body', start', closing', h', rfl⟩ := hbraced q e t' he ht'
    have hne := closing_ne hform hd h he h' hpq
    unfold BodySpan.closing
    simp only
    omega

/-- The tree of a class `A` around a class `B`. Before the brace of each stand
methods that move it by a width. -/
def nestedClassTree (inner : List Node) (innerWidth : Nat) (outer : List Node)
    (outerWidth : Nat) : Node :=
  let stop := 18 + innerWidth + outerWidth
  .plain "program" 0 stop none [
    .plain "class_declaration" 0 stop none [
      .plain "identifier" 6 7 (some .name) [],
      .plain "class_body" 7 stop (some .body) (
        [.openingBrace 7,
          .plain "class_declaration" 8 (17 + innerWidth) none [
            .plain "identifier" 14 15 (some .name) [],
            .plain "class_body" 15 (17 + innerWidth) (some .body) (
              [.openingBrace 15] ++ inner ++ [.closingBrace (16 + innerWidth)])]] ++
        outer ++ [.closingBrace (17 + innerWidth + outerWidth)])]]

def nestedClassText : String := "class A" ++ braced ("class B" ++ braced "")

theorem wellFormed_nestedClassTree :
    (nestedClassTree [] 0 [] 0).WellFormed (Utf8.encode nestedClassText) := by
  constructor <;> decide +kernel

/-- The brace of the inner class is in the two bodies and in no third one. -/
theorem insertion_point_of_inner_class :
    let s : Source := ⟨nestedClassTree [] 0 [] 0, Utf8.encode nestedClassText, none⟩
    s.locate "B" true = .ok ⟨15, 17⟩ ∧ s.bytes[16]? = some 0x7D ∧
    ∀ q e other, s.root.declarationAt? q = some e → e.bodySpan? = some other →
      (other.start ≤ 16 ∧ 16 < other.stop ↔
        q = [0, 1, 1] ∨ ∃ b, e.bodyIndex? = some b ∧ q ++ [b] <+: [0, 1, 1]) := by
  intro s
  have hlocate : s.locate "B" true = .ok ⟨15, 17⟩ := by decide +kernel
  obtain ⟨p, d, start, closing, hx, _, _, _, hclosing, _, hbyte, _, _, _, hbodies⟩ :=
    (Source.insertion_point_in_own_body (s := s) wellFormed_nestedClassTree).1 "B" true _ hlocate
  have hp : (s.placedNamed? "B" true).map (·.1) = some [0, 1, 1] := by decide +kernel
  have hp : p = [0, 1, 1] := by simpa [hx] using hp
  have hclosing : closing = 16 := by
    change (16 : Int) = closing at hclosing
    omega
  rw [hclosing] at hbyte
  rw [hp] at hbodies
  exact ⟨hlocate, hbyte, hbodies⟩

end ClassOutline
