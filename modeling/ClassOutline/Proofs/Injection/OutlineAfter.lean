import ClassOutline.Proofs.Injection.Splice
import ClassOutline.Proofs.Locate.Placement
import ClassOutline.Proofs.Outline.Extraction
import ClassOutline.Proofs.Outline.Insertion

/-!
# The outline after an injection

An injection moves the bytes from the insertion on, and a parser that sees the new
methods moves the tree with them. Names read the same, the new methods go to the
class whose body was located, and the outline changes nowhere else. Of the parser
nothing is used but the tree it gives for the updated text.
-/

namespace ClassOutline

/-! ## Offsets -/

/-- A label after `width` bytes came in at `offset`. -/
def Label.shift (offset width : Nat) (l : Label) : Label :=
  { l with
    start := if offset ≤ l.start then l.start + width else l.start
    stop := if offset < l.stop then l.stop + width else l.stop }

theorem Bytes.slice_eq (bs : Bytes) (start stop : Nat) :
    slice bs start stop = (bs.drop start).take (stop - start) := by
  rw [slice, List.drop_take]

/-- A range that does not go across the insertion holds the same bytes after it. -/
theorem Bytes.slice_shift {bs inserted : Bytes} {l : Label} {offset : Nat}
    (hoffset : offset ≤ bs.length) (h : ¬ (l.start < offset ∧ offset < l.stop)) :
    slice (bs.take offset ++ inserted ++ bs.drop offset)
        (l.shift offset inserted.length).start (l.shift offset inserted.length).stop =
      slice bs l.start l.stop := by
  simp only [Label.shift]
  by_cases hs : offset ≤ l.start
  · rw [if_pos hs]
    by_cases he : offset < l.stop
    · have hdrop : (bs.take offset ++ inserted ++ bs.drop offset).drop
          (l.start + inserted.length) = bs.drop l.start := by
        have hlen : (bs.take offset ++ inserted).length = offset + inserted.length := by
          rw [List.length_append, List.length_take]
          omega
        rw [List.drop_append, List.drop_eq_nil_of_le (by omega), hlen, List.nil_append,
          List.drop_drop]
        congr 1
        omega
      rw [if_pos he, slice_eq, slice_eq, hdrop]
      congr 1
      omega
    · rw [if_neg he, slice_eq_nil _ (by omega), slice_eq_nil _ (by omega)]
  · have he : ¬ offset < l.stop := fun he => h ⟨by omega, he⟩
    rw [if_neg hs, if_neg he, slice, slice, List.append_assoc, List.take_append_of_le_length,
      List.take_take, Nat.min_eq_left (by omega)]
    rw [List.length_take]
    omega

theorem splice_eq (bytes inserted : Bytes) {offset : Nat} (h : offset ≤ bytes.length) :
    splice bytes inserted offset =
      bytes.take offset ++ (newline :: inserted ++ [newline]) ++ bytes.drop offset := by
  simp [splice, cutPoint_of_le h]

/-- A label that is no name astride the insertion reads the same after it. -/
theorem Label.readsAs_shift {bytes inserted : Bytes} {l : Label} {offset : Nat}
    (hoffset : offset ≤ bytes.length)
    (h : l.role = some .name → ¬ (l.start < offset ∧ offset < l.stop)) :
    l.ReadsAs bytes (splice bytes inserted offset) (l.shift offset (inserted.length + 2)) := by
  have hlen : (newline :: inserted ++ [newline]).length = inserted.length + 2 := by simp
  refine ⟨rfl, rfl, rfl, fun hr => ?_⟩
  rw [splice_eq bytes inserted hoffset, ← hlen]
  exact Bytes.slice_shift hoffset (h hr)

/-! ## The located declaration -/

namespace Declaration

/-- A body with a span ends with a brace, which is neither declaration nor member. -/
theorem closed_of_bodySpan? {d : Declaration} {span : BodySpan} {body : Node}
    (hspan : d.bodySpan? = some span) (hbody : d.body? = some body)
    (hplain : body.declaration? = none)
    (hbrace : ∀ closing, body.children.getLast? = some closing → closing.children = []) :
    body.Closed := by
  refine ⟨hplain, ?_⟩
  rw [bodySpan?, hbody] at hspan
  simp only at hspan
  split at hspan
  · rename_i opening second rest hchildren
    split at hspan
    · rename_i hkinds
      have hlast : body.children.getLast? = some ((second :: rest).getLast (by simp)) := by
        rw [hchildren, List.getLast?_cons_cons, List.getLast?_eq_getLast_of_ne_nil]
      refine ⟨_, hlast, hbrace _ hlast, ?_, ?_⟩
      · simp [Node.declaration?, DeclarationKind.ofNodeKind?, Node.createsClass, hkinds.2.1]
      · simp [Node.member?, MemberKind.ofNodeKind?, hkinds.2.1]
    · simp at hspan
  · simp at hspan

end Declaration

/-! ## The outline -/

theorem Node.label_modifyAt_append (f : Node → Node) (p : Address) (i : Nat) (n : Node) :
    (n.modifyAt f (p ++ [i])).label = n.label := by
  cases n with
  | mk l cs => cases p <;> rfl

/-- The classes of a tree that gains methods, told by the addresses of the old one. -/
theorem Node.Gains.classesIn {bytes bytes' : Bytes} {p : Address} {names : List String}
    {n m m' : Node} (h : Node.Gains bytes' p names m m')
    (hm : Node.placedClasses bytes' m = Node.placedClasses bytes n) :
    m'.classesIn bytes' = n.addresses.filterMap fun a =>
      (n.classAt? bytes a).map fun c => if a = p then c.addMethods names else c := by
  rw [Node.classesIn, h.classes, hm, Node.placedClasses_eq, List.map_map, List.map_filterMap]
  apply List.filterMap_congr
  intro a _
  rw [Option.map_map]
  congr 1
  funext c
  by_cases ha : a = p <;> simp [Node.addMethodsAt, ha]

/-- The tree after `width` bytes came in at `offset`, with new nodes before the
last child of the node at an address. -/
def Node.inserted (root : Node) (offset width : Nat) (a : Address) (news : List Node) : Node :=
  (root.relabel (Label.shift offset width)).modifyAt (Node.insertBeforeLast news) a

/-- What an insertion at `offset` relies on in a tree: the declaration ends with
its body, which is not class-like, the brace of the body has no children, and no
name goes across the offset. -/
structure Insertable (root : Node) (d : Declaration) (body : Node) (offset : Nat) : Prop where
  found : d.body? = some body
  last : d.node.children.getLast? = some body
  plain : body.declaration? = none
  brace : ∀ closing, body.children.getLast? = some closing → closing.children = []
  names : ∀ m ∈ root.preorder, m.label.role = some .name →
    ¬ (m.label.start < offset ∧ offset < m.label.stop)

section After

variable {parser : Parser} {text name method updated : String} {nested : Bool}
  {origin : Option String} {d : Declaration} {span : BodySpan} {body : Node} {offset : Nat}

theorem encode_of_inject (hclear : (parser text).label.hasError = false)
    (hspan : Source.locate ⟨parser text, Utf8.encode text, origin⟩ name nested = .ok span)
    (hinject : inject parser text name method nested origin = .ok updated) :
    Utf8.encode updated = splice (Utf8.encode text) (Utf8.encode method) span.closing := by
  have hk := cutPoint_le span.closing (Utf8.encode text).length
  rcases Utf8.isBoundary_or_cuts text.toList hk with ⟨before, after, htext, hlen⟩ | ⟨b, c, a, hc⟩
  · rw [inject_of_boundary hclear hspan method htext hlen] at hinject
    rw [← Except.ok.inj hinject, Utf8.encode, Utf8.encode, Utf8.encode, htext, String.toList_ofList]
    rw [Utf8.encode, htext] at hlen
    exact (splice_boundary hlen.symm method.toList).symm
  · rw [inject_of_cut hclear hspan method rfl hc] at hinject
    cases hinject

theorem gains_inserted {root : Node} {bytes inserted : Bytes} {p : Address} {news : List Node}
    {names : List String} (h : Insertable root d body offset) (hspan : d.bodySpan? = some span)
    (hd : d.node.declaration? = some d) (hinside : offset ≤ bytes.length)
    (hp : root.at? p = some d.node)
    (hnews : List.Forall₂ (Node.NewMethod (splice bytes inserted offset)) news names) :
    let bytes' := splice bytes inserted offset
    let width := inserted.length + 2
    Node.Gains bytes' p names (root.relabel (Label.shift offset width))
        (root.inserted offset width (p ++ [d.node.children.length - 1]) news) ∧
      Node.placedClasses bytes' (root.relabel (Label.shift offset width)) =
        Node.placedClasses bytes root := by
  intro bytes' width
  have hreads : ∀ m ∈ root.preorder, m.label.ReadsAs bytes bytes' (m.label.shift offset width) :=
    fun m hm => Label.readsAs_shift hinside (h.names m hm)
  have hbelow : ∀ m ∈ d.node.preorder, m.label.ReadsAs bytes bytes' (m.label.shift offset width) :=
    fun m hm => hreads m (Node.mem_preorder_trans hm (Node.mem_preorder_of_at? hp))
  refine ⟨?_, Node.placedClasses_relabel hreads⟩
  have hat : (root.relabel (Label.shift offset width)).at? p =
      some (d.node.relabel (Label.shift offset width)) := by
    rw [Node.at?_relabel, hp, Option.map_some]
  rw [Node.inserted, Node.modifyAt_append]
  apply Node.gains_modifyAt hat
  -- At the declaration itself: its children are some nodes and the body after them.
  have hsome : d.node.declaration?.isSome := by rw [hd, Option.isSome_some]
  have hclosed := (Declaration.closed_of_bodySpan? hspan h.found h.plain h.brace).relabel
    fun m hm => hbelow m (Node.mem_preorder_of_mem_children (List.mem_of_getLast? h.last) hm)
  have hgrown := Node.grown_relabel hbelow
  have hlast := h.last
  generalize d.node = n at hlast hsome hgrown
  cases n with
  | mk l cs =>
    obtain ⟨before, rfl⟩ := List.getLast?_eq_some_iff.mp hlast
    have hsome' := hgrown.isSome_declaration?.trans hsome
    rw [Node.relabel_mk, List.map_append, List.map_singleton] at hsome' ⊢
    have hindex : (Node.mk l (before ++ [body])).children.length - 1 =
        (before.map (Node.relabel (Label.shift offset width))).length := by
      simp [Node.children]
    rw [hindex, Node.modifyAt_last]
    exact Node.gains_insert hnews hclosed hsome'

/-- Injecting into a class and outlining again adds the new methods, in order, to
the class at the address of the located declaration, and changes no other class.
The address exists and is listed once. The tree of the updated text is taken to be
the old one, moved along with the bytes, with the new methods before the brace of
the body. -/
theorem outline_after_injection (hclear : (parser text).label.hasError = false)
    (hinject : inject parser text name method nested origin = .ok updated)
    (hlocated : Source.declarationNamed? ⟨parser text, Utf8.encode text, origin⟩ name nested =
      some d)
    (hspan : d.bodySpan? = some span) (hoffset : span.closing = offset)
    (hinside : offset < (Utf8.encode text).length)
    (hroom : Insertable (parser text) d body offset) :
    (∃ p, (parser text).at? p = some d.node) ∧
    ∀ p news names, (parser text).at? p = some d.node →
      List.Forall₂ (Node.NewMethod (Utf8.encode updated)) news names →
      parser updated = (parser text).inserted offset ((Utf8.encode method).length + 2)
        (p ++ [d.node.children.length - 1]) news →
      (∃ c, (parser text).classAt? (Utf8.encode text) p = some c ∧ c.name = name) ∧
      (parser text).addresses.count p = 1 ∧
      Source.outline ⟨parser text, Utf8.encode text, origin⟩ =
        .ok ⟨(parser text).addresses.filterMap ((parser text).classAt? (Utf8.encode text))⟩ ∧
      Source.outline ⟨parser updated, Utf8.encode updated, origin⟩ =
        .ok ⟨(parser text).addresses.filterMap fun a =>
          ((parser text).classAt? (Utf8.encode text) a).map fun c =>
            if a = p then c.addMethods names else c⟩ := by
  have hmem := List.mem_of_find?_eq_some hlocated
  have hname : d.name? (Utf8.encode text) = some name := by
    simpa using List.find?_some hlocated
  obtain ⟨hnode, hd⟩ := Source.mem_preorder_of_mem_declarations hmem
  have hlocate : Source.locate ⟨parser text, Utf8.encode text, origin⟩ name nested = .ok span := by
    rw [Source.locate, hlocated]
    simp only [hspan]
  have hbytes := encode_of_inject hclear hlocate hinject
  rw [hoffset] at hbytes
  refine ⟨Node.exists_at?_of_mem_preorder hnode, ?_⟩
  intro p news names hp hnews htree
  rw [hbytes] at hnews
  obtain ⟨hgains, hsame⟩ := gains_inserted hroom hspan hd (Nat.le_of_lt hinside) hp hnews
  have hclass : (parser text).declarationAt? p = some d := by
    rw [Node.declarationAt?, hp, Option.bind_some, hd]
  have hclear' : (parser updated).label.hasError = false := by
    rw [htree, Node.inserted, Node.label_modifyAt_append]
    cases hroot : parser text with
    | mk l cs =>
      rw [hroot] at hclear
      exact hclear
  refine ⟨?_, Node.count_addresses_of_at? hp, ?_, ?_⟩
  · rw [Node.classAt?, hclass, Option.bind_some, hname, Option.map_some]
    exact ⟨_, rfl, rfl⟩
  · rw [Source.outline_of_clear hclear, Node.classesIn_eq]
  · rw [Source.outline_of_clear hclear', htree, hbytes, hgains.classesIn hsame]

end After

def bareMethodTree (start stop : Nat) : Node :=
  .plain "method_declaration" start stop none [
    .plain "type" start (stop - 5) none [],
    .plain "identifier" (stop - 4) (stop - 3) (some .name) [],
    .plain "formal_parameters" (stop - 3) (stop - 1) (some .parameters) []]

/-- The tree of the body of a class `B`, whose brace starts `width` bytes late
after the given methods. -/
def innerBodyTree (width : Nat) (methods : List Node) : Node :=
  .plain "class_body" 15 (17 + width) (some .body) (
    [.openingBrace 15] ++ methods ++ [.closingBrace (16 + width)])

def innerClassTree (width : Nat) (methods : List Node) : Node :=
  .plain "class_declaration" 8 (17 + width) none [
    .plain "identifier" 14 15 (some .name) [],
    innerBodyTree width methods]

def outerClassTree (width : Nat) (methods : List Node) : Node :=
  .plain "program" 0 (27 + width) none [
    .plain "class_declaration" 0 (27 + width) none [
      .plain "identifier" 6 7 (some .name) [],
      .plain "class_body" 7 (27 + width) (some .body) [
        .openingBrace 7,
        innerClassTree width methods,
        bareMethodTree (17 + width) (26 + width),
        .closingBrace (26 + width)]]]

def outerClassText : String := "class A" ++ braced ("class B" ++ braced "" ++ "void g();")

def outerClassUpdated : String :=
  "class A" ++ braced ("class B" ++ braced "\nint f();\n" ++ "void g();")

def outerClassParser : Parser := fun text =>
  if text = outerClassText then outerClassTree 0 [] else outerClassTree 10 [bareMethodTree 17 25]

/-- A method injected into the inner class is listed there and not in the outer one. -/
theorem outline_after_inner_injection :
    inject outerClassParser outerClassText "B" "int f();" true none = .ok outerClassUpdated ∧
    Source.outline ⟨outerClassParser outerClassText, Utf8.encode outerClassText, none⟩ =
      .ok ⟨[⟨"A", ["g"], []⟩, ⟨"B", [], []⟩]⟩ ∧
    Source.outline ⟨outerClassParser outerClassUpdated, Utf8.encode outerClassUpdated, none⟩ =
      .ok ⟨[⟨"A", ["g"], []⟩, ⟨"B", ["f"], []⟩]⟩ := by
  have hinject : inject outerClassParser outerClassText "B" "int f();" true none =
      .ok outerClassUpdated := by decide +kernel
  have hlocated : Source.declarationNamed?
      ⟨outerClassParser outerClassText, Utf8.encode outerClassText, none⟩ "B" true =
        some ⟨.plainClass, innerClassTree 0 []⟩ := rfl
  have hroom : Insertable (outerClassParser outerClassText) ⟨.plainClass, innerClassTree 0 []⟩
      (innerBodyTree 0 []) 16 := by
    refine ⟨rfl, rfl, rfl, ?_, by decide +kernel⟩
    intro closing hc
    cases hc
    rfl
  have hnews : List.Forall₂ (Node.NewMethod (Utf8.encode outerClassUpdated))
      [bareMethodTree 17 25] ["f"] :=
    .cons ⟨rfl, rfl, by decide +kernel, by decide +kernel⟩ .nil
  obtain ⟨_, _, hold, hnew⟩ := (outline_after_injection rfl hinject hlocated rfl rfl
    (by decide +kernel) hroom).2 [0, 1, 1] [bareMethodTree 17 25] ["f"] rfl hnews rfl
  refine ⟨hinject, hold.trans ?_, hnew.trans ?_⟩ <;> decide +kernel

end ClassOutline
