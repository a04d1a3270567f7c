import ClassOutline.Proofs.Locate.Agreement
import ClassOutline.Proofs.Outline.Isolation

/-!
# Direct members and the outline

A declaration takes its direct members from the named children of its body; the
outline walk visits every node and hands a member to the innermost open scope. What
the declaration lists is a part of what the walk hands to it, in the same order, and
all of it when no member stands elsewhere (`Source.outline_has_direct_members`).

Both sides are compared tree by tree with the names that a tree leaves to the
declarations around it (`looseNames`).
-/

namespace ClassOutline

def Item.memberNames (bytes : Bytes) (k : MemberKind) : Item → List String
  | .declaration _ => []
  | .member m => if m.kind = k then m.names bytes else []

/-- The names of the direct members of a kind, in source order. -/
def Declaration.directNames (d : Declaration) (bytes : Bytes) (k : MemberKind) : List String :=
  d.members.flatMap (Item.memberNames bytes k)

namespace Node

/-- The names that one child of a body contributes. In an enumeration (`opened`) the
node after the constants stands for its own children. -/
def listedNames (bytes : Bytes) (k : MemberKind) (opened : Bool) (n : Node) : List String :=
  if n.label.named then
    if opened && n.kind = "enum_body_declarations" then
      n.namedChildren.flatMap (memberNames bytes k)
    else memberNames bytes k n
  else []

/-- The addresses, in one child of a body, of the nodes that may be direct members. -/
def ListsAt (opened : Bool) (n : Node) (q : Address) : Prop :=
  n.label.named ∧
    (q = [] ∨ opened ∧ n.kind = "enum_body_declarations" ∧
      ∃ j m, n.children[j]? = some m ∧ m.label.named ∧ q = [j])

def LooseAt (n : Node) (q : Address) : Prop :=
  n.owner? q = none ∧ ∃ m, n.at? q = some m ∧ m.member?.isSome

end Node

/-- The address is that of a named child of the body or, in an enumeration, of a named
child of the node after the constants. -/
def Declaration.ListsAt (d : Declaration) (q : Address) : Prop :=
  ∃ b body i n r, d.bodyIndex? = some b ∧ d.node.children[b]? = some body ∧
    body.children[i]? = some n ∧ n.ListsAt d.opensBlocks r ∧ q = b :: i :: r

/-! ## What a declaration lists -/

section Names

variable {bytes : Bytes} {k : MemberKind}

theorem Node.flatMap_item? (n : Node) :
    n.item?.toList.flatMap (Item.memberNames bytes k) = n.memberNames bytes k := by
  unfold item?
  cases hd : n.declaration? with
  | some d =>
    rw [memberNames_eq_nil (by rw [hd]; rfl)]
    rfl
  | none =>
    unfold memberNames
    cases n.member? with
    | none => rfl
    | some m => exact List.append_nil _

theorem Declaration.directNames_eq (d : Declaration) :
    d.directNames bytes k = d.memberNodes.flatMap (Node.memberNames bytes k) := by
  rw [directNames, members, List.filterMap_eq_flatMap_toList, List.flatMap_assoc]
  simp only [Node.flatMap_item?]

theorem Declaration.directNames_of_body {d : Declaration} {body : Node} (h : d.body? = some body) :
    d.directNames bytes k = body.children.flatMap (Node.listedNames bytes k d.opensBlocks) := by
  rw [directNames_eq]
  simp only [memberNodes, h]
  split
  · rename_i hk
    rw [List.flatMap_assoc, Node.flatMap_namedChildren]
    apply List.flatMap_congr
    intro c _
    unfold Node.listedNames opensBlocks
    by_cases hblock : c.kind = "enum_body_declarations" <;> simp [hk, hblock]
  · rename_i hk
    have hclosed : d.opensBlocks = false := by
      unfold opensBlocks
      simpa using hk
    rw [Node.flatMap_namedChildren]
    apply List.flatMap_congr
    intro c _
    simp [Node.listedNames, hclosed]

/-! ## A part of what the walk hands over -/

namespace Node

theorem looseNames_of_other {n : Node} (h : n.declaration? = none) :
    looseNames bytes k n = memberNames bytes k n ++ n.children.flatMap (looseNames bytes k) := by
  cases n with
  | mk l cs =>
    rw [looseNames, h, looseNamesAll_eq]
    rfl

theorem looseNames_of_declaration {n : Node} (h : n.declaration?.isSome) :
    looseNames bytes k n = [] := by
  cases n with
  | mk l cs => rw [looseNames, if_pos h]

theorem declaration?_of_block {n : Node} (h : n.kind = "enum_body_declarations") :
    n.declaration? = none := by
  simp [declaration?, DeclarationKind.ofNodeKind?, createsClass, h]

theorem memberNames_of_block {n : Node} (h : n.kind = "enum_body_declarations") :
    memberNames bytes k n = [] := by
  simp [memberNames, member?, MemberKind.ofNodeKind?, h]

theorem memberNames_sublist (n : Node) :
    (memberNames bytes k n).Sublist (looseNames bytes k n) := by
  cases hd : n.declaration? with
  | none =>
    rw [looseNames_of_other hd]
    exact List.sublist_append_left ..
  | some d =>
    rw [memberNames_eq_nil (by rw [hd]; rfl)]
    exact List.nil_sublist _

theorem listedNames_sublist (opened : Bool) (n : Node) :
    (listedNames bytes k opened n).Sublist (looseNames bytes k n) := by
  unfold listedNames
  split
  · split
    · rename_i hblock
      have hkind : n.kind = "enum_body_declarations" := by simp_all
      rw [looseNames_of_other (declaration?_of_block hkind), memberNames_of_block hkind]
      have hnamed : n.namedChildren.Sublist n.children := List.filter_sublist
      exact (hnamed.flatMap _).trans
        (List.Sublist.flatMap_right _ fun c _ => memberNames_sublist c)
    · exact memberNames_sublist n
  · exact List.nil_sublist _

/-! ## All of it -/

theorem looseNames_eq_nil_of_forall {n : Node} (h : ∀ q, ¬ n.LooseAt q) :
    looseNames bytes k n = [] := by
  rw [looseNames_eq, List.flatMap_eq_nil_iff]
  intro q hq
  have howner : n.owner? q = none := by simpa using (List.mem_filter.mp hq).2
  unfold namesAt memberNames
  cases hat : n.at? q with
  | none => rfl
  | some m =>
    cases hm : m.member? with
    | none => simp [hm]
    | some x => exact absurd ⟨howner, m, hat, by rw [hm]; rfl⟩ (h q)

theorem looseAt_nil_of_member? {n : Node} (h : n.member?.isSome) : n.LooseAt [] :=
  ⟨owner?_nil n, n, rfl, h⟩

theorem LooseAt.of_child {n c : Node} {i : Nat} {q : Address} (h : c.LooseAt q)
    (hd : n.declaration? = none) (hc : n.children[i]? = some c) : n.LooseAt (i :: q) := by
  obtain ⟨howner, m, hat, hm⟩ := h
  cases n with
  | mk l cs => exact ⟨(owner?_cons_eq_none hc hd q).mpr howner, m, (at?_cons hc q).trans hat, hm⟩

theorem memberNames_eq_nil_of_loose {n : Node} (h : ¬ n.LooseAt []) :
    memberNames bytes k n = [] := by
  unfold memberNames
  cases hm : n.member? with
  | none => rfl
  | some m => exact absurd (looseAt_nil_of_member? (by rw [hm]; rfl)) h

/-- A tree without further members below leaves its own names only. -/
theorem looseNames_eq_memberNames {n : Node} (h : ∀ q, n.LooseAt q → q = []) :
    looseNames bytes k n = memberNames bytes k n := by
  cases hd : n.declaration? with
  | some d =>
    have hsome : n.declaration?.isSome := by rw [hd]; rfl
    rw [looseNames_of_declaration hsome, memberNames_eq_nil hsome]
  | none =>
    have hbelow : n.children.flatMap (looseNames bytes k) = [] := by
      apply List.flatMap_eq_nil_iff.mpr
      intro c hc
      obtain ⟨i, hi⟩ := List.mem_iff_getElem?.mp hc
      apply looseNames_eq_nil_of_forall
      intro q hq
      cases h _ (hq.of_child hd hi)
    rw [looseNames_of_other hd, hbelow, List.append_nil]

theorem flatMap_memberNames_of_block {n : Node} (h : n.kind = "enum_body_declarations")
    (hloose : ∀ q, n.LooseAt q → ∃ j m, n.children[j]? = some m ∧ m.label.named ∧ q = [j]) :
    n.namedChildren.flatMap (memberNames bytes k) = looseNames bytes k n := by
  have hd := declaration?_of_block h
  rw [looseNames_of_other hd, memberNames_of_block h, List.nil_append, flatMap_namedChildren]
  apply List.flatMap_congr
  intro c hc
  obtain ⟨i, hi⟩ := List.mem_iff_getElem?.mp hc
  have hplace : ∀ q, c.LooseAt q → c.label.named ∧ q = [] := by
    intro q hq
    obtain ⟨j, m, hm, hnamed, he⟩ := hloose _ (hq.of_child hd hi)
    obtain ⟨rfl, rfl⟩ := List.cons.inj he
    obtain rfl : c = m := Option.some.inj (hi.symm.trans hm)
    exact ⟨hnamed, rfl⟩
  split
  · exact (looseNames_eq_memberNames fun q hq => (hplace q hq).2).symm
  · rename_i hnamed
    exact (looseNames_eq_nil_of_forall fun q hq => hnamed (hplace q hq).1).symm

theorem listedNames_eq {opened : Bool} {n : Node} (h : ∀ q, n.LooseAt q → n.ListsAt opened q) :
    listedNames bytes k opened n = looseNames bytes k n := by
  unfold listedNames
  split
  · split
    · rename_i hblock
      have hkind : n.kind = "enum_body_declarations" := by simp_all
      apply flatMap_memberNames_of_block hkind
      intro q hq
      rcases (h q hq).2 with rfl | ⟨_, _, hchild⟩
      · -- The node itself is no member.
        obtain ⟨_, m, hm, hmember⟩ := hq
        obtain rfl : n = m := Option.some.inj hm
        simp [member?, MemberKind.ofNodeKind?, hkind] at hmember
      · exact hchild
    · rename_i hblock
      refine (looseNames_eq_memberNames fun q hq => ?_).symm
      rcases (h q hq).2 with hq | ⟨hopened, hkind, _⟩
      · exact hq
      · simp [hopened, hkind] at hblock
  · rename_i hnamed
    exact (looseNames_eq_nil_of_forall fun q hq => hnamed (h q hq).1).symm

/-- Where every loose member of a body stands at a listed address, the body leaves the
listed names. -/
theorem flatMap_listedNames_eq {opened : Bool} {body : Node} (hd : body.declaration? = none)
    (h : ∀ q, body.LooseAt q →
      ∃ i n r, body.children[i]? = some n ∧ n.ListsAt opened r ∧ q = i :: r) :
    body.children.flatMap (listedNames bytes k opened) = looseNames bytes k body := by
  have hown : memberNames bytes k body = [] := by
    apply memberNames_eq_nil_of_loose
    intro hloose
    obtain ⟨i, n, r, _, _, he⟩ := h [] hloose
    cases he
  rw [looseNames_of_other hd, hown, List.nil_append]
  apply List.flatMap_congr
  intro c hc
  obtain ⟨i, hi⟩ := List.mem_iff_getElem?.mp hc
  apply listedNames_eq
  intro q hq
  obtain ⟨j, n, r, hn, hlists, he⟩ := h _ (hq.of_child hd hi)
  obtain ⟨rfl, rfl⟩ := List.cons.inj he
  obtain rfl : c = n := Option.some.inj (hi.symm.trans hn)
  exact hlists

/-! ## Members of a declaration inside a tree -/

theorem ownedNames_of_at? {root n : Node} {a : Address} (h : root.at? a = some n) :
    root.ownedNames bytes k a = n.ownedNames bytes k [] := by
  induction a generalizing root with
  | nil => rw [Option.some.inj h]
  | cons i a ih =>
    cases root with
    | mk l cs =>
      obtain ⟨c, hc, ha⟩ : ∃ c, cs[i]? = some c ∧ c.at? a = some n :=
        Option.bind_eq_some_iff.mp h
      rw [ownedNames_cons bytes k hc, ih ha]

theorem owner?_append {root n : Node} {a : Address} (h : root.at? a = some n) (q : Address) :
    root.owner? (a ++ q) = some a ↔ n.owner? q = some [] := by
  induction a generalizing root with
  | nil => rw [Option.some.inj h, List.nil_append]
  | cons i a ih =>
    cases root with
    | mk l cs =>
      obtain ⟨c, hc, ha⟩ : ∃ c, cs[i]? = some c ∧ c.at? a = some n :=
        Option.bind_eq_some_iff.mp h
      rw [List.cons_append, owner?_cons_eq_cons hc, ih ha]
      exact and_iff_right rfl

end Node

namespace Declaration

variable {d : Declaration} {body : Node}

theorem exists_bodyIndex? (h : d.body? = some body) :
    ∃ b, d.bodyIndex? = some b ∧ d.node.children[b]? = some body := by
  rw [d.body?_eq] at h
  exact Option.bind_eq_some_iff.mp h

theorem ownedNames_node (hd : d.node.declaration? = some d) :
    d.node.ownedNames bytes k [] = d.node.children.flatMap (Node.looseNames bytes k) := by
  have hsome : d.node.declaration?.isSome := by rw [hd]; rfl
  cases hn : d.node with
  | mk l cs =>
    rw [hn] at hsome
    rw [Node.ownedNames_nil bytes k hsome, Node.looseNamesAll_eq]
    rfl

theorem directNames_sublist (hd : d.node.declaration? = some d) (hbody : d.body? = some body)
    (hother : body.declaration? = none) :
    (d.directNames bytes k).Sublist (d.node.ownedNames bytes k []) := by
  obtain ⟨b, _, hb⟩ := exists_bodyIndex? hbody
  have hlisted : (d.directNames bytes k).Sublist (Node.looseNames bytes k body) := by
    rw [directNames_of_body hbody, Node.looseNames_of_other hother]
    refine List.Sublist.trans ?_ (List.sublist_append_right ..)
    exact List.Sublist.flatMap_right _ fun c _ => Node.listedNames_sublist _ c
  have hone := (List.singleton_sublist.mpr (List.mem_of_getElem? hb)).flatMap
    (Node.looseNames bytes k)
  rw [List.flatMap_singleton] at hone
  rw [ownedNames_node hd]
  exact hlisted.trans hone

theorem directNames_eq_ownedNames (hd : d.node.declaration? = some d) (hbody : d.body? = some body)
    (hother : body.declaration? = none)
    (h : ∀ q m, d.node.owner? q = some [] → d.node.at? q = some m → m.member?.isSome →
      d.ListsAt q) :
    d.directNames bytes k = d.node.ownedNames bytes k [] := by
  obtain ⟨b, hindex, hb⟩ := exists_bodyIndex? hbody
  have hsome : d.node.declaration?.isSome := by rw [hd]; rfl
  have hlists : ∀ i c q, d.node.children[i]? = some c → c.LooseAt q →
      i = b ∧ ∃ j n r, body.children[j]? = some n ∧ n.ListsAt d.opensBlocks r ∧ q = j :: r := by
    intro i c q hc hq
    obtain ⟨howner, m, hat, hm⟩ := hq
    have hown : d.node.owner? (i :: q) = some [] ∧ d.node.at? (i :: q) = some m := by
      cases hn : d.node with
      | mk l cs =>
        rw [hn] at hc hsome
        exact ⟨(Node.owner?_cons_eq_nil hc hsome q).mpr howner, (Node.at?_cons hc q).trans hat⟩
    obtain ⟨b', body', j, n, r, hindex', hb', hn, hplace, he⟩ := h _ _ hown.1 hown.2 hm
    obtain rfl : b = b' := Option.some.inj (hindex.symm.trans hindex')
    obtain rfl : body = body' := Option.some.inj (hb.symm.trans hb')
    obtain ⟨rfl, rfl⟩ := List.cons.inj he
    exact ⟨rfl, j, n, r, hn, hplace, rfl⟩
  have hsingle : d.node.children.flatMap (Node.looseNames bytes k) =
      Node.looseNames bytes k body := by
    rw [← Node.flatMap_zipIdx_fst]
    apply Node.flatMap_zipIdx_single hb
    rintro ⟨c, i⟩ hx hi
    apply Node.looseNames_eq_nil_of_forall
    intro q hq
    exact hi (hlists i c q (List.mk_mem_zipIdx_iff_getElem?.mp hx) hq).1
  rw [ownedNames_node hd, hsingle, directNames_of_body hbody]
  exact Node.flatMap_listedNames_eq hother fun q hq => (hlists b body q hb hq).2

end Declaration

end Names

theorem Source.exists_class_of_name {s : Source} {a : Address} {d : Declaration} {name : String}
    (hd : s.root.declarationAt? a = some d) (hname : d.name? s.bytes = some name) :
    ∃ i : Nat, (s.root.namedAddresses s.bytes)[i]? = some a ∧
      (s.root.classesIn s.bytes)[i]? =
        some ⟨name, s.root.ownedNames s.bytes .method a,
          d.implicitFields s.bytes ++ s.root.ownedNames s.bytes .field a⟩ := by
  have hat : s.root.nameAt? s.bytes a = some name := by
    rw [Node.nameAt?, hd, Option.bind_some, hname]
  have hmem : a ∈ s.root.namedAddresses s.bytes := by
    rw [Node.namedAddresses, List.mem_filter, hat]
    exact ⟨Node.mem_addresses_of_at? (Node.at?_of_declarationAt? hd).1, rfl⟩
  obtain ⟨i, hi⟩ := List.mem_iff_getElem?.mp hmem
  refine ⟨i, hi, ?_⟩
  have hclass := congrArg (fun xs => xs[i]?) (s.root.map_namedAddresses s.bytes)
  simp only [List.getElem?_map, hi, Option.map_some] at hclass
  rw [Node.classAt?, hd, Option.bind_some, hname, Option.map_some] at hclass
  obtain ⟨c, hc, he⟩ := Option.map_eq_some_iff.mp hclass.symm
  rw [hc, Option.some.inj he]

/-- A declaration with a name, whose body is no declaration itself, is a class of the
outline. The names of its direct methods are among the methods of that class, in order,
and its implicit fields followed by the names of its direct fields are among the fields.
They are all of them if every member that the declaration owns is a named child of its
body or, in an enumeration, of a named block after the constants. -/
theorem Source.outline_has_direct_members {s : Source} {a : Address} {d : Declaration}
    {name : String} {body : Node} (hd : s.root.declarationAt? a = some d)
    (hname : d.name? s.bytes = some name) (hbody : d.body? = some body)
    (hother : body.declaration? = none) :
    ∃ (o : Outline) (i : Nat) (c : ClassInfo), s.outline = .ok o ∧
      (s.root.namedAddresses s.bytes)[i]? = some a ∧ o.classes[i]? = some c ∧ c.name = name ∧
      (d.directNames s.bytes .method).Sublist c.methods ∧
      (d.implicitFields s.bytes ++ d.directNames s.bytes .field).Sublist c.fields ∧
      ((∀ b m, s.root.owner? b = some a → s.root.at? b = some m → m.member?.isSome →
          ∃ q, b = a ++ q ∧ d.ListsAt q) →
        d.directNames s.bytes .method = c.methods ∧
        d.implicitFields s.bytes ++ d.directNames s.bytes .field = c.fields) := by
  obtain ⟨i, hi, hclass⟩ := exists_class_of_name hd hname
  obtain ⟨hat, hnode⟩ := Node.at?_of_declarationAt? hd
  have houtline : s.outline = .ok ⟨s.root.classesIn s.bytes⟩ :=
    outline_of_named (by rw [Node.nameAt?, hd, Option.bind_some, hname])
  refine ⟨_, i, _, houtline, hi, hclass, rfl, ?_, ?_, ?_⟩
  · rw [Node.ownedNames_of_at? hat]
    exact Declaration.directNames_sublist hnode hbody hother
  · show List.Sublist _ (d.implicitFields s.bytes ++ s.root.ownedNames s.bytes .field a)
    rw [Node.ownedNames_of_at? hat]
    exact (Declaration.directNames_sublist hnode hbody hother).append_left _
  · intro h
    have hlists : ∀ q m, d.node.owner? q = some [] → d.node.at? q = some m → m.member?.isSome →
        d.ListsAt q := by
      intro q m howner hm hmember
      have habove : s.root.at? (a ++ q) = some m := by
        rw [Node.at?_append, hat, Option.bind_some, hm]
      obtain ⟨q', he, hq'⟩ := h _ m ((Node.owner?_append hat q).mpr howner) habove hmember
      rwa [List.append_cancel_left he]
    simp only [Node.ownedNames_of_at? hat,
      Declaration.directNames_eq_ownedNames hnode hbody hother hlists, and_self]

def constantBodyText : String :=
  "enum E" ++ braced ("A" ++ braced "int x;" ++ ";int f;int m();")

/-- The body in that text: a field stands in the body of the constant `A`, another one
and a method stand in the block after it. -/
def constantBodyTree : Node :=
  .plain "enum_body" 6 32 (some .body) [
    .openingBrace 6,
    .plain "enum_constant" 7 16 none [
      .plain "identifier" 7 8 (some .name) [],
      .plain "class_body" 8 16 (some .body) [.openingBrace 8, bareFieldTree 9,
        .closingBrace 15]],
    .plain "enum_body_declarations" 16 31 none [
      .token ";" 16,
      bareFieldTree 17,
      .plain "method_declaration" 23 31 none [
        .plain "integral_type" 23 26 none [],
        .plain "identifier" 27 28 (some .name) [],
        .plain "formal_parameters" 28 30 (some .parameters) []]],
    .closingBrace 31]

def constantBodyEnum : Declaration :=
  ⟨.enumeration, .plain "enum_declaration" 0 32 none [
    .plain "identifier" 5 6 (some .name) [],
    constantBodyTree]⟩

def constantBodySource : Source :=
  ⟨.plain "program" 0 32 none [constantBodyEnum.node], Utf8.encode constantBodyText, none⟩

/-- The class of the enumeration has the members of the block, and nothing of the
constant's body. -/
theorem outline_has_members_after_constants :
    ∃ o c, constantBodySource.outline = .ok o ∧ c ∈ o.classes ∧ c = ⟨"E", ["m"], ["f"]⟩ ∧
      constantBodyEnum.directNames constantBodySource.bytes .method = c.methods ∧
      constantBodyEnum.implicitFields constantBodySource.bytes ++
        constantBodyEnum.directNames constantBodySource.bytes .field = c.fields := by
  have hname : constantBodyEnum.name? constantBodySource.bytes = some "E" := by decide +kernel
  have hmethods : constantBodyEnum.directNames constantBodySource.bytes .method = ["m"] := by
    decide +kernel
  have hfields : constantBodyEnum.implicitFields constantBodySource.bytes ++
      constantBodyEnum.directNames constantBodySource.bytes .field = ["f"] := by decide +kernel
  have hplaces : ∀ b ∈ constantBodySource.root.addresses,
      ((constantBodySource.root.at? b).bind Node.member?).isSome →
      constantBodySource.root.owner? b = some [0] → b = [0, 1, 2, 1] ∨ b = [0, 1, 2, 2] := by
    decide +kernel
  obtain ⟨o, i, ⟨name, methods, fields⟩, houtline, _, hc, rfl, _, _, hall⟩ :=
    @Source.outline_has_direct_members constantBodySource [0] constantBodyEnum "E"
      constantBodyTree rfl hname rfl rfl
  obtain ⟨rfl, rfl⟩ := hall fun b m howner hm hmember => by
    rcases hplaces b (Node.mem_addresses_of_at? hm) (by rwa [hm]) howner with rfl | rfl
    · exact ⟨[1, 2, 1], rfl, 1, _, 2, _, [1], rfl, rfl, rfl,
        ⟨rfl, Or.inr ⟨rfl, rfl, 1, _, rfl, rfl, rfl⟩⟩, rfl⟩
    · exact ⟨[1, 2, 2], rfl, 1, _, 2, _, [2], rfl, rfl, rfl,
        ⟨rfl, Or.inr ⟨rfl, rfl, 2, _, rfl, rfl, rfl⟩⟩, rfl⟩
  refine ⟨o, _, houtline, List.mem_of_getElem? hc, ?_, rfl, rfl⟩
  exact congrArg₂ (ClassInfo.mk "E") hmethods hfields

end ClassOutline
