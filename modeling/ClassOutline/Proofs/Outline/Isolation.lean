import ClassOutline.Proofs.Outline.Extraction
import ClassOutline.Proofs.Outline.Insertion

/-!
# A class-like subtree stands for itself

What a node reads of a child is little: its role, range and flags, whether it is
a class body or a parameter, and the names in it where the child is a declarator
or a header. Two children that agree on this can replace each other, and the
class of the parent stays the same (`StandsFor.below`). A class-like node leaves
no names to the outside, so it can be replaced by anything silent: its classes
are one block of the list, and nothing around them changes.
-/

namespace ClassOutline

/-- The kinds that the reading of a tree asks for. -/
def testedKinds : List String :=
  ["class_declaration", "interface_declaration", "enum_declaration", "record_declaration",
    "annotation_type_declaration", "enum_constant", "object_creation_expression", "class_body",
    "enum_body_declarations", "formal_parameter", "method_declaration",
    "annotation_type_element_declaration", "field_declaration", "constant_declaration",
    "\x7b", "\x7d"]

namespace Node

def nameText? (bytes : Bytes) (n : Node) : Option String :=
  (n.childAs? .name).map (·.trimmedText bytes)

def parameterNames (bytes : Bytes) (n : Node) : List String :=
  (n.namedChildren.filter (·.kind = "formal_parameter")).filterMap (nameText? bytes)

/-- The second node can take the place of the first one: a parent reads the same
of both, and they leave the same names to the declarations around. -/
structure StandsFor (bytes : Bytes) (c c' : Node) : Prop where
  named : c'.label.named = c.label.named
  role : c'.label.role = c.label.role
  text : c'.trimmedText bytes = c.trimmedText bytes
  classBody : decide (c'.kind = "class_body") = decide (c.kind = "class_body")
  parameter : decide (c'.kind = "formal_parameter") = decide (c.kind = "formal_parameter")
  name : c.label.role = some .declarator ∨ c.kind = "formal_parameter" →
    nameText? bytes c' = nameText? bytes c
  header : c.label.role = some .parameters → parameterNames bytes c' = parameterNames bytes c
  loose : ∀ k, looseNames bytes k c' = looseNames bytes k c

theorem StandsFor.refl (bytes : Bytes) (c : Node) : StandsFor bytes c c :=
  ⟨rfl, rfl, rfl, rfl, rfl, fun _ => rfl, fun _ => rfl, fun _ => rfl⟩

/-! ## One child replaced -/

section Replace

variable {α : Type} {c c' : Node} {p : Node → Bool}

theorem map_find?_replace {f : Node → α} (before after : List Node) (hp : p c' = p c)
    (hf : p c = true → f c' = f c) :
    ((before ++ c' :: after).find? p).map f = ((before ++ c :: after).find? p).map f := by
  rw [List.find?_append, List.find?_append, List.find?_cons, List.find?_cons, hp]
  cases hpc : p c with
  | true =>
    cases before.find? p with
    | none => exact congrArg some (hf hpc)
    | some b => rfl
  | false => rfl

theorem filterMap_filter_replace {f : Node → Option α} (before after : List Node)
    (hp : p c' = p c) (hf : p c = true → f c' = f c) :
    ((before ++ c' :: after).filter p).filterMap f =
      ((before ++ c :: after).filter p).filterMap f := by
  simp only [List.filter_append, List.filterMap_append, List.filter_cons, hp]
  cases hpc : p c with
  | true => simp [hf hpc, List.filterMap_cons]
  | false => rfl

end Replace

section Parent

variable {bytes : Bytes} {c c' : Node} (l : Label) (before after : List Node)

theorem StandsFor.nameText? (h : StandsFor bytes c c') :
    nameText? bytes (.mk l (before ++ c' :: after)) =
      nameText? bytes (.mk l (before ++ c :: after)) := by
  unfold Node.nameText? childAs? children
  exact map_find?_replace before after (by rw [h.role]) fun _ => h.text

theorem StandsFor.parameterNames (h : StandsFor bytes c c') :
    parameterNames bytes (.mk l (before ++ c' :: after)) =
      parameterNames bytes (.mk l (before ++ c :: after)) := by
  unfold Node.parameterNames namedChildren children
  rw [List.filter_filter, List.filter_filter]
  refine filterMap_filter_replace before after (by rw [h.named, h.parameter]) fun hc => ?_
  simp only [Bool.and_eq_true, decide_eq_true_eq] at hc
  exact h.name (Or.inr hc.1)

theorem StandsFor.createsClass (h : StandsFor bytes c c') :
    createsClass (.mk l (before ++ c' :: after)) =
      createsClass (.mk l (before ++ c :: after)) := by
  have hbody : ((Node.mk l (before ++ c' :: after)).childAs? .body).isSome =
      ((Node.mk l (before ++ c :: after)).childAs? .body).isSome := by
    simp only [childAs?, children, List.isSome_find?, List.any_append, List.any_cons, h.role]
  have hclass : (Node.mk l (before ++ c' :: after)).namedChildren.any (·.kind = "class_body") =
      (Node.mk l (before ++ c :: after)).namedChildren.any (·.kind = "class_body") := by
    simp only [namedChildren, children, List.any_filter, List.any_append, List.any_cons, h.named,
      h.classBody]
  rw [Node.createsClass, Node.createsClass, hbody, hclass]
  rfl

theorem StandsFor.declaration? (h : StandsFor bytes c c') :
    declaration? (.mk l (before ++ c' :: after)) =
      (declaration? (.mk l (before ++ c :: after))).map fun d =>
        ⟨d.kind, .mk l (before ++ c' :: after)⟩ := by
  have hkind : (Node.mk l (before ++ c' :: after)).kind =
      (Node.mk l (before ++ c :: after)).kind := rfl
  rw [Node.declaration?, Node.declaration?, hkind, h.createsClass]
  cases DeclarationKind.ofNodeKind? (Node.mk l (before ++ c :: after)).kind with
  | some k => rfl
  | none => cases (Node.mk l (before ++ c :: after)).createsClass <;> rfl

theorem name?_eq_nameText? (bytes : Bytes) (k : DeclarationKind) (n : Node) :
    Declaration.name? ⟨k, n⟩ bytes =
      if k = .anonymous then none
      else (nameText? bytes n).bind fun t => if t = "" then none else some t := by
  unfold Declaration.name? nameText?
  cases k <;> cases n.childAs? .name <;> simp

theorem implicitFields_eq (bytes : Bytes) (k : DeclarationKind) (n : Node) :
    Declaration.implicitFields ⟨k, n⟩ bytes =
      if k = .record then ((n.childAs? .parameters).map (parameterNames bytes)).getD []
      else [] := by
  unfold Declaration.implicitFields
  cases k <;> cases n.childAs? .parameters <;> rfl

theorem StandsFor.implicitFields (h : StandsFor bytes c c') (k : DeclarationKind) :
    Declaration.implicitFields ⟨k, .mk l (before ++ c' :: after)⟩ bytes =
      Declaration.implicitFields ⟨k, .mk l (before ++ c :: after)⟩ bytes := by
  rw [implicitFields_eq, implicitFields_eq]
  unfold childAs? children
  rw [map_find?_replace before after (by rw [h.role]) fun hc => h.header (by simpa using hc)]

theorem StandsFor.memberNames (h : StandsFor bytes c c') (k : MemberKind) :
    memberNames bytes k (.mk l (before ++ c' :: after)) =
      memberNames bytes k (.mk l (before ++ c :: after)) := by
  have hfields : ((Node.mk l (before ++ c' :: after)).childrenAs .declarator).filterMap
      (Node.nameText? bytes) =
        ((Node.mk l (before ++ c :: after)).childrenAs .declarator).filterMap
          (Node.nameText? bytes) :=
    filterMap_filter_replace before after (by rw [h.role]) fun hc =>
      h.name (Or.inl (by simpa using hc))
  have hnames : ∀ j, Member.names ⟨j, .mk l (before ++ c' :: after)⟩ bytes =
      Member.names ⟨j, .mk l (before ++ c :: after)⟩ bytes := by
    intro j
    cases j with
    | method => exact congrArg Option.toList (h.nameText? l before after)
    | field => exact hfields
  unfold Node.memberNames member?
  simp only [kind, label]
  cases MemberKind.ofNodeKind? l.kind with
  | none => rfl
  | some j => simp only [Option.map_some, hnames]

theorem StandsFor.looseNamesAll (h : StandsFor bytes c c') (k : MemberKind) :
    looseNamesAll bytes k (before ++ c' :: after) =
      looseNamesAll bytes k (before ++ c :: after) := by
  simp only [looseNamesAll_eq, List.flatMap_append, List.flatMap_cons, h.loose]

/-- Nodes that differ in a child that stands for the other can replace each other. -/
theorem StandsFor.below (h : StandsFor bytes c c') :
    StandsFor bytes (.mk l (before ++ c :: after)) (.mk l (before ++ c' :: after)) where
  named := rfl
  role := rfl
  text := rfl
  classBody := rfl
  parameter := rfl
  name _ := h.nameText? l before after
  header _ := h.parameterNames l before after
  loose k := by
    rw [looseNames, looseNames, h.declaration?, Option.isSome_map, h.memberNames, h.looseNamesAll]

theorem StandsFor.ownClass? (h : StandsFor bytes c c') :
    (Node.mk l (before ++ c' :: after)).declaration?.bind
        (ownClass? bytes · (before ++ c' :: after)) =
      (Node.mk l (before ++ c :: after)).declaration?.bind
        (ownClass? bytes · (before ++ c :: after)) := by
  rw [h.declaration?]
  cases hd : (Node.mk l (before ++ c :: after)).declaration? with
  | none => rfl
  | some d =>
    have hnode : d = ⟨d.kind, .mk l (before ++ c :: after)⟩ := by
      rw [← node_of_declaration? hd]
    rw [hnode]
    simp only [Option.map_some, Option.bind_some, Node.ownClass?, name?_eq_nameText?, h.nameText?,
      h.implicitFields, h.looseNamesAll]

end Parent

/-! ## Anywhere in a tree -/

/-- Around an address there are two lists of classes that do not depend on what
stands there, as long as it stands for one and the same node. -/
theorem exists_classes_around (bytes : Bytes) {root m : Node} {q : Address}
    (hm : root.at? q = some m) (e₀ : Node) :
    ∃ before after, ∀ e, StandsFor bytes e₀ e →
      StandsFor bytes (root.modifyAt (fun _ => e₀) q) (root.modifyAt (fun _ => e) q) ∧
      (root.modifyAt (fun _ => e) q).classesIn bytes =
        before ++ e.classesIn bytes ++ after := by
  induction q generalizing root with
  | nil => exact ⟨[], [], fun e he => ⟨he, by simp [modifyAt]⟩⟩
  | cons i q ih =>
    cases root with
    | mk l cs =>
      obtain ⟨c, hc, hcm⟩ := Option.bind_eq_some_iff.mp hm
      obtain ⟨before, after, haround⟩ := ih hcm
      rw [children] at hc
      obtain ⟨hi, rfl⟩ := List.getElem?_eq_some_iff.mp hc
      have hmodify : ∀ e, (mk l cs).modifyAt (fun _ => e) (i :: q) =
          mk l (cs.take i ++ (cs[i].modifyAt (fun _ => e) q) :: cs.drop (i + 1)) := by
        intro e
        rw [modifyAt, List.modify_eq_take_cons_drop hi]
      -- The class of the root itself comes first, then those of the children before.
      let own := (mk l (cs.take i ++ (cs[i].modifyAt (fun _ => e₀) q) :: cs.drop (i + 1)))
      refine ⟨(own.declaration?.bind (ownClass? bytes · own.children)).toList ++
        (cs.take i).flatMap (classesIn bytes) ++ before,
        after ++ (cs.drop (i + 1)).flatMap (classesIn bytes), ?_⟩
      intro e he
      obtain ⟨hstands, hclasses⟩ := haround e he
      rw [hmodify, hmodify]
      refine ⟨hstands.below .., ?_⟩
      rw [classesIn_mk, hstands.ownClass?, List.flatMap_append, List.flatMap_cons]
      change _ ++ (_ ++ (classesIn bytes (cs[i].modifyAt (fun _ => e) q) ++ _)) = _
      rw [hclasses]
      simp only [own, children, List.append_assoc]

def hollow (kind : String) (n : Node) : Node :=
  .mk { n.label with kind := kind } []

def clearError : Node → Node
  | mk l cs => mk { l with hasError := false } cs

theorem classesIn_clearError (bytes : Bytes) (n : Node) :
    n.clearError.classesIn bytes = n.classesIn bytes := by
  cases n with
  | mk l cs =>
    have hgrown : Grown bytes bytes (mk l cs) (mk l cs).clearError :=
      .mk ⟨rfl, rfl, rfl, fun _ => rfl⟩ (Interleaved.self bytes cs)
    have hown := hgrown.ownClass?_eq fun _ => rfl
    rw [clearError, classesIn_mk, classesIn_mk, hown]

section Hollow

variable {kind : String} {d : Node}

theorem kind_of_declaration? {n : Node} (h : n.declaration?.isSome) :
    n.kind ≠ "class_body" ∧ n.kind ≠ "formal_parameter" := by
  constructor <;>
  · intro hk
    simp [declaration?, DeclarationKind.ofNodeKind?, createsClass, hk] at h

theorem hollow_silent (hkind : kind ∉ testedKinds) (n : Node) :
    ∀ x ∈ (n.hollow kind).preorder, x.declaration? = none ∧ x.member? = none := by
  simp only [testedKinds, List.mem_cons, List.not_mem_nil, or_false, not_or] at hkind
  obtain ⟨h₁, h₂, h₃, h₄, h₅, h₆, h₇, _, _, _, h₈, h₉, h₁₀, h₁₁, _⟩ := hkind
  intro x hx
  have he : x = n.hollow kind := by simpa [hollow, preorder_mk] using hx
  have hk : x.kind = kind := by rw [he]; rfl
  constructor
  · simp [declaration?, DeclarationKind.ofNodeKind?, createsClass, hk, h₁, h₂, h₃, h₄, h₅, h₆, h₇]
  · simp [member?, MemberKind.ofNodeKind?, hk, h₈, h₉, h₁₀, h₁₁]

theorem classesIn_hollow (hkind : kind ∉ testedKinds) (bytes : Bytes) (n : Node) :
    (n.hollow kind).classesIn bytes = [] := by
  rw [classesIn, placedClasses_eq_nil fun x hx => (hollow_silent hkind n x hx).1, List.map_nil]

/-- Any class-like node of the same range, role and flags stands for the hollow one. -/
theorem standsFor_hollow (hkind : kind ∉ testedKinds) (bytes : Bytes) {e : Node}
    (he : e.declaration?.isSome) (hlabel : e.label = { d.label with kind := e.kind })
    (hrole : d.label.role ≠ some .declarator ∧ d.label.role ≠ some .parameters) :
    StandsFor bytes (d.hollow kind) e := by
  obtain ⟨hbody, hparam⟩ := kind_of_declaration? he
  have hk : kind ≠ "class_body" ∧ kind ≠ "formal_parameter" := by
    simp only [testedKinds, List.mem_cons, List.not_mem_nil, or_false, not_or] at hkind
    exact ⟨hkind.2.2.2.2.2.2.2.1, hkind.2.2.2.2.2.2.2.2.2.1⟩
  have hkept : (d.hollow kind).kind = kind := rfl
  constructor
  · rw [hlabel]
    rfl
  · rw [hlabel]
    rfl
  · rw [trimmedText, hlabel]
    rfl
  · rw [hkept, decide_eq_false hbody, decide_eq_false hk.1]
  · rw [hkept, decide_eq_false hparam, decide_eq_false hk.2]
  · rintro (hr | hf)
    · exact absurd hr hrole.1
    · exact absurd hf hk.2
  · intro hr
    exact absurd hr hrole.2
  · intro k
    rw [looseNames_eq_nil bytes (hollow_silent hkind d)]
    cases e with
    | mk l cs => rw [looseNames, if_pos he]

theorem hasError_modifyAt {root : Node} {q : Address} (hd : root.at? q = some d) {f : Node → Node}
    (hf : (f d).label.hasError = d.label.hasError) :
    (root.modifyAt f q).label.hasError = root.label.hasError := by
  cases q with
  | nil =>
    have he : root = d := Option.some.inj hd
    rw [he]
    exact hf
  | cons i q =>
    cases root with
    | mk l cs => rfl

theorem modifyAt_const {root : Node} {q : Address} (hd : root.at? q = some d) (f : Node → Node) :
    root.modifyAt f q = root.modifyAt (fun _ => f d) q := by
  induction q generalizing root with
  | nil =>
    have he : root = d := Option.some.inj hd
    rw [he, modifyAt, modifyAt]
  | cons i q ih =>
    cases root with
    | mk l cs =>
      obtain ⟨c, hc, hcd⟩ := Option.bind_eq_some_iff.mp hd
      rw [children] at hc
      obtain ⟨hi, rfl⟩ := List.getElem?_eq_some_iff.mp hc
      rw [modifyAt, modifyAt, List.modify_eq_take_cons_drop hi, List.modify_eq_take_cons_drop hi,
        ih hcd]

theorem modifyAt_id (q : Address) (root : Node) : root.modifyAt id q = root := by
  induction q generalizing root with
  | nil => rfl
  | cons i q ih =>
    cases root with
    | mk l cs =>
      have hid : modifyAt id q = id := funext ih
      rw [modifyAt, hid, List.modify_id]

end Hollow

end Node

/-- The classes of a class-like subtree are one block in the outline of a source,
the outline of the subtree alone. The rest is the outline of the source in which
a childless node of an unknown kind, with the same range, role and flags, stands
there instead. It stays the same with any other class-like node in that place. -/
theorem Source.outline_around_declaration {s : Source} {q : Address} {d : Node} {kind : String}
    (hclear : s.root.label.hasError = false) (hd : s.root.at? q = some d)
    (hclass : d.declaration?.isSome) (hdeclarator : d.label.role ≠ some .declarator)
    (hparameters : d.label.role ≠ some .parameters) (hkind : kind ∉ testedKinds) :
    ∃ before inside after,
      s.outline = .ok ⟨before ++ inside ++ after⟩ ∧
      Source.outline ⟨d.clearError, s.bytes, s.origin⟩ = .ok ⟨inside⟩ ∧
      Source.outline ⟨s.root.modifyAt (Node.hollow kind) q, s.bytes, s.origin⟩ =
        .ok ⟨before ++ after⟩ ∧
      ∀ e : Node, e.declaration?.isSome → e.label = { d.label with kind := e.kind } →
        ∃ other, Source.outline ⟨e.clearError, s.bytes, s.origin⟩ = .ok ⟨other⟩ ∧
          Source.outline ⟨s.root.modifyAt (fun _ => e) q, s.bytes, s.origin⟩ =
            .ok ⟨before ++ other ++ after⟩ := by
  have hstands : ∀ e : Node, e.declaration?.isSome → e.label = { d.label with kind := e.kind } →
      Node.StandsFor s.bytes (d.hollow kind) e := fun e he hlabel =>
    Node.standsFor_hollow hkind s.bytes he hlabel ⟨hdeclarator, hparameters⟩
  obtain ⟨before, after, haround⟩ := Node.exists_classes_around s.bytes hd (d.hollow kind)
  have halone : ∀ e : Node, Source.outline ⟨e.clearError, s.bytes, s.origin⟩ =
      .ok ⟨e.classesIn s.bytes⟩ := by
    intro e
    rw [← Node.classesIn_clearError]
    refine Source.outline_of_clear ?_
    cases e with
    | mk l cs => rfl
  have hput : ∀ f : Node → Node, (f d).label.hasError = d.label.hasError →
      Node.StandsFor s.bytes (d.hollow kind) (f d) →
      Source.outline ⟨s.root.modifyAt f q, s.bytes, s.origin⟩ =
        .ok ⟨before ++ (f d).classesIn s.bytes ++ after⟩ := by
    intro f hf hs
    have hroot := (Node.hasError_modifyAt hd hf).trans hclear
    rw [Source.outline_of_clear hroot, Node.modifyAt_const hd, (haround _ hs).2]
  refine ⟨before, d.classesIn s.bytes, after, ?_, halone d, ?_, ?_⟩
  · have hself := hput id rfl (hstands d hclass rfl)
    rwa [Node.modifyAt_id] at hself
  · have hhollow := hput (Node.hollow kind) rfl (.refl s.bytes _)
    rwa [Node.classesIn_hollow hkind, List.append_nil] at hhollow
  · intro e he hlabel
    exact ⟨_, halone e, hput (fun _ => e) (by rw [hlabel]) (hstands e he hlabel)⟩

/-- The tree of a field without a value, of a type with three letters. -/
def bareFieldTree (start : Nat) : Node :=
  .plain "field_declaration" start (start + 6) none [
    .plain "integral_type" start (start + 3) none [],
    .plain "variable_declarator" (start + 4) (start + 5) (some .declarator) [
      .plain "identifier" (start + 4) (start + 5) (some .name) []]]

def anonymousClassText : String :=
  "class A" ++ braced ("int y=new B()" ++ braced ("class D" ++ braced "int x;") ++ ";int z;")

def anonymousClassTree : Node :=
  .plain "object_creation_expression" 14 38 none [
    .plain "type_identifier" 18 19 none [],
    .plain "argument_list" 19 21 none [],
    .plain "class_body" 21 38 none [
      .openingBrace 21,
      .plain "class_declaration" 22 37 none [
        .plain "identifier" 28 29 (some .name) [],
        .plain "class_body" 29 37 (some .body) [.openingBrace 29, bareFieldTree 30,
          .closingBrace 36]],
      .closingBrace 37]]

def aroundAnonymousTree : Node :=
  .plain "program" 0 46 none [
    .plain "class_declaration" 0 46 none [
      .plain "identifier" 6 7 (some .name) [],
      .plain "class_body" 7 46 (some .body) [
        .openingBrace 7,
        .plain "field_declaration" 8 39 none [
          .plain "integral_type" 8 11 none [],
          .plain "variable_declarator" 12 38 (some .declarator) [
            .plain "identifier" 12 13 (some .name) [],
            anonymousClassTree],
          .token ";" 38],
        bareFieldTree 39,
        .closingBrace 45]]]

/-- The class inside the anonymous one is listed on its own, and the fields on
both sides of it stay with the outer class. -/
theorem outline_around_anonymous_class :
    ∃ before inside after,
      Source.outline ⟨aroundAnonymousTree, Utf8.encode anonymousClassText, none⟩ =
        .ok ⟨before ++ inside ++ after⟩ ∧
      Source.outline ⟨aroundAnonymousTree.modifyAt (Node.hollow "lambda_expression")
        [0, 1, 1, 1, 1], Utf8.encode anonymousClassText, none⟩ = .ok ⟨before ++ after⟩ ∧
      inside = [⟨"D", [], ["x"]⟩] ∧ before ++ after = [⟨"A", [], ["y", "z"]⟩] := by
  obtain ⟨before, inside, after, hall, halone, hrest, _⟩ :=
    @Source.outline_around_declaration
      ⟨aroundAnonymousTree, Utf8.encode anonymousClassText, none⟩ [0, 1, 1, 1, 1]
      anonymousClassTree "lambda_expression" rfl rfl rfl (by decide) (by decide) (by decide)
  have hinside : Source.outline ⟨anonymousClassTree.clearError, Utf8.encode anonymousClassText,
      none⟩ = .ok ⟨[⟨"D", [], ["x"]⟩]⟩ := by decide +kernel
  have hothers : Source.outline ⟨aroundAnonymousTree.modifyAt (Node.hollow "lambda_expression")
      [0, 1, 1, 1, 1], Utf8.encode anonymousClassText, none⟩ =
        .ok ⟨[⟨"A", [], ["y", "z"]⟩]⟩ := by decide +kernel
  refine ⟨before, inside, after, hall, hrest, ?_, ?_⟩
  · simpa using halone.symm.trans hinside
  · simpa using hrest.symm.trans hothers

end ClassOutline
