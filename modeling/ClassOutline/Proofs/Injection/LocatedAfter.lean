import ClassOutline.Proofs.Injection.OutlineAfter
import ClassOutline.Proofs.Locate.InsertionPoint

/-!
# The locator after an injection

Methods put before the brace of a listed declaration, and offsets that move with
the bytes, leave the locator's list as it was: the same addresses, names and
kinds, and the spans of the bodies moved (`placedDeclarations_inserted`). The
relation `Moved` between two declarations is carried along the locator's own way,
from the declaration with the new methods up through the member lists to the
root. Of a node on this way the locator reads the labels of its children, never
more, so roles and contents of the new nodes do not matter.
-/

namespace ClassOutline

/-! ## Moved spans -/

def BodySpan.shift (offset width : Nat) (s : BodySpan) : BodySpan :=
  ⟨if (offset : Int) ≤ s.start then s.start + width else s.start,
    if (offset : Int) < s.stop then s.stop + width else s.stop⟩

theorem braceSpan?_shift (offset width : Nat) (labels : List Label) :
    braceSpan? (labels.map (Label.shift offset width)) =
      (braceSpan? labels).map (BodySpan.shift offset width) := by
  unfold braceSpan?
  rw [List.head?_map, List.getLast?_map]
  cases labels.head? with
  | none => rfl
  | some opening =>
    cases labels.getLast? with
    | none => rfl
    | some closing =>
      simp only [Option.map_some, Option.bind_some]
      split
      · rename_i h
        rw [if_pos (by exact h), Option.map_some]
        simp only [Label.shift, BodySpan.shift, Option.some.injEq, BodySpan.mk.injEq]
        constructor <;> split <;> split <;> omega
      · rename_i h
        rw [if_neg (by exact h), Option.map_none]

/-! ## Declarations that the locator takes for the same -/

structure Site where
  address : Address
  kind : DeclarationKind
  span? : Option BodySpan
  deriving DecidableEq, Repr

def Placed.site (x : Placed) : Site :=
  ⟨x.1, x.2.kind, x.2.bodySpan?⟩

def Site.shift (offset width : Nat) (x : Site) : Site :=
  { x with span? := x.span?.map (BodySpan.shift offset width) }

def Source.site? (s : Source) (name : String) (nested : Bool) : Option Site :=
  (s.placedNamed? name nested).map Placed.site

/-- Related declarations at one address. -/
inductive AtOnePlace (R : Declaration → Declaration → Prop) : Placed → Placed → Prop where
  | mk {d d' : Declaration} (a : Address) (h : R d d') : AtOnePlace R (a, d) (a, d')

namespace Declaration

/-- The second declaration reads as the first one to the locator, with its body
span and those of all members below moved. -/
inductive Moved (bytes bytes' : Bytes) (offset width : Nat) : Declaration → Declaration → Prop where
  | mk {d d' : Declaration} (kind : d'.kind = d.kind) (name : d'.name? bytes' = d.name? bytes)
      (span : d'.bodySpan? = d.bodySpan?.map (BodySpan.shift offset width))
      (members : List.Forall₂ (AtOnePlace (Moved bytes bytes' offset width)) d.placedMembers
        d'.placedMembers) : Moved bytes bytes' offset width d d'

end Declaration

def MovedAll (bytes bytes' : Bytes) (offset width : Nat) : List Placed → List Placed → Prop :=
  List.Forall₂ (AtOnePlace (Declaration.Moved bytes bytes' offset width))

section MovedAll

variable {bytes bytes' : Bytes} {offset width : Nat}

theorem MovedAll.map_address {xs xs' : List Placed} (h : MovedAll bytes bytes' offset width xs xs')
    (f : Address → Address) :
    MovedAll bytes bytes' offset width (xs.map fun y => (f y.1, y.2))
      (xs'.map fun y => (f y.1, y.2)) := by
  induction h with
  | nil => exact .nil
  | cons hx _ ih =>
    cases hx with
    | mk a hd => exact .cons (.mk (f a) hd) ih

theorem MovedAll.append {xs xs' ys ys' : List Placed}
    (hx : MovedAll bytes bytes' offset width xs xs')
    (hy : MovedAll bytes bytes' offset width ys ys') :
    MovedAll bytes bytes' offset width (xs ++ ys) (xs' ++ ys') :=
  List.rel_append hx hy

theorem MovedAll.listPlaced {nested : Bool} (k : Nat) {xs xs' : List Placed}
    (h : MovedAll bytes bytes' offset width xs xs') :
    MovedAll bytes bytes' offset width (listPlaced nested k xs)
      (ClassOutline.listPlaced nested k xs') := by
  induction k generalizing xs xs' with
  | zero => exact .nil
  | succ k ih =>
    cases h with
    | nil => exact .nil
    | cons hx hrest =>
      cases hx with
      | mk a hd =>
        refine .cons (.mk a hd) (ih (MovedAll.append ?_ hrest))
        cases nested with
        | false => exact .nil
        | true =>
          cases hd with
          | mk _ _ _ hmembers => exact MovedAll.map_address hmembers (a ++ ·)

/-- Searching both lists for a name ends at the same address, or in neither. -/
theorem MovedAll.find? {xs xs' : List Placed} (h : MovedAll bytes bytes' offset width xs xs')
    (name : String) :
    (xs'.find? (·.2.name? bytes' = some name)).map Placed.site =
      (xs.find? (·.2.name? bytes = some name)).map fun x =>
        (Placed.site x).shift offset width := by
  induction h with
  | nil => rfl
  | cons hx _ ih =>
    cases hx with
    | @mk d d' a hd =>
      cases hd with
      | mk hkind hname hspan _ =>
        rw [List.find?_cons, List.find?_cons]
        simp only [hname]
        cases decide (d.name? bytes = some name) with
        | true => simp only [Option.map_some, Placed.site, Site.shift, hkind, hspan]
        | false => exact ih

end MovedAll

/-! ## Labels on the surface -/

namespace Node

/-- The labels of a node and of its children, which is all that is read of it
when it is looked at alone. -/
structure Shows (bytes bytes' : Bytes) (n n' : Node) : Prop where
  own : n.label.ReadsAs bytes bytes' n'.label
  below : List.Forall₂ (Label.ReadsAs bytes bytes') (n.children.map label) (n'.children.map label)

def surface (n : Node) : Node :=
  .mk n.label (n.children.map fun c => .mk c.label [])

theorem childAs?_surface (n : Node) (r : Role) :
    n.surface.childAs? r = (n.childAs? r).map fun c => .mk c.label [] := by
  rw [childAs?, surface, children, List.find?_map]
  rfl

theorem createsClass_surface (n : Node) : n.surface.createsClass = n.createsClass := by
  have hclass : n.surface.namedChildren.any (·.kind = "class_body") =
      n.namedChildren.any (·.kind = "class_body") := by
    rw [namedChildren, namedChildren, List.any_filter, List.any_filter, surface, children,
      List.any_map]
    rfl
  rw [createsClass, createsClass, hclass, childAs?_surface, Option.isSome_map]
  rfl

theorem name?_surface (n : Node) (k : DeclarationKind) (bytes : Bytes) :
    Declaration.name? ⟨k, n.surface⟩ bytes = Declaration.name? ⟨k, n⟩ bytes := by
  unfold Declaration.name?
  simp only [childAs?_surface]
  cases n.childAs? .name <;> rfl

section Shows

variable {bytes bytes' : Bytes} {n n' : Node}

theorem Shows.grown (h : Shows bytes bytes' n n') : Grown bytes bytes' n.surface n'.surface := by
  have hleaves : ∀ ls ls' : List Label, List.Forall₂ (Label.ReadsAs bytes bytes') ls ls' →
      Interleaved (Grown bytes bytes') (ls.map fun l => Node.mk l [])
        (ls'.map fun l => Node.mk l []) := by
    intro ls ls' hls
    induction hls with
    | nil => exact .nil
    | cons hl _ ih => exact .both (.mk hl .nil) ih
  have hcs := hleaves _ _ h.below
  rw [List.map_map, List.map_map] at hcs
  exact .mk h.own hcs

theorem Shows.declaration? (h : Shows bytes bytes' n n') :
    n'.declaration? = n.declaration?.map fun d => ⟨d.kind, n'⟩ := by
  have hcreates := h.grown.createsClass
  rw [createsClass_surface, createsClass_surface] at hcreates
  have hkind : n'.kind = n.kind := h.own.kind
  rw [Node.declaration?, Node.declaration?, hcreates, hkind]
  cases DeclarationKind.ofNodeKind? n.kind with
  | some k => rfl
  | none => cases n.createsClass <;> rfl

theorem Shows.name? (h : Shows bytes bytes' n n') (k : DeclarationKind) :
    Declaration.name? ⟨k, n'⟩ bytes' = Declaration.name? ⟨k, n⟩ bytes := by
  have hname := h.grown.name? k
  rwa [name?_surface, name?_surface] at hname

theorem Shows.findIdx? (h : Shows bytes bytes' n n') {p : Label → Bool}
    (hp : ∀ l l' : Label, l.ReadsAs bytes bytes' l' → p l' = p l) :
    n'.children.findIdx? (fun c => p c.label) = n.children.findIdx? fun c => p c.label := by
  have hlabels : ∀ ls ls' : List Label, List.Forall₂ (Label.ReadsAs bytes bytes') ls ls' →
      ls'.findIdx? p = ls.findIdx? p := by
    intro ls ls' hls
    induction hls with
    | nil => rfl
    | cons hl _ ih => rw [List.findIdx?_cons, List.findIdx?_cons, hp _ _ hl, ih]
  have hbelow := hlabels _ _ h.below
  rwa [List.findIdx?_map, List.findIdx?_map] at hbelow

theorem Shows.bodyIndex? (h : Shows bytes bytes' n n') (k : DeclarationKind) :
    Declaration.bodyIndex? ⟨k, n'⟩ = Declaration.bodyIndex? ⟨k, n⟩ := by
  have hrole := h.findIdx? (p := fun l => l.role = some .body) fun l l' hl => by rw [hl.role]
  have hclass := h.findIdx? (p := fun l => l.named && l.kind = "class_body") fun l l' hl => by
    rw [hl.named, hl.kind]
  unfold Declaration.bodyIndex?
  simp only [hrole]
  cases k with
  | anonymous => exact congrArg (Option.or _) hclass
  | plainClass | interface | enumeration | record | annotationType => rfl

end Shows

/-! ## Labels of an edited node -/

abbrev shift (offset width : Nat) (n : Node) : Node :=
  n.relabel (Label.shift offset width)

theorem label_shift (offset width : Nat) (n : Node) :
    (n.shift offset width).label = n.label.shift offset width := by
  cases n with
  | mk l cs => rw [shift, relabel_mk, label, label]

theorem childLabels_shift (offset width : Nat) (n : Node) :
    (n.shift offset width).children.map label =
      (n.children.map label).map (Label.shift offset width) := by
  rw [shift, children_relabel, List.map_map, List.map_map]
  exact List.map_congr_left fun c _ => label_shift offset width c

theorem label_modifyAt {g : Node → Node} (hg : ∀ n, (g n).label = n.label) (a : Address)
    (n : Node) : (n.modifyAt g a).label = n.label := by
  cases a with
  | nil => exact hg n
  | cons i a =>
    cases n with
    | mk l cs => rfl

theorem children_modifyAt_cons (g : Node → Node) (i : Nat) (a : Address) (n : Node) :
    (n.modifyAt g (i :: a)).children = n.children.modify i (modifyAt g a) := by
  cases n with
  | mk l cs => rfl

theorem childLabels_modifyAt {g : Node → Node} (hg : ∀ n, (g n).label = n.label) (i : Nat)
    (a : Address) (n : Node) :
    (n.modifyAt g (i :: a)).children.map label = n.children.map label := by
  rw [children_modifyAt_cons]
  apply List.ext_getElem?
  intro j
  rw [List.getElem?_map, List.getElem?_map, List.getElem?_modify]
  cases n.children[j]? with
  | none => rfl
  | some c =>
    by_cases hij : i = j
    · simp [hij, label_modifyAt hg]
    · simp [hij]

theorem label_insertBeforeLast (news : List Node) (n : Node) :
    (n.insertBeforeLast news).label = n.label := by
  cases n with
  | mk l cs => rfl

theorem insertBeforeLast_concat (news : List Node) (l : Label) (cs : List Node) (last : Node) :
    (mk l (cs ++ [last])).insertBeforeLast news = mk l (cs ++ news ++ [last]) := by
  simp [insertBeforeLast]

end Node

/-! ## From a member to its declaration -/

section Edit

variable {bytes bytes' : Bytes} {offset width : Nat}

/-- What the insertion asks of a tree: every label reads the same when moved. -/
def Node.Readable (bytes bytes' : Bytes) (offset width : Nat) (n : Node) : Prop :=
  ∀ m ∈ n.preorder, m.label.ReadsAs bytes bytes' (m.label.shift offset width)

theorem Node.Readable.below {n m : Node} (h : n.Readable bytes bytes' offset width)
    (hm : m ∈ n.preorder) : m.Readable bytes bytes' offset width :=
  fun x hx => h x (Node.mem_preorder_trans hx hm)

theorem Node.Readable.child {n c : Node} {i : Nat} (h : n.Readable bytes bytes' offset width)
    (hc : n.children[i]? = some c) : c.Readable bytes bytes' offset width :=
  h.below (Node.mem_preorder_of_mem_children (List.mem_of_getElem? hc) c.mem_preorder_self)

theorem Node.Readable.shows {n n' : Node} (h : n.Readable bytes bytes' offset width)
    (hl : n'.label = n.label.shift offset width)
    (hcs : n'.children.map Node.label =
      (n.children.map Node.label).map (Label.shift offset width)) :
    n.Shows bytes bytes' n' := by
  refine ⟨hl ▸ h n n.mem_preorder_self, ?_⟩
  rw [hcs, List.map_map]
  have hbelow : ∀ cs : List Node, (∀ c ∈ cs, c ∈ n.preorder) →
      List.Forall₂ (Label.ReadsAs bytes bytes') (cs.map Node.label)
        (cs.map (Label.shift offset width ∘ Node.label)) := by
    intro cs hmem
    induction cs with
    | nil => exact .nil
    | cons c cs ih =>
      exact .cons (h c (hmem c (List.mem_cons_self ..)))
        (ih fun x hx => hmem x (List.mem_cons_of_mem _ hx))
  exact hbelow n.children fun c hc => Node.mem_preorder_of_mem_children hc c.mem_preorder_self

/-- A node in the place of another one, as the locator looks at it. -/
structure Node.Replaces (bytes bytes' : Bytes) (offset width : Nat) (c c' : Node) : Prop where
  shows : c.Shows bytes bytes' c'
  moved : ∀ d, c.declaration? = some d →
    Declaration.Moved bytes bytes' offset width d ⟨d.kind, c'⟩

theorem MovedAll.gather {find : Node → List Placed} {n n' : Node}
    (h : List.Forall₂ (fun c c' => MovedAll bytes bytes' offset width (find c) (find c'))
      n.children n'.children) :
    MovedAll bytes bytes' offset width (n.gather find) (n'.gather find) := by
  unfold Node.gather
  generalize n.children = cs, n'.children = cs' at h
  generalize 0 = i
  induction h generalizing i with
  | nil => exact .nil
  | cons hc _ ih =>
    rw [List.zipIdx_cons, List.zipIdx_cons, List.flatMap_cons, List.flatMap_cons]
    exact (hc.map_address (i :: ·)).append (ih (i + 1))

theorem Node.Replaces.ownPlace {c c' : Node} (h : c.Replaces bytes bytes' offset width c') :
    MovedAll bytes bytes' offset width c.ownPlace c'.ownPlace := by
  unfold Node.ownPlace
  rw [h.shows.declaration?]
  cases hd : c.declaration? with
  | none => exact .nil
  | some d => exact .cons (.mk [] (h.moved d hd)) .nil

theorem Node.Replaces.namedPlace {c c' : Node} (h : c.Replaces bytes bytes' offset width c') :
    MovedAll bytes bytes' offset width c.namedPlace c'.namedPlace := by
  unfold Node.namedPlace
  rw [h.shows.own.named]
  split
  · exact h.ownPlace
  · exact .nil

theorem Node.Replaces.memberPlaces {c c' : Node} (h : c.Replaces bytes bytes' offset width c')
    (hblock : MovedAll bytes bytes' offset width (c.gather Node.namedPlace)
      (c'.gather Node.namedPlace)) (opened : Bool) :
    MovedAll bytes bytes' offset width (c.memberPlaces opened) (c'.memberPlaces opened) := by
  have hkind : c'.kind = c.kind := h.shows.own.kind
  unfold Node.memberPlaces
  rw [h.shows.own.named, hkind]
  split
  · exact hblock
  · exact h.namedPlace

theorem Declaration.moved_of_body {d : Declaration} {n' : Node}
    (hshow : d.node.Shows bytes bytes' n')
    (hbody : ∀ b body, d.bodyIndex? = some b → d.node.children[b]? = some body →
      ∃ body', n'.children[b]? = some body' ∧
        braceSpan? (body'.children.map Node.label) =
          (braceSpan? (body.children.map Node.label)).map (BodySpan.shift offset width) ∧
        MovedAll bytes bytes' offset width (body.gather (Node.memberPlaces d.opensBlocks))
          (body'.gather (Node.memberPlaces d.opensBlocks))) :
    Declaration.Moved bytes bytes' offset width d ⟨d.kind, n'⟩ := by
  have hindex : Declaration.bodyIndex? ⟨d.kind, n'⟩ = d.bodyIndex? := hshow.bodyIndex? d.kind
  refine .mk rfl (hshow.name? d.kind) ?_ ?_
  · rw [bodySpan?_eq, bodySpan?_eq, body?_eq, body?_eq, hindex]
    cases hb : d.bodyIndex? with
    | none => rfl
    | some b =>
      obtain ⟨body, hchild⟩ := exists_body hb
      obtain ⟨body', hchild', hspan, _⟩ := hbody b body hb hchild
      simp only [Option.bind_some, hchild, hchild', hspan]
  · unfold placedMembers
    rw [hindex]
    cases hb : d.bodyIndex? with
    | none => exact .nil
    | some b =>
      obtain ⟨body, hchild⟩ := exists_body hb
      obtain ⟨body', hchild', _, hmembers⟩ := hbody b body hb hchild
      simp only [hchild, hchild', Option.map_some, Option.getD_some]
      exact hmembers.map_address (b :: ·)

/-! ## Moving a tree -/

theorem Node.memberPlaces_shift {c : Node}
    (h : ∀ m ∈ c.preorder, m.Replaces bytes bytes' offset width (m.shift offset width))
    (opened : Bool) :
    MovedAll bytes bytes' offset width (c.memberPlaces opened)
      ((c.shift offset width).memberPlaces opened) := by
  refine (h c c.mem_preorder_self).memberPlaces (MovedAll.gather ?_) opened
  rw [Node.children_relabel]
  refine List.forall₂_map_right_iff.mpr (List.forall₂_same.mpr fun x hx => ?_)
  exact (h x (Node.mem_preorder_of_mem_children hx x.mem_preorder_self)).namedPlace

theorem Node.gather_shift {body : Node}
    (h : ∀ m ∈ body.preorder, m.Replaces bytes bytes' offset width (m.shift offset width))
    (opened : Bool) :
    ∀ c ∈ body.children, MovedAll bytes bytes' offset width (c.memberPlaces opened)
      ((c.shift offset width).memberPlaces opened) := by
  intro c hc
  exact Node.memberPlaces_shift (fun m hm => h m (Node.mem_preorder_of_mem_children hc hm)) opened

theorem Node.Readable.replaces {n : Node} (h : n.Readable bytes bytes' offset width) :
    ∀ m ∈ n.preorder, m.Replaces bytes bytes' offset width (m.shift offset width) := by
  -- Members are two or three levels down, so the induction speaks of all nodes below a child.
  induction n using Node.induction_children with
  | h l cs ih =>
    intro m hm
    rw [Node.preorder_mk] at hm
    rcases List.mem_cons.mp hm with rfl | hm
    · have hshow := h.shows (Node.label_shift offset width _)
        (Node.childLabels_shift offset width _)
      refine ⟨hshow, fun d hd => ?_⟩
      have hnode := Node.node_of_declaration? hd
      rw [← hnode] at hshow ⊢
      refine Declaration.moved_of_body hshow fun b body _ hbody => ?_
      rw [hnode] at hbody ⊢
      refine ⟨body.shift offset width, ?_, ?_, MovedAll.gather ?_⟩
      · rw [Node.children_relabel, List.getElem?_map, hbody, Option.map_some]
      · rw [Node.childLabels_shift, braceSpan?_shift]
      · have hmem : body ∈ cs := List.mem_of_getElem? hbody
        have hall := ih body hmem (h.child hbody)
        rw [Node.children_relabel]
        exact List.forall₂_map_right_iff.mpr
          (List.forall₂_same.mpr (Node.gather_shift hall d.opensBlocks))
    · obtain ⟨c, hc, hm⟩ := List.mem_flatMap.mp hm
      obtain ⟨i, hi⟩ := List.getElem?_of_mem hc
      exact ih c hc (h.child hi) m hm

/-! ## An edit below a moved tree -/

theorem forall₂_modify {P : Node → Node → Prop} {r g : Node → Node} {cs : List Node} {i : Nat}
    {c : Node} (hc : cs[i]? = some c) (hr : ∀ x ∈ cs, P x (r x)) (hg : P c (g (r c))) :
    List.Forall₂ P cs ((cs.map r).modify i g) := by
  induction cs generalizing i with
  | nil => simp at hc
  | cons x cs ih =>
    have hrest : ∀ y ∈ cs, P y (r y) := fun y hy => hr y (List.mem_cons_of_mem _ hy)
    cases i with
    | zero =>
      have he : x = c := by simpa using hc
      subst he
      exact .cons hg (List.forall₂_map_right_iff.mpr (List.forall₂_same.mpr hrest))
    | succ i => exact .cons (hr x (List.mem_cons_self ..)) (ih (by simpa using hc) hrest)

theorem Node.getElem?_modifyAt_shift {n c : Node} {i : Nat} (hc : n.children[i]? = some c)
    (g : Node → Node) (a : Address) :
    ((n.shift offset width).modifyAt g (i :: a)).children[i]? =
      some ((c.shift offset width).modifyAt g a) := by
  rw [Node.children_modifyAt_cons, List.getElem?_modify_eq, Node.children_relabel,
    List.getElem?_map, hc]
  rfl

theorem Node.Readable.shows_modifyAt {n : Node} (h : n.Readable bytes bytes' offset width)
    {g : Node → Node} (hg : ∀ m, (g m).label = m.label) (i : Nat) (a : Address) :
    n.Shows bytes bytes' ((n.shift offset width).modifyAt g (i :: a)) :=
  h.shows (by rw [Node.label_modifyAt hg, Node.label_shift])
    (by rw [Node.childLabels_modifyAt hg, Node.childLabels_shift])

/-- A member that is replaced makes one child of the body be replaced as well. -/
theorem Node.memberPlaces_modifyAt {c : Node} {opened : Bool} {z : Placed} {g : Node → Node}
    (h : c.Readable bytes bytes' offset width) (hg : ∀ m, (g m).label = m.label)
    (hz : z ∈ c.memberPlaces opened)
    (hnew : z.2.node.Replaces bytes bytes' offset width (g (z.2.node.shift offset width))) :
    MovedAll bytes bytes' offset width (c.memberPlaces opened)
      (((c.shift offset width).modifyAt g z.1).memberPlaces opened) := by
  have hall := h.replaces
  have hown : ∀ {x : Node} {y : Placed}, y ∈ x.namedPlace → y.1 = [] ∧ x = y.2.node := by
    intro x y hy
    obtain ⟨hd, ha⟩ := Node.mem_ownPlace.mp (Node.mem_ownPlace_of_namedPlace hy)
    exact ⟨ha, (Node.node_of_declaration? hd).symm⟩
  unfold Node.memberPlaces at hz
  split at hz
  · -- The member is in the block of an enumeration, which is a body of its own.
    rename_i hblock
    obtain ⟨j, x, y, hx, hy, rfl⟩ := Node.mem_gather.mp hz
    obtain ⟨ha, hnode⟩ := hown hy
    have hshow := h.shows_modifyAt hg j y.1
    have hkind : ((c.shift offset width).modifyAt g (j :: y.1)).kind = c.kind := hshow.own.kind
    have hplaces : MovedAll bytes bytes' offset width (c.gather Node.namedPlace)
        (((c.shift offset width).modifyAt g (j :: y.1)).gather Node.namedPlace) := by
      refine MovedAll.gather ?_
      rw [Node.children_modifyAt_cons, Node.children_relabel]
      refine forall₂_modify hx (fun m hm => ?_) ?_
      · exact (hall m (Node.mem_preorder_of_mem_children hm m.mem_preorder_self)).namedPlace
      · rw [ha, hnode]
        exact hnew.namedPlace
    unfold Node.memberPlaces
    rw [hshow.own.named, hkind, if_pos hblock, if_pos hblock]
    exact hplaces
  · rename_i hblock
    obtain ⟨ha, hnode⟩ := hown hz
    rw [ha, hnode]
    rw [hnode] at hblock
    have hkind : (g (z.2.node.shift offset width)).kind = z.2.node.kind := hnew.shows.own.kind
    unfold Node.memberPlaces
    rw [Node.modifyAt, hnew.shows.own.named, hkind, if_neg hblock, if_neg hblock]
    exact hnew.namedPlace

/-- A member that is replaced makes its declaration be replaced. -/
theorem Declaration.replaces_member {d : Declaration} {x : Placed} {g : Node → Node}
    (h : d.node.Readable bytes bytes' offset width) (hd : d.node.declaration? = some d)
    (hg : ∀ m, (g m).label = m.label) (hx : x ∈ d.placedMembers)
    (hnew : x.2.node.Replaces bytes bytes' offset width (g (x.2.node.shift offset width))) :
    d.node.Replaces bytes bytes' offset width ((d.node.shift offset width).modifyAt g x.1) := by
  obtain ⟨b, body, y, hb, hbody, hy, rfl⟩ := mem_placedMembers.mp hx
  obtain ⟨i, c, z, hc, hz, rfl⟩ := Node.mem_gather.mp hy
  have hshow := h.shows_modifyAt hg b (i :: z.1)
  refine ⟨hshow, fun d' hd' => ?_⟩
  have he : d = d' := Option.some.inj (hd.symm.trans hd')
  subst he
  refine moved_of_body hshow fun b' body' hb' hbody' => ?_
  have hbb : b = b' := Option.some.inj (hb.symm.trans hb')
  subst hbb
  have hbody'' : body = body' := Option.some.inj (hbody.symm.trans hbody')
  subst hbody''
  refine ⟨_, Node.getElem?_modifyAt_shift hbody g (i :: z.1), ?_, MovedAll.gather ?_⟩
  · rw [Node.childLabels_modifyAt hg, Node.childLabels_shift, braceSpan?_shift]
  · rw [Node.children_modifyAt_cons, Node.children_relabel]
    refine forall₂_modify hc (Node.gather_shift (h.child hbody).replaces d.opensBlocks) ?_
    exact Node.memberPlaces_modifyAt ((h.child hbody).child hc) hg hz hnew

/-- What replaces a listed declaration leaves the list of the root's declarations
as it was. -/
theorem Reached.moved_root {root : Node} (h : root.Readable bytes bytes' offset width)
    {x : Placed} (hx : Reached root x) {g : Node → Node} (hg : ∀ m, (g m).label = m.label)
    (hnew : x.2.node.Replaces bytes bytes' offset width (g (x.2.node.shift offset width))) :
    MovedAll bytes bytes' offset width (root.gather Node.ownPlace)
      (((root.shift offset width).modifyAt g x.1).gather Node.ownPlace) := by
  induction hx generalizing g with
  | @top x hx =>
    obtain ⟨i, c, y, hc, hy, rfl⟩ := Node.mem_gather.mp hx
    obtain ⟨hd, ha⟩ := Node.mem_ownPlace.mp hy
    refine MovedAll.gather ?_
    rw [Node.children_modifyAt_cons, Node.children_relabel]
    refine forall₂_modify hc (fun m hm => ?_) ?_
    · exact (h.replaces m (Node.mem_preorder_of_mem_children hm m.mem_preorder_self)).ownPlace
    · rw [ha, ← Node.node_of_declaration? hd]
      exact hnew.ownPlace
  | @member x y hx hy ih =>
    obtain ⟨hat, hd⟩ := Node.at?_of_declarationAt? hx.declarationAt?
    have hreads := h.below (Node.mem_preorder_of_at? hat)
    rw [Node.modifyAt_append]
    exact ih (fun m => Node.label_modifyAt hg y.1 m)
      (Declaration.replaces_member hreads hd hg hy hnew)

/-! ## New methods before a brace -/

theorem braceSpan?_insert {labels : List Label} (h : labels ≠ []) (added : List Label)
    (last : Label) : braceSpan? (labels ++ added ++ [last]) = braceSpan? (labels ++ [last]) := by
  obtain ⟨first, rest, rfl⟩ := List.exists_cons_of_ne_nil h
  unfold braceSpan?
  rw [List.getLast?_append_of_ne_nil _ (by simp), List.getLast?_append_of_ne_nil _ (by simp)]
  rfl

/-- Nodes before the last child that hold no member declarations add none. -/
theorem Node.gather_insert {find : Node → List Placed} {news : List Node} {closing : Node}
    (hnews : ∀ m ∈ news, find m = []) (hclosing : find closing = []) (l : Label)
    (cs : List Node) :
    (Node.mk l (cs ++ news ++ [closing])).gather find =
      (Node.mk l (cs ++ [closing])).gather find := by
  have hnone : ∀ (ms : List Node) (i : Nat), (∀ m ∈ ms, find m = []) →
      ((ms.zipIdx i).flatMap fun x => (find x.1).map fun y => (x.2 :: y.1, y.2)) = [] := by
    intro ms i hms
    apply List.flatMap_eq_nil_iff.mpr
    rintro ⟨m, j⟩ hx
    rw [hms m (List.fst_mem_of_mem_zipIdx hx), List.map_nil]
  have hlast : ∀ m ∈ [closing], find m = [] := by
    intro m hm
    rw [List.mem_singleton.mp hm, hclosing]
  unfold Node.gather
  simp only [Node.children, List.zipIdx_append, List.flatMap_append, hnone news _ hnews,
    hnone [closing] _ hlast, List.append_nil]

theorem Node.memberPlaces_eq_nil {n : Node}
    (h : n.kind = "method_declaration" ∨ n.kind = "\x7d") (opened : Bool) :
    n.memberPlaces opened = [] := by
  have hplain : n.declaration? = none := by
    rcases h with h | h <;>
      simp [Node.declaration?, DeclarationKind.ofNodeKind?, Node.createsClass, h]
  have hblock : n.kind ≠ "enum_body_declarations" := by
    rcases h with h | h <;> simp [h]
  simp [Node.memberPlaces, hblock, Node.namedPlace, Node.ownPlace, hplain]

/-- The declaration with methods put before the brace of its body. -/
theorem Declaration.replaces_insert {d : Declaration} {b : Nat} {span : BodySpan}
    {news : List Node} (h : d.node.Readable bytes bytes' offset width)
    (hd : d.node.declaration? = some d) (hb : d.bodyIndex? = some b)
    (hspan : d.bodySpan? = some span) (hnews : ∀ m ∈ news, m.kind = "method_declaration") :
    d.node.Replaces bytes bytes' offset width
      ((d.node.shift offset width).modifyAt (Node.insertBeforeLast news) [b]) := by
  have hlabel := Node.label_insertBeforeLast news
  have hshow := h.shows_modifyAt hlabel b []
  refine ⟨hshow, fun d' hd' => ?_⟩
  have he : d = d' := Option.some.inj (hd.symm.trans hd')
  subst he
  refine moved_of_body hshow fun b' body hb' hbody => ?_
  have hbb : b = b' := Option.some.inj (hb.symm.trans hb')
  subst hbb
  rw [bodySpan?_eq, body?_eq, hb, Option.bind_some, hbody, Option.bind_some] at hspan
  obtain ⟨opening, middle, closing, hcs, _, hkc, _⟩ := exists_braces hspan
  have hshifted := Node.gather_shift (h.child hbody).replaces d.opensBlocks
  refine ⟨_, Node.getElem?_modifyAt_shift hbody _ [], ?_⟩
  rw [Node.modifyAt]
  cases body with
  | mk l cs =>
    have hcs : cs = opening :: middle ++ [closing] := hcs
    subst hcs
    -- The new nodes stand between two nodes that were there before.
    have hedit : (Node.mk l (opening :: middle ++ [closing])).shift offset width =
        .mk (l.shift offset width) (((opening :: middle).map (Node.shift offset width)) ++
          [closing.shift offset width]) := by
      rw [Node.shift, Node.relabel_mk, List.map_append]
      rfl
    rw [hedit, Node.insertBeforeLast_concat]
    constructor
    · have hlabels := Node.childLabels_shift offset width (.mk l (opening :: middle ++ [closing]))
      rw [hedit] at hlabels
      rw [← braceSpan?_shift, ← hlabels]
      simp only [Node.children, List.map_append, List.map_singleton]
      exact braceSpan?_insert (by simp) _ _
    · have hclosing : (closing.shift offset width).memberPlaces d.opensBlocks = [] := by
        refine Node.memberPlaces_eq_nil (.inr ?_) d.opensBlocks
        rw [Node.kind, Node.label_shift]
        exact hkc
      have hadded : ∀ m ∈ news, m.memberPlaces d.opensBlocks = [] := fun m hm =>
        Node.memberPlaces_eq_nil (.inl (hnews m hm)) d.opensBlocks
      rw [Node.gather_insert hadded hclosing]
      refine MovedAll.gather ?_
      rw [← hedit, Node.children_relabel]
      exact List.forall₂_map_right_iff.mpr (List.forall₂_same.mpr hshifted)

theorem Source.placedDeclarations_inserted {s : Source} (inserted : Bytes) {x : Placed} {b : Nat}
    {span : BodySpan} {news : List Node} (hx : Reached s.root x)
    (hb : x.2.bodyIndex? = some b) (hspan : x.2.bodySpan? = some span)
    (hinside : offset ≤ s.bytes.length)
    (hnames : ∀ m ∈ s.root.preorder, m.label.role = some .name →
      ¬ (m.label.start < offset ∧ offset < m.label.stop))
    (hnews : ∀ m ∈ news, m.kind = "method_declaration") (nested : Bool) :
    let s' : Source := ⟨s.root.inserted offset (inserted.length + 2) (x.1 ++ [b]) news,
      splice s.bytes inserted offset, s.origin⟩
    MovedAll s.bytes s'.bytes offset (inserted.length + 2) (s.placedDeclarations nested)
      (s'.placedDeclarations nested) := by
  intro s'
  have hreads : s.root.Readable s.bytes s'.bytes offset (inserted.length + 2) := fun m hm =>
    Label.readsAs_shift hinside (hnames m hm)
  obtain ⟨hat, hd⟩ := Node.at?_of_declarationAt? hx.declarationAt?
  have hnew := Declaration.replaces_insert (hreads.below (Node.mem_preorder_of_at? hat)) hd hb hspan
    hnews
  have hroot := hx.moved_root hreads
    (fun m => Node.label_modifyAt (Node.label_insertBeforeLast news) [b] m) hnew
  rw [← Node.modifyAt_append] at hroot
  rw [← s.placedDeclarations_eq nested (Nat.le_max_left s.root.size s'.root.size),
    ← s'.placedDeclarations_eq nested (Nat.le_max_right s.root.size s'.root.size)]
  exact hroot.listPlaced _

/-- After an insertion every name leads to the address that it led to. -/
theorem Source.site?_inserted {s : Source} (inserted : Bytes) {x : Placed} {b : Nat}
    {span : BodySpan} {news : List Node} (hx : Reached s.root x)
    (hb : x.2.bodyIndex? = some b) (hspan : x.2.bodySpan? = some span)
    (hinside : offset ≤ s.bytes.length)
    (hnames : ∀ m ∈ s.root.preorder, m.label.role = some .name →
      ¬ (m.label.start < offset ∧ offset < m.label.stop))
    (hnews : ∀ m ∈ news, m.kind = "method_declaration") (name : String) (nested : Bool) :
    Source.site? ⟨s.root.inserted offset (inserted.length + 2) (x.1 ++ [b]) news,
      splice s.bytes inserted offset, s.origin⟩ name nested =
        (s.site? name nested).map (Site.shift offset (inserted.length + 2)) := by
  have hmoved := s.placedDeclarations_inserted inserted hx hb hspan hinside hnames hnews nested
  rw [site?, site?, placedNamed?, placedNamed?, hmoved.find? name, Option.map_map]
  rfl

end Edit

end ClassOutline
