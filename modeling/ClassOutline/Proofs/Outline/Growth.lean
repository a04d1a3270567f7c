import ClassOutline.Proofs.Outline.Ownership
import Mathlib.Data.List.Forall2

/-!
# Trees that read the same

A tree grows when method nodes are added among the children of its nodes, held
under no role, and when offsets move together with the bytes they point to.
Neither changes what a node says about itself: its declaration, its name, its
implicit fields and its member names. Where the added nodes go is not looked at
here.
-/

namespace ClassOutline

/-- Two labels that say the same over two byte strings. Only the text of a name
is ever read, so other offsets may differ. -/
structure Label.ReadsAs (bytes bytes' : Bytes) (l l' : Label) : Prop where
  kind : l'.kind = l.kind
  named : l'.named = l.named
  role : l'.role = l.role
  text : l.role = some .name →
    Bytes.slice bytes' l'.start l'.stop = Bytes.slice bytes l.start l.stop

theorem Label.ReadsAs.refl (bytes : Bytes) (l : Label) : l.ReadsAs bytes bytes l :=
  ⟨rfl, rfl, rfl, fun _ => rfl⟩

namespace Node

/-- A node that no other node reads when it stands among its children. -/
def Unread (n : Node) : Prop :=
  n.label.role = none ∧ n.kind = "method_declaration"

/-- The first list related to the second, in which unread nodes may be added. -/
inductive Interleaved (R : Node → Node → Prop) : List Node → List Node → Prop where
  | nil : Interleaved R [] []
  | both {c c' : Node} {cs cs' : List Node} (h : R c c') (hs : Interleaved R cs cs') :
      Interleaved R (c :: cs) (c' :: cs')
  | added {c' : Node} {cs cs' : List Node} (h : c'.Unread) (hs : Interleaved R cs cs') :
      Interleaved R cs (c' :: cs')

/-- The second tree is the first one, read over other bytes, with unread nodes
added at any place below its root. -/
inductive Grown (bytes bytes' : Bytes) : Node → Node → Prop where
  | mk {l l' : Label} {cs cs' : List Node} (hl : l.ReadsAs bytes bytes' l')
      (hcs : Interleaved (Grown bytes bytes') cs cs') : Grown bytes bytes' (.mk l cs) (.mk l' cs')

theorem Interleaved.append {R : Node → Node → Prop} {as as' bs bs' : List Node}
    (ha : Interleaved R as as') (hb : Interleaved R bs bs') :
    Interleaved R (as ++ bs) (as' ++ bs') := by
  induction ha with
  | nil => exact hb
  | both h _ ih => exact .both h ih
  | added h _ ih => exact .added h ih

theorem Interleaved.map {R : Node → Node → Prop} {f : Node → Node} {cs : List Node}
    (h : ∀ c ∈ cs, R c (f c)) : Interleaved R cs (cs.map f) := by
  induction cs with
  | nil => exact .nil
  | cons c cs ih =>
    exact .both (h c (List.mem_cons_self ..)) (ih fun x hx => h x (List.mem_cons_of_mem _ hx))

theorem Interleaved.refl {R : Node → Node → Prop} {cs : List Node} (h : ∀ c ∈ cs, R c c) :
    Interleaved R cs cs := by
  have hcs := Interleaved.map (f := id) h
  rwa [List.map_id] at hcs

theorem Grown.refl (bytes : Bytes) (n : Node) : Grown bytes bytes n n := by
  induction n using induction_children with
  | h l cs ih => exact .mk (.refl bytes l) (Interleaved.refl ih)

theorem Interleaved.self (bytes : Bytes) (cs : List Node) :
    Interleaved (Grown bytes bytes) cs cs :=
  Interleaved.refl fun c _ => Grown.refl bytes c

theorem Interleaved.of_added {R : Node → Node → Prop} {news : List Node}
    (h : ∀ m ∈ news, m.Unread) : Interleaved R [] news := by
  induction news with
  | nil => exact .nil
  | cons m news ih =>
    exact .added (h m (List.mem_cons_self ..)) (ih fun x hx => h x (List.mem_cons_of_mem _ hx))

/-- A choice of nodes that never takes an unread one picks related nodes. -/
theorem Interleaved.filter {R : Node → Node → Prop} {p : Node → Bool}
    (hp : ∀ c c', R c c' → p c' = p c) (hu : ∀ m, m.Unread → p m = false) {cs cs' : List Node}
    (h : Interleaved R cs cs') : List.Forall₂ R (cs.filter p) (cs'.filter p) := by
  induction h with
  | nil => exact .nil
  | @both c c' cs cs' hc _ ih =>
    have he := hp c c' hc
    cases hpc : p c with
    | true => simpa [hpc, he] using ⟨hc, ih⟩
    | false => simpa [hpc, he] using ih
  | @added c' cs cs' hc _ ih => simpa [hu c' hc] using ih

theorem Interleaved.any {R : Node → Node → Prop} {p : Node → Bool}
    (hp : ∀ c c', R c c' → p c' = p c) (hu : ∀ m, m.Unread → p m = false) {cs cs' : List Node}
    (h : Interleaved R cs cs') : cs'.any p = cs.any p := by
  induction h with
  | nil => rfl
  | both hc _ ih => rw [List.any_cons, List.any_cons, hp _ _ hc, ih]
  | added hc _ ih => rw [List.any_cons, hu _ hc, ih, Bool.false_or]

section Reading

variable {bytes bytes' : Bytes} {n n' : Node}

theorem Grown.label (h : Grown bytes bytes' n n') : n.label.ReadsAs bytes bytes' n'.label := by
  cases h with
  | mk hl _ => exact hl

theorem Grown.children (h : Grown bytes bytes' n n') :
    Interleaved (Grown bytes bytes') n.children n'.children := by
  cases h with
  | mk _ hcs => exact hcs

theorem Grown.kind (h : Grown bytes bytes' n n') : n'.kind = n.kind :=
  h.label.kind

theorem Grown.childrenAs (h : Grown bytes bytes' n n') (r : Role) :
    List.Forall₂ (Grown bytes bytes') (n.childrenAs r) (n'.childrenAs r) := by
  apply h.children.filter
  · intro c c' hc
    rw [hc.label.role]
  · intro m hm
    simp [hm.1]

/-- The first child under a role is missing in both trees, or it reads the same. -/
theorem Grown.childAs?_cases (h : Grown bytes bytes' n n') (r : Role) :
    (n.childAs? r = none ∧ n'.childAs? r = none) ∨
      ∃ m m', n.childAs? r = some m ∧ n'.childAs? r = some m' ∧ m.label.role = some r ∧
        Grown bytes bytes' m m' := by
  have hall := h.childrenAs r
  have hfirst : ∀ m : Node, m.childAs? r = (m.childrenAs r).head? := by
    intro m
    rw [Node.childAs?, Node.childrenAs, List.head?_filter]
  have hrole : ∀ m ∈ n.childrenAs r, m.label.role = some r := by
    intro m hm
    simpa using (List.mem_filter.mp hm).2
  rw [hfirst, hfirst]
  generalize n.childrenAs r = ms at hall hrole
  generalize n'.childrenAs r = ms' at hall
  cases hall with
  | nil => exact Or.inl ⟨rfl, rfl⟩
  | cons hm _ => exact Or.inr ⟨_, _, rfl, rfl, hrole _ (List.mem_cons_self ..), hm⟩

theorem Grown.trimmedText (h : Grown bytes bytes' n n') (hr : n.label.role = some .name) :
    n'.trimmedText bytes' = n.trimmedText bytes := by
  rw [Node.trimmedText, Node.trimmedText, Bytes.textOf, Bytes.textOf, h.label.text hr]

theorem Grown.nameText (h : Grown bytes bytes' n n') :
    (n'.childAs? .name).map (·.trimmedText bytes') =
      (n.childAs? .name).map (·.trimmedText bytes) := by
  rcases h.childAs?_cases .name with ⟨hn, hn'⟩ | ⟨m, m', hn, hn', hr, hm⟩
  · rw [hn, hn', Option.map_none, Option.map_none]
  · rw [hn, hn', Option.map_some, Option.map_some, hm.trimmedText hr]

theorem Grown.nameTexts {ns ns' : List Node} (h : List.Forall₂ (Grown bytes bytes') ns ns') :
    (ns'.filterMap fun m => (m.childAs? .name).map (·.trimmedText bytes')) =
      ns.filterMap fun m => (m.childAs? .name).map (·.trimmedText bytes) := by
  induction h with
  | nil => rw [List.filterMap_nil, List.filterMap_nil]
  | cons hm _ ih => rw [List.filterMap_cons, List.filterMap_cons, hm.nameText, ih]

/-! ## Declarations and members -/

theorem Grown.createsClass (h : Grown bytes bytes' n n') : n'.createsClass = n.createsClass := by
  have hbody : (n'.childAs? .body).isSome = (n.childAs? .body).isSome := by
    rcases h.childAs?_cases .body with ⟨hn, hn'⟩ | ⟨m, m', hn, hn', _, _⟩
    · rw [hn, hn']
    · rw [hn, hn', Option.isSome_some, Option.isSome_some]
  have hclass : n'.namedChildren.any (·.kind = "class_body") =
      n.namedChildren.any (·.kind = "class_body") := by
    rw [Node.namedChildren, Node.namedChildren, List.any_filter, List.any_filter]
    apply h.children.any
    · intro c c' hc
      rw [hc.label.named, hc.kind]
    · intro m hm
      simp [hm.2]
  rw [Node.createsClass, Node.createsClass, h.kind, hbody, hclass]

theorem Grown.declaration?_cases (h : Grown bytes bytes' n n') :
    (n.declaration? = none ∧ n'.declaration? = none) ∨
      ∃ k, n.declaration? = some ⟨k, n⟩ ∧ n'.declaration? = some ⟨k, n'⟩ := by
  rw [Node.declaration?, Node.declaration?, h.kind, h.createsClass]
  cases DeclarationKind.ofNodeKind? n.kind with
  | some k => exact Or.inr ⟨k, rfl, rfl⟩
  | none =>
    cases n.createsClass with
    | true => exact Or.inr ⟨.anonymous, rfl, rfl⟩
    | false => exact Or.inl ⟨rfl, rfl⟩

theorem Grown.isSome_declaration? (h : Grown bytes bytes' n n') :
    n'.declaration?.isSome = n.declaration?.isSome := by
  rcases h.declaration?_cases with ⟨hn, hn'⟩ | ⟨k, hn, hn'⟩
  · rw [hn, hn']
  · rw [hn, hn', Option.isSome_some, Option.isSome_some]

theorem Grown.declaration?_eq_none (h : Grown bytes bytes' n n') (hd : n.declaration? = none) :
    n'.declaration? = none := by
  rcases h.declaration?_cases with ⟨_, hn'⟩ | ⟨k, hn, _⟩
  · exact hn'
  · rw [hd] at hn
    cases hn

theorem Grown.name? (h : Grown bytes bytes' n n') (k : DeclarationKind) :
    Declaration.name? ⟨k, n'⟩ bytes' = Declaration.name? ⟨k, n⟩ bytes := by
  unfold Declaration.name?
  rcases h.childAs?_cases .name with ⟨hn, hn'⟩ | ⟨m, m', hn, hn', hr, hm⟩
  · simp only [hn, hn']
  · simp only [hn, hn', hm.trimmedText hr]

theorem Grown.implicitFields (h : Grown bytes bytes' n n') (k : DeclarationKind) :
    Declaration.implicitFields ⟨k, n'⟩ bytes' = Declaration.implicitFields ⟨k, n⟩ bytes := by
  unfold Declaration.implicitFields
  rcases h.childAs?_cases .parameters with ⟨hn, hn'⟩ | ⟨m, m', hn, hn', _, hm⟩
  · simp only [hn, hn']
  · have hall : List.Forall₂ (Grown bytes bytes')
        (m.namedChildren.filter (·.kind = "formal_parameter"))
        (m'.namedChildren.filter (·.kind = "formal_parameter")) := by
      rw [Node.namedChildren, Node.namedChildren, List.filter_filter, List.filter_filter]
      apply hm.children.filter
      · intro c c' hc
        rw [hc.label.named, hc.kind]
      · intro u hu
        simp [hu.2]
    simp only [hn, hn', Grown.nameTexts hall]

theorem Grown.memberNames (h : Grown bytes bytes' n n') (k : MemberKind) :
    Node.memberNames bytes' k n' = Node.memberNames bytes k n := by
  unfold Node.memberNames Node.member?
  rw [h.kind]
  cases MemberKind.ofNodeKind? n.kind with
  | none => rfl
  | some j =>
    have hnames : Member.names ⟨j, n'⟩ bytes' = Member.names ⟨j, n⟩ bytes := by
      cases j with
      | method => simp only [Member.names, h.nameText]
      | field => simp only [Member.names, Grown.nameTexts (h.childrenAs .declarator)]
    simp only [Option.map_some, hnames]

end Reading

end Node

end ClassOutline
