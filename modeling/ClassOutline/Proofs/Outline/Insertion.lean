import ClassOutline.Proofs.Outline.Growth

/-!
# Inserting methods into a tree

Moving the offsets of a tree together with the bytes changes none of its classes.
Method nodes put before the closing brace of a declaration's body add their names
to the class of that declaration and to no other. The second fact is carried up
from the declaration to the root by `Gains`, one child number at a time.
-/

namespace ClassOutline

def ClassInfo.addMethods (names : List String) (c : ClassInfo) : ClassInfo :=
  { c with methods := c.methods ++ names }

namespace Node

/-! ## Moving labels -/

mutual

def relabel (f : Label → Label) : Node → Node
  | mk l cs => mk (f l) (relabelAll f cs)

def relabelAll (f : Label → Label) : List Node → List Node
  | [] => []
  | c :: cs => relabel f c :: relabelAll f cs

end

theorem relabelAll_eq (f : Label → Label) (cs : List Node) :
    relabelAll f cs = cs.map (relabel f) := by
  induction cs with
  | nil => simp [relabelAll]
  | cons c cs ih => simp [relabelAll, ih]

theorem relabel_mk (f : Label → Label) (l : Label) (cs : List Node) :
    (mk l cs).relabel f = mk (f l) (cs.map (relabel f)) := by
  rw [relabel, relabelAll_eq]

theorem children_relabel (f : Label → Label) (n : Node) :
    (n.relabel f).children = n.children.map (relabel f) := by
  cases n with
  | mk l cs => rw [relabel_mk, children, children]

theorem at?_relabel (f : Label → Label) (n : Node) (a : Address) :
    (n.relabel f).at? a = (n.at? a).map (relabel f) := by
  induction a generalizing n with
  | nil => rfl
  | cons i a ih =>
    cases n with
    | mk l cs =>
      rw [relabel_mk, at?, at?, children, children, List.getElem?_map]
      cases cs[i]? with
      | none => rfl
      | some c => exact ih c

/-! ## What added methods change -/

/-- The names that methods add to the members of a kind. -/
def addedNames (names : List String) : MemberKind → List String
  | .method => names
  | .field => []

theorem addedNames_nil (k : MemberKind) : addedNames [] k = [] := by
  cases k <;> rfl

theorem addedNames_cons (name : String) (names : List String) (k : MemberKind) :
    addedNames (name :: names) k = addedNames [name] k ++ addedNames names k := by
  cases k <;> rfl

/-- The entry of one address with methods added to its class. -/
def addMethodsAt (p : Address) (names : List String) (x : Address × ClassInfo) :
    Address × ClassInfo :=
  if x.1 = p then (x.1, x.2.addMethods names) else x

section Grown

variable {bytes bytes' : Bytes} {l l' : Label} {cs cs' : List Node}

theorem Grown.looseNames (h : Grown bytes bytes' (.mk l cs) (.mk l' cs')) {k : MemberKind}
    (hcs : looseNamesAll bytes' k cs' = looseNamesAll bytes k cs) :
    Node.looseNames bytes' k (.mk l' cs') = Node.looseNames bytes k (.mk l cs) := by
  rw [Node.looseNames, Node.looseNames, h.memberNames, hcs, h.isSome_declaration?]

theorem addMethods_nil : ClassInfo.addMethods [] = id := by
  funext c
  simp [ClassInfo.addMethods]

/-- The class of a grown declaration gains the names that its children leave more. -/
theorem Grown.ownClass? (h : Grown bytes bytes' (.mk l cs) (.mk l' cs')) {names : List String}
    (hcs : ∀ k, looseNamesAll bytes' k cs' = looseNamesAll bytes k cs ++ addedNames names k) :
    (Node.mk l' cs').declaration?.bind (Node.ownClass? bytes' · cs') =
      ((Node.mk l cs).declaration?.bind (Node.ownClass? bytes · cs)).map
        (ClassInfo.addMethods names) := by
  rcases h.declaration?_cases with ⟨hn, hn'⟩ | ⟨j, hn, hn'⟩
  · rw [hn, hn', Option.bind_none, Option.bind_none, Option.map_none]
  · rw [hn, hn', Option.bind_some, Option.bind_some, Node.ownClass?, Node.ownClass?, h.name?,
      h.implicitFields, hcs, hcs, Option.map_map]
    congr 1
    funext name
    simp [ClassInfo.addMethods, addedNames]

theorem Grown.ownClass?_eq (h : Grown bytes bytes' (.mk l cs) (.mk l' cs'))
    (hcs : ∀ k, looseNamesAll bytes' k cs' = looseNamesAll bytes k cs) :
    (Node.mk l' cs').declaration?.bind (Node.ownClass? bytes' · cs') =
      (Node.mk l cs).declaration?.bind (Node.ownClass? bytes · cs) := by
  have hnone : ∀ k, looseNamesAll bytes' k cs' = looseNamesAll bytes k cs ++ addedNames [] k := by
    intro k
    rw [hcs, addedNames_nil, List.append_nil]
  rw [h.ownClass? hnone, addMethods_nil, Option.map_id, id_eq]

end Grown

section Relabel

variable {bytes bytes' : Bytes} {f : Label → Label}

theorem grown_relabel {n : Node}
    (h : ∀ m ∈ n.preorder, m.label.ReadsAs bytes bytes' (f m.label)) :
    Grown bytes bytes' n (n.relabel f) := by
  induction n using induction_children with
  | h l cs ih =>
    have hroot := h (mk l cs) (by rw [preorder_mk]; exact List.mem_cons_self ..)
    rw [relabel_mk]
    refine .mk hroot (Interleaved.map fun c hc => ih c hc fun m hm => ?_)
    exact h m (mem_preorder_of_child hc hm)

theorem looseNames_relabel {n : Node}
    (h : ∀ m ∈ n.preorder, m.label.ReadsAs bytes bytes' (f m.label)) (k : MemberKind) :
    looseNames bytes' k (n.relabel f) = looseNames bytes k n := by
  induction n using induction_children with
  | h l cs ih =>
    have hgrown := grown_relabel h
    rw [relabel_mk] at hgrown ⊢
    apply hgrown.looseNames
    rw [looseNamesAll_eq, looseNamesAll_eq, List.flatMap_map]
    apply List.flatMap_congr
    intro c hc
    exact ih c hc fun m hm => h m (mem_preorder_of_child hc hm)

/-- Labels that read the same declare the same classes at the same addresses. -/
theorem placedClasses_relabel {n : Node}
    (h : ∀ m ∈ n.preorder, m.label.ReadsAs bytes bytes' (f m.label)) :
    placedClasses bytes' (n.relabel f) = placedClasses bytes n := by
  induction n using induction_children with
  | h l cs ih =>
    have hgrown := grown_relabel h
    rw [relabel_mk] at hgrown ⊢
    have hloose : ∀ k, looseNamesAll bytes' k (cs.map (relabel f)) = looseNamesAll bytes k cs := by
      intro k
      rw [looseNamesAll_eq, looseNamesAll_eq, List.flatMap_map]
      apply List.flatMap_congr
      intro c hc
      exact looseNames_relabel (fun m hm => h m (mem_preorder_of_child hc hm)) k
    rw [placedClasses, placedClasses, hgrown.ownClass?_eq hloose, placedClassesFrom_eq,
      placedClassesFrom_eq, List.zipIdx_map, List.flatMap_map]
    congr 1
    apply List.flatMap_congr
    rintro ⟨c, i⟩ hx
    have hc : c ∈ cs := List.fst_mem_of_mem_zipIdx hx
    simp only [Prod.map_fst, Prod.map_snd, id_eq,
      ih c hc fun m hm => h m (mem_preorder_of_child hc hm)]

end Relabel

/-! ## New method nodes -/

/-- A method node of a name, held under no role, that has neither declarations
nor other members below it. -/
structure NewMethod (bytes : Bytes) (m : Node) (name : String) : Prop where
  kind : m.kind = "method_declaration"
  role : m.label.role = none
  name : (m.childAs? .name).map (·.trimmedText bytes) = some name
  below : ∀ x ∈ preorderAll m.children, x.declaration? = none ∧ x.member? = none

theorem looseNames_eq_nil (bytes : Bytes) {n : Node}
    (h : ∀ x ∈ n.preorder, x.declaration? = none ∧ x.member? = none) (k : MemberKind) :
    looseNames bytes k n = [] := by
  induction n using induction_children with
  | h l cs ih =>
    obtain ⟨hd, hm⟩ := h (mk l cs) (by rw [preorder_mk]; exact List.mem_cons_self ..)
    have hcs : looseNamesAll bytes k cs = [] := by
      rw [looseNamesAll_eq]
      apply List.flatMap_eq_nil_iff.mpr
      intro c hc
      exact ih c hc fun x hx => h x (mem_preorder_of_child hc hx)
    simp [looseNames, hd, memberNames, hm, hcs]

theorem placedClassesFrom_eq_nil {bytes : Bytes} {cs : List Node}
    (h : ∀ c ∈ cs, placedClasses bytes c = []) (i : Nat) : placedClassesFrom bytes i cs = [] := by
  rw [placedClassesFrom_eq]
  apply List.flatMap_eq_nil_iff.mpr
  rintro ⟨c, j⟩ hx
  rw [h c (List.fst_mem_of_mem_zipIdx hx), List.map_nil]

theorem placedClasses_eq_nil {bytes : Bytes} {n : Node}
    (h : ∀ x ∈ n.preorder, x.declaration? = none) : placedClasses bytes n = [] := by
  induction n using induction_children with
  | h l cs ih =>
    have hd := h (mk l cs) (by rw [preorder_mk]; exact List.mem_cons_self ..)
    rw [placedClasses, hd, placedClassesFrom_eq_nil fun c hc =>
      ih c hc fun x hx => h x (mem_preorder_of_child hc hx)]
    rfl

section NewMethod

variable {bytes : Bytes} {m : Node} {name : String} {news : List Node} {names : List String}

theorem NewMethod.unread (h : NewMethod bytes m name) : m.Unread :=
  ⟨h.role, h.kind⟩

theorem NewMethod.declaration? (h : NewMethod bytes m name) : m.declaration? = none := by
  simp [Node.declaration?, DeclarationKind.ofNodeKind?, createsClass, h.kind]

theorem NewMethod.looseNames (h : NewMethod bytes m name) (k : MemberKind) :
    looseNames bytes k m = addedNames [name] k := by
  have hmember : m.member? = some ⟨.method, m⟩ := by
    simp [member?, MemberKind.ofNodeKind?, h.kind]
  have hnames : memberNames bytes k m = addedNames [name] k := by
    cases k with
    | method => simp [memberNames, hmember, Member.names, h.name, addedNames]
    | field => simp [memberNames, hmember, addedNames]
  have hbelow := h.below
  have hdecl := h.declaration?
  cases m with
  | mk l cs =>
    have hcs : looseNamesAll bytes k cs = [] := by
      rw [looseNamesAll_eq]
      apply List.flatMap_eq_nil_iff.mpr
      intro c hc
      refine looseNames_eq_nil bytes (fun x hx => hbelow x ?_) k
      rw [preorderAll_eq]
      exact List.mem_flatMap.mpr ⟨c, hc, hx⟩
    rw [Node.looseNames, hdecl, hnames, hcs, List.append_nil]
    rfl

theorem NewMethod.placedClasses (h : NewMethod bytes m name) : placedClasses bytes m = [] := by
  have hbelow := h.below
  have hdecl := h.declaration?
  apply placedClasses_eq_nil
  cases m with
  | mk l cs =>
    intro x hx
    rw [preorder] at hx
    rcases List.mem_cons.mp hx with he | hx
    · rw [he, hdecl]
    · exact (hbelow x hx).1

theorem looseNamesAll_newMethods (h : List.Forall₂ (NewMethod bytes) news names)
    (k : MemberKind) : looseNamesAll bytes k news = addedNames names k := by
  induction h with
  | nil => rw [looseNamesAll, addedNames_nil]
  | cons hm _ ih => rw [looseNamesAll, hm.looseNames, ih, ← addedNames_cons]

theorem newMethod_of_mem (h : List.Forall₂ (NewMethod bytes) news names) :
    ∀ m ∈ news, ∃ name, NewMethod bytes m name := by
  induction h with
  | nil => simp
  | cons hm _ ih =>
    intro x hx
    rcases List.mem_cons.mp hx with he | hx
    · exact ⟨_, he ▸ hm⟩
    · exact ih x hx

end NewMethod

/-! ## From the declaration to the root -/

theorem placedClassesFrom_append (bytes : Bytes) (i : Nat) (as bs : List Node) :
    placedClassesFrom bytes i (as ++ bs) =
      placedClassesFrom bytes i as ++ placedClassesFrom bytes (i + as.length) bs := by
  rw [placedClassesFrom_eq, placedClassesFrom_eq, placedClassesFrom_eq, List.zipIdx_append,
    List.flatMap_append]

theorem exists_of_mem_placedClassesFrom {bytes : Bytes} {i : Nat} {cs : List Node}
    {x : Address × ClassInfo} (h : x ∈ placedClassesFrom bytes i cs) :
    ∃ j b, x.1 = j :: b ∧ i ≤ j ∧ j < i + cs.length := by
  rw [placedClassesFrom_eq] at h
  obtain ⟨⟨c, j⟩, hj, hx⟩ := List.mem_flatMap.mp h
  obtain ⟨y, _, rfl⟩ := List.mem_map.mp hx
  have hle := List.le_snd_of_mem_zipIdx hj
  have hlt := List.snd_lt_add_of_mem_zipIdx hj
  exact ⟨j, y.1, rfl, hle, by simp at hlt; omega⟩

theorem ne_of_mem_placedClassesFrom {bytes : Bytes} {i j : Nat} {cs : List Node}
    {x : Address × ClassInfo} (h : x ∈ placedClassesFrom bytes i cs)
    (hj : j < i ∨ i + cs.length ≤ j) (p : Address) : x.1 ≠ j :: p := by
  intro he
  obtain ⟨k, b, hb, hle, hlt⟩ := exists_of_mem_placedClassesFrom h
  have hk := (List.cons.inj (hb.symm.trans he)).1
  omega

theorem map_addMethodsAt_of_ne {p : Address} {names : List String}
    {xs : List (Address × ClassInfo)} (h : ∀ x ∈ xs, x.1 ≠ p) :
    xs.map (addMethodsAt p names) = xs := by
  have hsame : ∀ x ∈ xs, addMethodsAt p names x = id x := by
    intro x hx
    rw [addMethodsAt, if_neg (h x hx), id_eq]
  rw [List.map_congr_left hsame, List.map_id]

theorem addMethodsAt_cons (i : Nat) (p : Address) (names : List String)
    (x : Address × ClassInfo) :
    addMethodsAt (i :: p) names (i :: x.1, x.2) =
      (i :: (addMethodsAt p names x).1, (addMethodsAt p names x).2) := by
  by_cases hx : x.1 = p <;> simp [addMethodsAt, hx]

/-- The second tree says what the first one says, but for methods added to the
class at an address. -/
structure Gains (bytes : Bytes) (p : Address) (names : List String) (n n' : Node) : Prop where
  grown : Grown bytes bytes n n'
  loose : ∀ k, looseNames bytes k n' = looseNames bytes k n
  classes : placedClasses bytes n' = (placedClasses bytes n).map (addMethodsAt p names)

section Gains

variable {bytes : Bytes} {names : List String}

/-- A child that gains methods at an address below it makes its parent gain them. -/
theorem Gains.below {p : Address} {c c' : Node} (h : Gains bytes p names c c') (l : Label)
    (before after : List Node) :
    Gains bytes (before.length :: p) names (.mk l (before ++ c :: after))
      (.mk l (before ++ c' :: after)) := by
  have hgrown : Grown bytes bytes (.mk l (before ++ c :: after)) (.mk l (before ++ c' :: after)) :=
    .mk (.refl bytes l)
      ((Interleaved.self bytes before).append (.both h.grown (Interleaved.self bytes after)))
  have hloose : ∀ k, looseNamesAll bytes k (before ++ c' :: after) =
      looseNamesAll bytes k (before ++ c :: after) := by
    intro k
    simp only [looseNamesAll_eq, List.flatMap_append, List.flatMap_cons, h.loose]
  refine ⟨hgrown, fun k => hgrown.looseNames (hloose k), ?_⟩
  -- Only the entries of the child itself are at addresses that start with its number.
  have hbefore : ∀ x ∈ placedClassesFrom bytes 0 before, x.1 ≠ before.length :: p :=
    fun x hx => ne_of_mem_placedClassesFrom hx (Or.inr (by omega)) p
  have hafter : ∀ x ∈ placedClassesFrom bytes (0 + before.length + 1) after,
      x.1 ≠ before.length :: p :=
    fun x hx => ne_of_mem_placedClassesFrom hx (Or.inl (by omega)) p
  have hroot : ∀ o : Option ClassInfo, ∀ x ∈ (o.map (([] : Address), ·)).toList,
      x.1 ≠ before.length :: p := by
    intro o x hx
    cases o with
    | none => simp at hx
    | some c => simp_all
  rw [placedClasses, placedClasses, hgrown.ownClass?_eq hloose, placedClassesFrom_append,
    placedClassesFrom_append, placedClassesFrom, placedClassesFrom, List.map_append,
    List.map_append, List.map_append, map_addMethodsAt_of_ne (hroot _),
    map_addMethodsAt_of_ne hbefore, map_addMethodsAt_of_ne hafter, h.classes, List.map_map,
    List.map_map]
  congr 3
  apply List.map_congr_left
  intro x _
  simp only [Function.comp_apply, Nat.zero_add, addMethodsAt_cons]

end Gains

/-! ## Methods before a closing brace -/

def insertBeforeLast (news : List Node) : Node → Node
  | mk l cs => mk l (cs.dropLast ++ news ++ cs.getLast?.toList)

/-- The body of a declaration as the insertion needs it: no declaration itself,
and closed by a node that has no children and says nothing. -/
structure Closed (body : Node) : Prop where
  plain : body.declaration? = none
  last : ∃ closing, body.children.getLast? = some closing ∧ closing.children = [] ∧
    closing.declaration? = none ∧ closing.member? = none

section Body

variable {bytes : Bytes} {names : List String} {news : List Node} {body : Node}

theorem Closed.relabel {bytes bytes' : Bytes} {f : Label → Label} (h : Closed body)
    (hreads : ∀ m ∈ body.preorder, m.label.ReadsAs bytes bytes' (f m.label)) :
    Closed (body.relabel f) := by
  obtain ⟨closing, hlast, hempty, hd, hm⟩ := h.last
  have hclosing : Grown bytes bytes' closing (closing.relabel f) := by
    apply grown_relabel
    intro m hm
    exact hreads m (mem_preorder_of_mem_children (List.mem_of_getLast? hlast) hm)
  refine ⟨(grown_relabel hreads).declaration?_eq_none h.plain, closing.relabel f, ?_, ?_,
    hclosing.declaration?_eq_none hd, ?_⟩
  · rw [children_relabel, List.getLast?_map, hlast, Option.map_some]
  · rw [children_relabel, hempty, List.map_nil]
  · rw [member?, hclosing.kind]
    rw [member?, Option.map_eq_none_iff] at hm
    rw [hm, Option.map_none]

theorem insertBeforeLast_eq (h : Closed body) (news : List Node) :
    ∃ l cs closing, body = mk l (cs ++ [closing]) ∧
      body.insertBeforeLast news = mk l (cs ++ news ++ [closing]) ∧
      ∀ x ∈ closing.preorder, x.declaration? = none ∧ x.member? = none := by
  obtain ⟨closing, hlast, hempty, hd, hm⟩ := h.last
  cases body with
  | mk l cs =>
    obtain ⟨cs, rfl⟩ := List.getLast?_eq_some_iff.mp hlast
    refine ⟨l, cs, closing, rfl, by simp [insertBeforeLast], ?_⟩
    cases closing with
    | mk lc cc =>
      have hcc : cc = [] := hempty
      subst hcc
      intro x hx
      have he : x = mk lc [] := by simpa [preorder_mk] using hx
      rw [he]
      exact ⟨hd, hm⟩

theorem grown_insert (hnews : List.Forall₂ (NewMethod bytes) news names) (h : Closed body) :
    Grown bytes bytes body (body.insertBeforeLast news) := by
  obtain ⟨l, cs, closing, rfl, hinsert, _⟩ := insertBeforeLast_eq h news
  have hadded : Interleaved (Grown bytes bytes) [] news := by
    apply Interleaved.of_added
    intro m hm
    obtain ⟨name, hname⟩ := newMethod_of_mem hnews m hm
    exact hname.unread
  rw [hinsert]
  have hcs := ((Interleaved.self bytes cs).append hadded).append (Interleaved.self bytes [closing])
  rw [List.append_nil] at hcs
  exact .mk (.refl bytes l) hcs

/-- A body leaves the names of methods put before its brace, after its own. -/
theorem looseNames_insert (hnews : List.Forall₂ (NewMethod bytes) news names) (h : Closed body)
    (k : MemberKind) : looseNames bytes k (body.insertBeforeLast news) =
      looseNames bytes k body ++ addedNames names k := by
  have hgrown := grown_insert hnews h
  have hd' := (grown_insert hnews h).declaration?_eq_none h.plain
  have hd := h.plain
  obtain ⟨l, cs, closing, rfl, hinsert, hclosing⟩ := insertBeforeLast_eq h news
  have hlast := looseNames_eq_nil bytes hclosing k
  have hnames := looseNamesAll_newMethods hnews k
  rw [hinsert] at hgrown hd' ⊢
  rw [looseNamesAll_eq] at hnames
  rw [looseNames, looseNames, hd, hd', hgrown.memberNames, looseNamesAll_eq, looseNamesAll_eq]
  simp [hlast, hnames]

theorem placedClasses_insert (hnews : List.Forall₂ (NewMethod bytes) news names)
    (h : Closed body) :
    placedClasses bytes (body.insertBeforeLast news) = placedClasses bytes body := by
  have hd' := (grown_insert hnews h).declaration?_eq_none h.plain
  have hd := h.plain
  obtain ⟨l, cs, closing, rfl, hinsert, hclosing⟩ := insertBeforeLast_eq h news
  rw [hinsert] at hd' ⊢
  have hnone : ∀ i, placedClassesFrom bytes i news = [] := by
    apply placedClassesFrom_eq_nil
    intro m hm
    obtain ⟨name, hname⟩ := newMethod_of_mem hnews m hm
    exact hname.placedClasses
  have hend : ∀ i, placedClassesFrom bytes i [closing] = [] := by
    apply placedClassesFrom_eq_nil
    intro c hc
    rw [List.mem_singleton.mp hc]
    exact placedClasses_eq_nil fun x hx => (hclosing x hx).1
  rw [placedClasses, placedClasses, hd, hd', Option.bind_none, Option.bind_none]
  simp only [placedClassesFrom_append, hnone, hend, List.append_nil]

/-- A declaration that ends with its body gains the methods put before the brace. -/
theorem gains_insert (hnews : List.Forall₂ (NewMethod bytes) news names) (h : Closed body)
    {l : Label} {cs : List Node} (hd : (mk l (cs ++ [body])).declaration?.isSome) :
    Gains bytes [] names (.mk l (cs ++ [body])) (.mk l (cs ++ [body.insertBeforeLast news])) := by
  have hgrown : Grown bytes bytes (.mk l (cs ++ [body]))
      (.mk l (cs ++ [body.insertBeforeLast news])) :=
    .mk (.refl bytes l)
      ((Interleaved.self bytes cs).append (.both (grown_insert hnews h) .nil))
  have hloose : ∀ k, looseNamesAll bytes k (cs ++ [body.insertBeforeLast news]) =
      looseNamesAll bytes k (cs ++ [body]) ++ addedNames names k := by
    intro k
    simp [looseNamesAll_eq, looseNames_insert hnews h]
  have hd' := hgrown.isSome_declaration?.trans hd
  refine ⟨hgrown, fun k => ?_, ?_⟩
  · rw [looseNames, looseNames, if_pos hd, if_pos hd']
  · have hbelow : ∀ x ∈ placedClassesFrom bytes 0 (cs ++ [body]), x.1 ≠ [] := by
      intro x hx he
      obtain ⟨j, b, hb, _⟩ := exists_of_mem_placedClassesFrom hx
      rw [he] at hb
      cases hb
    rw [placedClasses, placedClasses, hgrown.ownClass? hloose, List.map_append,
      map_addMethodsAt_of_ne hbelow, placedClassesFrom_append, placedClassesFrom_append,
      placedClassesFrom, placedClassesFrom, placedClasses_insert hnews h]
    congr 1
    cases (mk l (cs ++ [body])).declaration?.bind (ownClass? bytes · (cs ++ [body])) with
    | none => rfl
    | some c => rfl

end Body

/-! ## The tree -/

def modifyAt (f : Node → Node) : Address → Node → Node
  | [], n => f n
  | i :: a, mk l cs => mk l (cs.modify i (modifyAt f a))

theorem modifyAt_append (f : Node → Node) (a b : Address) (n : Node) :
    n.modifyAt f (a ++ b) = n.modifyAt (modifyAt f b) a := by
  induction a generalizing n with
  | nil => rw [List.nil_append, modifyAt]
  | cons i a ih =>
    cases n with
    | mk l cs =>
      have hf : modifyAt f (a ++ b) = modifyAt (modifyAt f b) a := funext ih
      rw [List.cons_append, modifyAt, modifyAt, hf]

theorem modifyAt_last (f : Node → Node) (l : Label) (cs : List Node) (c : Node) :
    (mk l (cs ++ [c])).modifyAt f [cs.length] = mk l (cs ++ [f c]) := by
  rw [modifyAt, List.modify_eq_take_cons_drop (by simp)]
  simp [modifyAt]

/-- What the node at an address gains, the whole tree gains there. -/
theorem gains_modifyAt {bytes : Bytes} {names : List String} {f : Node → Node} {n m : Node}
    {p : Address} (hp : n.at? p = some m) (hm : Gains bytes [] names m (f m)) :
    Gains bytes p names n (n.modifyAt f p) := by
  induction p generalizing n with
  | nil =>
    have he : n = m := Option.some.inj hp
    rw [he]
    exact hm
  | cons i p ih =>
    cases n with
    | mk l cs =>
      obtain ⟨c, hc, hcp⟩ := Option.bind_eq_some_iff.mp hp
      obtain ⟨hi, _⟩ := List.getElem?_eq_some_iff.mp hc
      rw [children] at hi
      obtain ⟨before, c₀, after, rfl, rfl, hmodify⟩ := List.exists_of_modify (modifyAt f p) hi
      have he : c₀ = c := by simpa [children] using hc
      subst he
      rw [modifyAt, hmodify]
      exact (ih hcp).below l before after

end Node

end ClassOutline
