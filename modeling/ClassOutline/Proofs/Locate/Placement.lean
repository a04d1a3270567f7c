import ClassOutline.Locate
import ClassOutline.Proofs.Outline.Ownership
import Mathlib.Data.List.Flatten

/-!
# Where the listed declarations stand

The locator lists declarations, and two of them can be equal as values. Here the
same list is made with addresses: `placedDeclarations` goes the locator's way
from declaration to member declaration and keeps the child numbers. Dropping the
addresses gives back the list (`map_placedDeclarations`), and the addresses come
in pre-order, each once (`addresses_placedDeclarations`).
-/

namespace ClassOutline

/-- A declaration with its address below some node. -/
abbrev Placed := Address × Declaration

namespace Node

/-- What is found in each child, with the child's number put before the address. -/
def gather (find : Node → List Placed) (n : Node) : List Placed :=
  n.children.zipIdx.flatMap fun x => (find x.1).map fun y => (x.2 :: y.1, y.2)

def ownPlace (n : Node) : List Placed :=
  (n.declaration?.map (([] : Address), ·)).toList

def namedPlace (n : Node) : List Placed :=
  if n.label.named then n.ownPlace else []

/-- The member declarations that one child of a body contributes. In an
enumeration (`opened`) the node after the constants stands for its own children. -/
def memberPlaces (opened : Bool) (n : Node) : List Placed :=
  if opened && n.label.named && n.kind = "enum_body_declarations" then n.gather namedPlace
  else n.namedPlace

end Node

namespace Declaration

/-- The child number of the body. -/
def bodyIndex? (d : Declaration) : Option Nat :=
  match d.kind with
  | .anonymous =>
    (d.node.children.findIdx? (·.label.role = some .body)).or
      (d.node.children.findIdx? fun c => c.label.named && c.kind = "class_body")
  | _ => d.node.children.findIdx? (·.label.role = some .body)

def opensBlocks (d : Declaration) : Bool :=
  d.kind = .enumeration

def placedMembers (d : Declaration) : List Placed :=
  match d.bodyIndex? with
  | none => []
  | some b =>
    ((d.node.children[b]?.map (Node.gather (Node.memberPlaces d.opensBlocks))).getD []).map
      fun y => (b :: y.1, y.2)

end Declaration

/-- The locator's list with addresses. -/
def listPlaced (nested : Bool) : Nat → List Placed → List Placed
  | 0, _ => []
  | _, [] => []
  | k + 1, x :: rest =>
    x :: listPlaced nested k
      ((if nested then x.2.placedMembers.map fun y => (x.1 ++ y.1, y.2) else []) ++ rest)

def Source.placedDeclarations (s : Source) (nested : Bool) : List Placed :=
  listPlaced nested s.root.size (s.root.gather Node.ownPlace)

/-! ## The addresses lead to the declarations -/

namespace Node

theorem find?_eq_bind_findIdx? (p : Node → Bool) (cs : List Node) :
    cs.find? p = (cs.findIdx? p).bind (cs[·]?) := by
  induction cs with
  | nil => rfl
  | cons c cs ih =>
    rw [List.find?_cons, List.findIdx?_cons]
    cases p c with
    | true => rfl
    | false =>
      rw [ih]
      cases cs.findIdx? p <;> rfl

theorem mem_gather {find : Node → List Placed} {n : Node} {x : Placed} :
    x ∈ n.gather find ↔
      ∃ i c y, n.children[i]? = some c ∧ y ∈ find c ∧ x = (i :: y.1, y.2) := by
  unfold gather
  constructor
  · intro hx
    obtain ⟨⟨c, i⟩, hc, hx⟩ := List.mem_flatMap.mp hx
    obtain ⟨y, hy, rfl⟩ := List.mem_map.mp hx
    exact ⟨i, c, y, List.mk_mem_zipIdx_iff_getElem?.mp hc, hy, rfl⟩
  · rintro ⟨i, c, y, hc, hy, rfl⟩
    have hmem : (c, i) ∈ n.children.zipIdx := List.mk_mem_zipIdx_iff_getElem?.mpr hc
    exact List.mem_flatMap.mpr ⟨(c, i), hmem, List.mem_map.mpr ⟨y, hy, rfl⟩⟩

theorem mem_ownPlace {n : Node} {x : Placed} :
    x ∈ n.ownPlace ↔ n.declaration? = some x.2 ∧ x.1 = [] := by
  obtain ⟨a, d⟩ := x
  simp only [ownPlace, Option.mem_toList, Option.map_eq_some_iff, Prod.mk.injEq]
  constructor
  · rintro ⟨e, he, rfl, rfl⟩
    exact ⟨he, rfl⟩
  · rintro ⟨hd, rfl⟩
    exact ⟨d, hd, rfl, rfl⟩

theorem declarationAt?_child {n c : Node} {i : Nat} (hc : n.children[i]? = some c) (a : Address) :
    n.declarationAt? (i :: a) = c.declarationAt? a := by
  cases n with
  | mk l cs => exact declarationAt?_cons hc a

/-- Where each find in a child is at its address, so is each find below the node. -/
theorem declarationAt?_gather {find : Node → List Placed} {n : Node}
    (h : ∀ c ∈ n.children, ∀ y ∈ find c, c.declarationAt? y.1 = some y.2) :
    ∀ x ∈ n.gather find, n.declarationAt? x.1 = some x.2 := by
  intro x hx
  obtain ⟨i, c, y, hc, hy, rfl⟩ := mem_gather.mp hx
  rw [declarationAt?_child hc]
  exact h c (List.mem_of_getElem? hc) y hy

theorem declarationAt?_ownPlace {n : Node} : ∀ x ∈ n.ownPlace, n.declarationAt? x.1 = some x.2 := by
  intro x hx
  obtain ⟨hd, ha⟩ := mem_ownPlace.mp hx
  rw [ha, declarationAt?, at?, Option.bind_some, hd]

theorem mem_ownPlace_of_namedPlace {n : Node} {x : Placed} (h : x ∈ n.namedPlace) :
    x ∈ n.ownPlace := by
  unfold namedPlace at h
  split at h
  · exact h
  · simp at h

theorem declarationAt?_memberPlaces {opened : Bool} {n : Node} :
    ∀ x ∈ n.memberPlaces opened, n.declarationAt? x.1 = some x.2 := by
  intro x hx
  unfold memberPlaces at hx
  split at hx
  · refine declarationAt?_gather (fun c _ y hy => ?_) x hx
    exact declarationAt?_ownPlace y (mem_ownPlace_of_namedPlace hy)
  · exact declarationAt?_ownPlace x (mem_ownPlace_of_namedPlace hx)

theorem at?_append (n : Node) (a b : Address) : n.at? (a ++ b) = (n.at? a).bind (·.at? b) := by
  induction a generalizing n with
  | nil => rfl
  | cons i a ih =>
    rw [List.cons_append, at?, at?]
    cases n.children[i]? with
    | none => rfl
    | some c => exact ih c

theorem declarationAt?_append {n : Node} {a : Address} {d : Declaration}
    (h : n.declarationAt? a = some d) (b : Address) :
    n.declarationAt? (a ++ b) = d.node.declarationAt? b := by
  obtain ⟨m, hm, hd⟩ := Option.bind_eq_some_iff.mp h
  rw [declarationAt?, at?_append, hm, Option.bind_some, node_of_declaration? hd]
  rfl

end Node

namespace Declaration

theorem body?_eq (d : Declaration) : d.body? = d.bodyIndex?.bind (d.node.children[·]?) := by
  have hrole : d.node.childAs? .body =
      (d.node.children.findIdx? (·.label.role = some .body)).bind (d.node.children[·]?) := by
    rw [Node.childAs?, Node.find?_eq_bind_findIdx?]
  have hclass : d.node.namedChildren.find? (·.kind = "class_body") =
      (d.node.children.findIdx? fun c => c.label.named && c.kind = "class_body").bind
        (d.node.children[·]?) := by
    rw [Node.namedChildren, List.find?_filter, Node.find?_eq_bind_findIdx?]
    simp
  unfold body? bodyIndex?
  cases d.kind with
  | anonymous =>
    simp only [hrole, hclass]
    cases hi : d.node.children.findIdx? (·.label.role = some .body) with
    | none => rfl
    | some i =>
      obtain ⟨hlt, _⟩ := List.findIdx?_eq_some_iff_getElem.mp hi
      simp [List.getElem?_eq_getElem hlt]
  | plainClass | interface | enumeration | record | annotationType => exact hrole

theorem exists_body {d : Declaration} {b : Nat} (h : d.bodyIndex? = some b) :
    ∃ body, d.node.children[b]? = some body := by
  have hrange : ∀ p : Node → Bool, d.node.children.findIdx? p = some b →
      ∃ body, d.node.children[b]? = some body := by
    intro p hp
    obtain ⟨hlt, _⟩ := List.findIdx?_eq_some_iff_getElem.mp hp
    exact ⟨_, List.getElem?_eq_getElem hlt⟩
  unfold bodyIndex? at h
  split at h
  · rcases Option.or_eq_some_iff.mp h with hr | ⟨_, hc⟩
    · exact hrange _ hr
    · exact hrange _ hc
  · exact hrange _ h

theorem mem_placedMembers {d : Declaration} {x : Placed} :
    x ∈ d.placedMembers ↔ ∃ b body y, d.bodyIndex? = some b ∧ d.node.children[b]? = some body ∧
      y ∈ body.gather (Node.memberPlaces d.opensBlocks) ∧ x = (b :: y.1, y.2) := by
  unfold placedMembers
  cases hb : d.bodyIndex? with
  | none => simp
  | some b =>
    cases hbody : d.node.children[b]? with
    | none => simp [hbody]
    | some body =>
      simp only [hbody, Option.map_some, Option.getD_some, List.mem_map, Option.some.injEq]
      constructor
      · rintro ⟨y, hy, rfl⟩
        exact ⟨b, body, y, rfl, hbody, hy, rfl⟩
      · rintro ⟨b', body', y, rfl, hbody', hy, rfl⟩
        have he : body = body' := by simpa [hbody] using hbody'
        exact ⟨y, he ▸ hy, rfl⟩

theorem declarationAt?_placedMembers {d : Declaration} :
    ∀ x ∈ d.placedMembers, d.node.declarationAt? x.1 = some x.2 := by
  intro x hx
  obtain ⟨b, body, y, _, hbody, hy, rfl⟩ := mem_placedMembers.mp hx
  rw [Node.declarationAt?_child hbody]
  exact Node.declarationAt?_gather (fun c _ => Node.declarationAt?_memberPlaces) y hy

end Declaration

/-! ## Dropping the addresses -/

namespace Node

theorem map_gather (find : Node → List Placed) (n : Node) :
    (n.gather find).map (·.2) = n.children.flatMap fun c => (find c).map (·.2) := by
  rw [gather, List.map_flatMap, ← flatMap_zipIdx_fst]
  simp only [List.map_map]
  rfl

theorem map_ownPlace (n : Node) : n.ownPlace.map (·.2) = n.declaration?.toList := by
  unfold ownPlace
  cases n.declaration? <;> rfl

theorem map_gather_ownPlace (n : Node) :
    (n.gather ownPlace).map (·.2) = n.children.filterMap declaration? := by
  rw [map_gather, List.filterMap_eq_flatMap_toList]
  simp only [map_ownPlace]

theorem flatMap_namedChildren {α : Type} (n : Node) (f : Node → List α) :
    n.namedChildren.flatMap f = n.children.flatMap fun c => if c.label.named then f c else [] := by
  unfold namedChildren
  induction n.children with
  | nil => rfl
  | cons c cs ih => by_cases hc : c.label.named = true <;> simp [hc, ih]

theorem map_namedPlace (n : Node) :
    n.namedPlace.map (·.2) = if n.label.named then n.declaration?.toList else [] := by
  unfold namedPlace
  split
  · exact n.map_ownPlace
  · rfl

theorem map_gather_namedPlace (n : Node) :
    (n.gather namedPlace).map (·.2) = n.namedChildren.filterMap declaration? := by
  rw [map_gather, List.filterMap_eq_flatMap_toList, flatMap_namedChildren]
  simp only [map_namedPlace]

end Node

theorem Declaration.map_placedMembers (d : Declaration) :
    d.placedMembers.map (·.2) = d.memberDeclarations := by
  unfold placedMembers memberDeclarations memberNodes
  rw [d.body?_eq]
  cases d.bodyIndex? with
  | none => rfl
  | some b =>
    cases hbody : d.node.children[b]? with
    | none => simp [hbody]
    | some body =>
      simp only [hbody, Option.bind_some, Option.map_some, Option.getD_some, List.map_map]
      change (body.gather (Node.memberPlaces d.opensBlocks)).map (·.2) = _
      rw [Node.map_gather]
      split
      · rename_i hk
        rw [List.filterMap_flatMap, Node.flatMap_namedChildren]
        apply List.flatMap_congr
        intro c _
        by_cases hnamed : c.label.named = true
        · by_cases hblock : c.kind = "enum_body_declarations"
          · simp [Node.memberPlaces, opensBlocks, hk, hnamed, hblock, Node.map_gather_namedPlace]
          · simp [Node.memberPlaces, hnamed, hblock, Node.map_namedPlace,
              List.filterMap_eq_flatMap_toList]
        · simp [Node.memberPlaces, hnamed, Node.map_namedPlace]
      · rename_i hk
        have hclosed : d.opensBlocks = false := by
          unfold opensBlocks
          simpa using hk
        rw [← Node.map_gather_namedPlace, Node.map_gather]
        simp [Node.memberPlaces, hclosed]

theorem map_listPlaced (nested : Bool) (k : Nat) (xs : List Placed) :
    (listPlaced nested k xs).map (·.2) = listDeclarations nested k (xs.map (·.2)) := by
  induction k generalizing xs with
  | zero => rfl
  | succ k ih =>
    cases xs with
    | nil => rfl
    | cons x rest =>
      rw [listPlaced, List.map_cons, List.map_cons, listDeclarations, ih, List.map_append]
      cases nested with
      | true => simp [← Declaration.map_placedMembers, Function.comp_def]
      | false => simp

theorem Source.map_placedDeclarations (s : Source) (nested : Bool) :
    (s.placedDeclarations nested).map (·.2) = s.declarations nested := by
  rw [placedDeclarations, map_listPlaced, Node.map_gather_ownPlace]
  rfl

def Source.placedNamed? (s : Source) (name : String) (nested : Bool) : Option Placed :=
  (s.placedDeclarations nested).find? (·.2.name? s.bytes = some name)

theorem Source.declarationNamed?_eq (s : Source) (name : String) (nested : Bool) :
    s.declarationNamed? name nested = (s.placedNamed? name nested).map (·.2) := by
  rw [declarationNamed?, ← map_placedDeclarations, List.find?_map]
  rfl

/-- What holds of the declarations to come and passes to members holds of every
listed one. -/
theorem forall_mem_listPlaced {P : Placed → Prop} {nested : Bool}
    (hmember : ∀ x, P x → ∀ y ∈ x.2.placedMembers, P (x.1 ++ y.1, y.2)) (k : Nat)
    {xs : List Placed} (h : ∀ x ∈ xs, P x) : ∀ x ∈ listPlaced nested k xs, P x := by
  induction k generalizing xs with
  | zero => simp [listPlaced]
  | succ k ih =>
    cases xs with
    | nil => simp [listPlaced]
    | cons e rest =>
      intro x hx
      rw [listPlaced] at hx
      have he : P e := h e (List.mem_cons_self ..)
      rcases List.mem_cons.mp hx with hx | hx
      · rwa [hx]
      · refine ih (fun y hy => ?_) x hx
        rcases List.mem_append.mp hy with hy | hy
        · cases nested with
          | true =>
            obtain ⟨m, hm, rfl⟩ := List.mem_map.mp hy
            exact hmember e he m hm
          | false => cases hy
        · exact h y (List.mem_cons_of_mem _ hy)

/-- The declarations that can be listed: the root's class-like children, and the
member declarations of those that can be listed. -/
inductive Reached (root : Node) : Placed → Prop where
  | top {x : Placed} (h : x ∈ root.gather Node.ownPlace) : Reached root x
  | member {x y : Placed} (h : Reached root x) (hy : y ∈ x.2.placedMembers) :
      Reached root (x.1 ++ y.1, y.2)

theorem Source.reached_of_mem {s : Source} {nested : Bool} {x : Placed}
    (h : x ∈ s.placedDeclarations nested) : Reached s.root x :=
  forall_mem_listPlaced (fun _ hx _ hy => hx.member hy) _ (fun _ hx => .top hx) x h

theorem Source.reached_of_placedNamed? {s : Source} {name : String} {nested : Bool} {x : Placed}
    (h : s.placedNamed? name nested = some x) :
    Reached s.root x ∧ x.2.name? s.bytes = some name :=
  ⟨s.reached_of_mem (List.mem_of_find?_eq_some h), by simpa using List.find?_some h⟩

theorem Reached.declarationAt? {root : Node} {x : Placed} (h : Reached root x) :
    root.declarationAt? x.1 = some x.2 := by
  induction h with
  | top h => exact Node.declarationAt?_gather (fun _ _ => Node.declarationAt?_ownPlace) _ h
  | member h hy ih =>
    rw [Node.declarationAt?_append ih]
    exact Declaration.declarationAt?_placedMembers _ hy

theorem Node.at?_of_declarationAt? {root : Node} {p : Address} {d : Declaration}
    (h : root.declarationAt? p = some d) :
    root.at? p = some d.node ∧ d.node.declaration? = some d := by
  obtain ⟨n, hn, hd⟩ := Option.bind_eq_some_iff.mp h
  have he := Node.node_of_declaration? hd
  exact ⟨he ▸ hn, he ▸ hd⟩

/-- Every declaration of a source stands somewhere in its tree. -/
theorem Source.mem_preorder_of_mem_declarations {s : Source} {nested : Bool} {d : Declaration}
    (h : d ∈ s.declarations nested) :
    d.node ∈ s.root.preorder ∧ d.node.declaration? = some d := by
  rw [← s.map_placedDeclarations] at h
  obtain ⟨x, hx, rfl⟩ := List.mem_map.mp h
  obtain ⟨hat, hd⟩ := Node.at?_of_declarationAt? (s.reached_of_mem hx).declarationAt?
  exact ⟨Node.mem_preorder_of_at? hat, hd⟩

/-! ## Pre-order -/

/-- The addresses of the trees of placed declarations. -/
def treeAddresses (xs : List Placed) : List Address :=
  xs.flatMap fun x => x.2.node.addresses.map (x.1 ++ ·)

theorem treeAddresses_append (xs ys : List Placed) :
    treeAddresses (xs ++ ys) = treeAddresses xs ++ treeAddresses ys := by
  rw [treeAddresses, List.flatMap_append]
  rfl

theorem treeAddresses_map_append (p : Address) (xs : List Placed) :
    treeAddresses (xs.map fun y => (p ++ y.1, y.2)) = (treeAddresses xs).map (p ++ ·) := by
  unfold treeAddresses
  rw [List.flatMap_map, List.map_flatMap]
  simp [Function.comp_def]

namespace Node

theorem tail_addresses (n : Node) :
    n.addresses.tail = n.children.zipIdx.flatMap fun x => x.1.addresses.map (x.2 :: ·) := by
  cases n with
  | mk l cs => rw [addresses_mk, List.tail_cons, children]

theorem addresses_eq_cons (n : Node) : n.addresses = [] :: n.addresses.tail := by
  cases n with
  | mk l cs => rw [addresses_mk, List.tail_cons]

theorem treeAddresses_gather {find : Node → List Placed}
    (h : ∀ c, (treeAddresses (find c)).Sublist c.addresses) (n : Node) :
    (treeAddresses (n.gather find)).Sublist n.addresses.tail := by
  have hchild : treeAddresses (n.gather find) =
      n.children.zipIdx.flatMap fun x => (treeAddresses (find x.1)).map (x.2 :: ·) := by
    unfold gather
    rw [treeAddresses, List.flatMap_assoc]
    apply List.flatMap_congr
    intro x _
    exact treeAddresses_map_append [x.2] (find x.1)
  rw [hchild, tail_addresses]
  exact List.Sublist.flatMap_right _ fun x _ => (h x.1).map _

theorem treeAddresses_ownPlace (n : Node) : (treeAddresses n.ownPlace).Sublist n.addresses := by
  unfold ownPlace treeAddresses
  cases hd : n.declaration? with
  | none => simp
  | some d => simp [node_of_declaration? hd]

theorem treeAddresses_namedPlace (n : Node) :
    (treeAddresses n.namedPlace).Sublist n.addresses := by
  unfold namedPlace
  split
  · exact n.treeAddresses_ownPlace
  · exact List.nil_sublist _

theorem treeAddresses_memberPlaces (opened : Bool) (n : Node) :
    (treeAddresses (n.memberPlaces opened)).Sublist n.addresses := by
  unfold memberPlaces
  split
  · exact (treeAddresses_gather treeAddresses_namedPlace n).trans (List.tail_sublist _)
  · exact n.treeAddresses_namedPlace

end Node

theorem Declaration.treeAddresses_placedMembers (d : Declaration) :
    (treeAddresses d.placedMembers).Sublist d.node.addresses.tail := by
  unfold placedMembers
  cases d.bodyIndex? with
  | none => exact List.nil_sublist _
  | some b =>
    cases hbody : d.node.children[b]? with
    | none => simp [hbody, treeAddresses]
    | some body =>
      simp only [hbody, Option.map_some, Option.getD_some]
      have hmap := treeAddresses_map_append [b] (body.gather (Node.memberPlaces d.opensBlocks))
      simp only [List.singleton_append] at hmap
      have hin := (Node.treeAddresses_gather (Node.treeAddresses_memberPlaces d.opensBlocks)
        body).trans (List.tail_sublist _)
      have hmem : (body, b) ∈ d.node.children.zipIdx := List.mk_mem_zipIdx_iff_getElem?.mpr hbody
      have hone := (List.singleton_sublist.mpr hmem).flatMap fun x => x.1.addresses.map (x.2 :: ·)
      rw [List.flatMap_singleton] at hone
      rw [hmap, Node.tail_addresses]
      exact (hin.map _).trans hone

/-- The locator never turns back: from a declaration it goes on to nodes below it
and to those that were to come. -/
theorem treeAddresses_next (nested : Bool) (x : Placed) (rest : List Placed) :
    (x.1 :: treeAddresses ((if nested then x.2.placedMembers.map fun y => (x.1 ++ y.1, y.2)
      else []) ++ rest)).Sublist (treeAddresses (x :: rest)) := by
  have hown : treeAddresses (x :: rest) =
      x.1 :: (x.2.node.addresses.tail.map (x.1 ++ ·) ++ treeAddresses rest) := by
    rw [treeAddresses, List.flatMap_cons, Node.addresses_eq_cons, List.map_cons, List.append_nil]
    rfl
  rw [hown, treeAddresses_append]
  refine List.Sublist.cons_cons _ (List.Sublist.append ?_ (List.Sublist.refl _))
  cases nested with
  | false => exact List.nil_sublist _
  | true =>
    rw [if_pos rfl, treeAddresses_map_append]
    exact x.2.treeAddresses_placedMembers.map _

/-- What the locator lists comes in the pre-order of the trees it set out with. -/
theorem addresses_listPlaced (nested : Bool) (k : Nat) (xs : List Placed) :
    ((listPlaced nested k xs).map (·.1)).Sublist (treeAddresses xs) := by
  induction k generalizing xs with
  | zero => exact List.nil_sublist _
  | succ k ih =>
    cases xs with
    | nil => exact List.nil_sublist _
    | cons x rest =>
      rw [listPlaced, List.map_cons]
      exact ((ih _).cons_cons x.1).trans (treeAddresses_next nested x rest)

theorem Source.addresses_placedDeclarations (s : Source) (nested : Bool) :
    ((s.placedDeclarations nested).map (·.1)).Sublist s.root.addresses :=
  ((addresses_listPlaced nested _ _).trans
    (Node.treeAddresses_gather Node.treeAddresses_ownPlace s.root)).trans (List.tail_sublist _)

/-! ## The bound on the list is never reached -/

theorem Node.length_addresses (n : Node) : n.addresses.length = n.size := by
  have h := congrArg List.length (map_at?_addresses n)
  rwa [List.length_map, List.length_map, length_preorder] at h

/-- A larger bound lists the same declarations. -/
theorem listPlaced_eq_of_le (nested : Bool) {k k' : Nat} {xs : List Placed}
    (h : (treeAddresses xs).length ≤ k) (hk : k ≤ k') :
    listPlaced nested k' xs = listPlaced nested k xs := by
  induction k generalizing k' xs with
  | zero =>
    cases xs with
    | nil => cases k' <;> rfl
    | cons x rest =>
      have hnext := (treeAddresses_next nested x rest).length_le
      rw [List.length_cons] at hnext
      omega
  | succ k ih =>
    obtain ⟨j, rfl⟩ : ∃ j, k' = j + 1 := ⟨k' - 1, by omega⟩
    cases xs with
    | nil => rfl
    | cons x rest =>
      have hnext := (treeAddresses_next nested x rest).length_le
      rw [List.length_cons] at hnext
      rw [listPlaced, listPlaced, ih (by omega) (by omega)]

theorem Source.placedDeclarations_eq (s : Source) (nested : Bool) {k : Nat}
    (h : s.root.size ≤ k) :
    listPlaced nested k (s.root.gather Node.ownPlace) = s.placedDeclarations nested := by
  refine listPlaced_eq_of_le nested ?_ h
  have hlen := (Node.treeAddresses_gather Node.treeAddresses_ownPlace s.root).length_le
  rw [List.length_tail, Node.length_addresses] at hlen
  omega

end ClassOutline
