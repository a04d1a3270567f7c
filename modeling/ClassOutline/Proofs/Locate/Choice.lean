import ClassOutline.Proofs.Locate.Placement
import Mathlib.Data.List.DropRight
import Mathlib.Data.List.Lex

/-!
# Which declaration the locator chooses

The locator keeps a list of declarations to come and puts the members of each in front
of it. What it lists that way is the recursive pre-order: a declaration, then what is
reached through its members, one after the other (`family`). The choice is the first of
the name in that order, closed or not. Members come before later declarations of the
root, so with `nested` a member of an earlier one can take the choice, and nothing else
can.
-/

namespace ClassOutline

/-! ## Names -/

namespace Blank

theorem stripChars_eq (cs : List Char) :
    stripChars cs = (cs.dropWhile isBlank).rdropWhile isBlank :=
  rfl

theorem dropWhile_stripChars (cs : List Char) :
    (stripChars cs).dropWhile isBlank = stripChars cs := by
  rw [List.dropWhile_eq_self_iff, stripChars_eq]
  intro hlen
  have hbegin := List.rdropWhile_prefix isBlank (cs.dropWhile isBlank)
  have hhead := List.dropWhile_get_zero_not isBlank cs
    (Nat.lt_of_lt_of_le hlen hbegin.length_le)
  rwa [hbegin.getElem hlen]

theorem strip_strip (text : String) : strip (strip text) = strip text := by
  have hchars : stripChars (stripChars text.toList) = stripChars text.toList := by
    rw [stripChars_eq (stripChars text.toList), dropWhile_stripChars, stripChars_eq,
      List.rdropWhile_idempotent]
  rw [strip, strip, String.toList_ofList, hchars]

end Blank

theorem Declaration.strip_of_name? (d : Declaration) {bytes : Bytes} {name : String}
    (h : d.name? bytes = some name) : Blank.strip name = name := by
  unfold Declaration.name? at h
  split at h
  · cases h
  split at h
  · cases h
  split at h
  · cases h
  · rw [← Option.some.inj h]
    exact Blank.strip_strip _

/-! ## The order of addresses -/

/-- Pre-order is the order of addresses that compares them number by number. -/
theorem Node.pairwise_addresses (n : Node) : n.addresses.Pairwise (· < ·) := by
  induction n using induction_children with
  | h l cs ih =>
    rw [addresses_mk, List.pairwise_cons, List.pairwise_flatMap]
    refine ⟨?_, ?_, ?_⟩
    · intro a ha
      obtain ⟨x, _, ha⟩ := List.mem_flatMap.mp ha
      obtain ⟨b, _, rfl⟩ := List.mem_map.mp ha
      exact List.Lex.nil
    · rintro ⟨c, i⟩ hx
      rw [List.pairwise_map]
      exact (ih c (List.fst_mem_of_mem_zipIdx hx)).imp List.Lex.cons
    · refine (pairwise_zipIdx_lt cs).imp fun {x y} hxy a ha b hb => ?_
      obtain ⟨a, _, rfl⟩ := List.mem_map.mp ha
      obtain ⟨b, _, rfl⟩ := List.mem_map.mp hb
      exact List.Lex.rel hxy

/-! ## The recursive order -/

/-- The declaration that an item is, if it is one. -/
def Item.declaration? : Item → Option Declaration
  | .declaration d => some d
  | .member _ => none

theorem Declaration.memberDeclarations_eq (d : Declaration) :
    d.memberDeclarations = d.members.filterMap Item.declaration? := by
  rw [memberDeclarations, members, List.filterMap_filterMap]
  congr 1
  funext n
  unfold Node.item?
  cases hd : n.declaration? with
  | some e => rfl
  | none => cases n.member? <;> rfl

theorem Declaration.size_placedMember {d : Declaration} {y : Placed} (h : y ∈ d.placedMembers) :
    y.2.node.size < d.node.size := by
  have hone := (List.singleton_sublist.mpr h).flatMap fun x => x.2.node.addresses.map (x.1 ++ ·)
  have hlen := (hone.trans d.treeAddresses_placedMembers).length_le
  rw [List.flatMap_singleton, List.length_map, List.length_tail, Node.length_addresses,
    Node.length_addresses] at hlen
  have hpos := d.node.size_pos
  omega

/-- A declaration and, after it, the families of its members in order. -/
def family (x : Placed) : List Placed :=
  x :: x.2.placedMembers.attach.flatMap fun y => family (x.1 ++ y.1.1, y.1.2)
termination_by x.2.node.size
decreasing_by exact Declaration.size_placedMember y.2

theorem family_eq (x : Placed) :
    family x = x :: x.2.placedMembers.flatMap fun y => family (x.1 ++ y.1, y.2) := by
  rw [family, List.flatMap_subtype (g := fun y => family (x.1 ++ y.1, y.2)) fun _ _ => rfl,
    List.unattach_attach]

/-- What the locator lists from declarations to come. -/
def listedFrom (nested : Bool) (xs : List Placed) : List Placed :=
  if nested then xs.flatMap family else xs

theorem listedFrom_cons (nested : Bool) (x : Placed) (rest : List Placed) :
    listedFrom nested (x :: rest) = x :: listedFrom nested
      ((if nested then x.2.placedMembers.map fun y => (x.1 ++ y.1, y.2) else []) ++ rest) := by
  cases nested with
  | false => rfl
  | true =>
    simp only [listedFrom, if_true]
    rw [List.flatMap_cons, family_eq, List.flatMap_append, List.flatMap_map]
    rfl

/-- Putting members in front of what is to come is going through them recursively. -/
theorem listPlaced_eq (nested : Bool) {k : Nat} {xs : List Placed}
    (h : (treeAddresses xs).length ≤ k) : listPlaced nested k xs = listedFrom nested xs := by
  induction k generalizing xs with
  | zero =>
    cases xs with
    | nil => cases nested <;> rfl
    | cons x rest =>
      have hnext := (treeAddresses_next nested x rest).length_le
      rw [List.length_cons] at hnext
      omega
  | succ k ih =>
    cases xs with
    | nil => cases nested <;> rfl
    | cons x rest =>
      have hnext := (treeAddresses_next nested x rest).length_le
      rw [List.length_cons] at hnext
      rw [listPlaced, listedFrom_cons, ih (by omega)]

namespace Source

/-- The class-like children of the root. -/
def tops (s : Source) : List Placed :=
  s.root.gather Node.ownPlace

theorem placedDeclarations_eq_listedFrom (s : Source) (nested : Bool) :
    s.placedDeclarations nested = listedFrom nested s.tops := by
  apply listPlaced_eq
  have hlen := (Node.treeAddresses_gather Node.treeAddresses_ownPlace s.root).length_le
  rw [List.length_tail, Node.length_addresses] at hlen
  omega

theorem pairwise_listed (s : Source) (nested : Bool) :
    (listedFrom nested s.tops).Pairwise fun x y => x.1 < y.1 := by
  rw [← placedDeclarations_eq_listedFrom, ← List.pairwise_map (f := Prod.fst) (R := (· < ·))]
  exact s.root.pairwise_addresses.sublist (s.addresses_placedDeclarations nested)

/-! ## The choice -/

/-- The first of some declarations that has a name. -/
def firstNamed? (s : Source) (name : String) (xs : List Placed) : Option Placed :=
  xs.find? fun x => x.2.name? s.bytes = some name

theorem locate_eq (s : Source) (name : String) (nested : Bool) :
    s.locate name nested =
      match s.firstNamed? name (listedFrom nested s.tops) with
      | none => .error (.source (.classNotFound name s.origin))
      | some x =>
        match x.2.bodySpan? with
        | some span => .ok span
        | none => .error (.source (.parse
            (s.complainAt x.2.node.label.stop ("body of \"" ++ name ++ "\" is not closed")))) := by
  have hnamed : s.declarationNamed? name nested =
      (s.firstNamed? name (listedFrom nested s.tops)).map (·.2) := by
    rw [declarationNamed?_eq, placedNamed?, placedDeclarations_eq_listedFrom]
    rfl
  rw [locate, hnamed]
  cases s.firstNamed? name (listedFrom nested s.tops) <;> rfl

section Nested

variable {s : Source} {name : String} {x : Placed} {before after : List Placed}

/-- What the families before a declaration of the root hold comes before it. -/
theorem lt_of_mem_families (htops : s.tops = before ++ x :: after) {y : Placed}
    (hy : y ∈ before.flatMap family) : y.1 < x.1 := by
  have hsorted := s.pairwise_listed true
  rw [listedFrom, if_pos rfl, htops, List.flatMap_append, List.flatMap_cons, family_eq,
    List.pairwise_append] at hsorted
  exact hsorted.2.2 y hy x (by simp)

theorem mem_before (htops : s.tops = before ++ x :: after) {t : Placed} (ht : t ∈ s.tops) :
    t ∈ before ↔ t.1 < x.1 := by
  have hsorted := s.pairwise_listed false
  rw [listedFrom, if_neg (by simp), htops, List.pairwise_append] at hsorted
  obtain ⟨_, hafter, hbefore⟩ := hsorted
  refine ⟨fun h => hbefore t h x (List.mem_cons_self ..), fun hlt => ?_⟩
  rw [htops] at ht
  rcases List.mem_append.mp ht with h | h
  · exact h
  · rcases List.mem_cons.mp h with rfl | h
    · exact absurd hlt (lt_irrefl _)
    · exact absurd hlt (lt_asymm ((List.pairwise_cons.mp hafter).1 t h))

/-- With members, the choice is the first one of the name in the families before the
declaration chosen without, or that declaration. -/
theorem firstNamed?_families (htops : s.tops = before ++ x :: after)
    (hx : x.2.name? s.bytes = some name) :
    s.firstNamed? name (listedFrom true s.tops) =
      (s.firstNamed? name (before.flatMap family)).or (some x) := by
  rw [listedFrom, if_pos rfl, htops, List.flatMap_append, List.flatMap_cons, family_eq,
    firstNamed?, List.find?_append, List.cons_append, List.find?_cons_of_pos (by simp [hx])]
  rfl

/-- The choice with members, if there is one without: that one or an earlier one, and
that one exactly if no member of an earlier declaration of the root has the name. -/
theorem firstNamed?_nested (hx : s.firstNamed? name s.tops = some x) :
    ∃ y, s.firstNamed? name (listedFrom true s.tops) = some y ∧ (y = x ∨ y.1 < x.1) ∧
      (y = x ↔ ∀ t ∈ s.tops, t.1 < x.1 →
        ∀ z ∈ (family t).tail, z.2.name? s.bytes ≠ some name) := by
  obtain ⟨hname, before, after, htops, hbefore⟩ := List.find?_eq_some_iff_append.mp hx
  have hname : x.2.name? s.bytes = some name := by simpa using hname
  rw [firstNamed?_families htops hname]
  cases hfirst : s.firstNamed? name (before.flatMap family) with
  | none =>
    refine ⟨x, rfl, Or.inl rfl, iff_of_true rfl ?_⟩
    intro t ht hlt z hz
    have hmem : z ∈ before.flatMap family :=
      List.mem_flatMap.mpr ⟨t, (mem_before htops ht).mpr hlt, List.mem_of_mem_tail hz⟩
    simpa using List.find?_eq_none.mp hfirst z hmem
  | some y =>
    have hy : y ∈ before.flatMap family := List.mem_of_find?_eq_some hfirst
    have hyname : y.2.name? s.bytes = some name := by simpa using List.find?_some hfirst
    have hlt := lt_of_mem_families htops hy
    refine ⟨y, rfl, Or.inr hlt, iff_of_false ?_ ?_⟩
    · rintro rfl
      exact lt_irrefl _ hlt
    · -- The declaration of the root itself has another name, so it is a member that has it.
      intro hnone
      obtain ⟨t, ht, hyt⟩ := List.mem_flatMap.mp hy
      have htop : t ∈ s.tops := htops ▸ List.mem_append_left _ ht
      rw [family_eq] at hyt
      rcases List.mem_cons.mp hyt with rfl | hyt
      · have hnot := hbefore y ht
        simp [hyname] at hnot
      · refine hnone t htop ((mem_before htops htop).mp ht) y ?_ hyname
        rwa [family_eq, List.tail_cons]

end Nested

theorem locate_of_blank (s : Source) {name : String} (nested : Bool)
    (h : name = "" ∨ Blank.strip name ≠ name) :
    s.locate name nested = .error (.source (.classNotFound name s.origin)) := by
  have hnone : s.firstNamed? name (listedFrom nested s.tops) = none := by
    refine List.find?_eq_none.mpr fun x _ hx => ?_
    have hname : x.2.name? s.bytes = some name := by simpa using hx
    rcases h with hempty | hblank
    · exact x.2.name?_ne_empty hname hempty
    · exact hblank (x.2.strip_of_name? hname)
  rw [locate_eq, hnone]

/-- The choice of the locator. It lists the class-like children of the root and, with
`nested`, after each of them its members, recursively; these are nodes of the tree in
pre-order, each once. The first of the name is chosen: without one the class is not
found, and one whose body is not closed is reported at its end. A class that is chosen
without members is the choice with them, unless a member of an earlier child of the
root has the name; then it is an earlier node. A name that is empty or has blanks
around it is never found. -/
theorem locate_chooses_first (s : Source) (name : String) (nested : Bool) :
    (s.tops.map (·.2) = s.root.children.filterMap Node.declaration? ∧
      (∀ d : Declaration, d.placedMembers.map (·.2) = d.members.filterMap Item.declaration?) ∧
      (∀ x ∈ listedFrom nested s.tops, s.root.declarationAt? x.1 = some x.2) ∧
      ((listedFrom nested s.tops).map (·.1)).Sublist s.root.addresses ∧
      s.root.addresses.Pairwise (· < ·)) ∧
    s.locate name nested =
      (match s.firstNamed? name (listedFrom nested s.tops) with
      | none => .error (.source (.classNotFound name s.origin))
      | some x =>
        match x.2.bodySpan? with
        | some span => .ok span
        | none =>
          let stop := positionAt s.bytes x.2.node.label.stop
          .error (.source (.parse ⟨"body of \"" ++ name ++ "\" is not closed", s.origin,
            some stop.line, some stop.column⟩))) ∧
    (∀ x, s.firstNamed? name s.tops = some x →
      ∃ y, s.firstNamed? name (listedFrom true s.tops) = some y ∧ (y = x ∨ y.1 < x.1) ∧
        (y = x ↔ ∀ t ∈ s.tops, t.1 < x.1 →
          ∀ z ∈ (family t).tail, z.2.name? s.bytes ≠ some name)) ∧
    (name = "" ∨ Blank.strip name ≠ name →
      s.locate name nested = .error (.source (.classNotFound name s.origin))) := by
  refine ⟨⟨Node.map_gather_ownPlace s.root, ?_, ?_, ?_, s.root.pairwise_addresses⟩,
    s.locate_eq name nested, fun x hx => firstNamed?_nested hx, s.locate_of_blank nested⟩
  · intro d
    rw [d.map_placedMembers, d.memberDeclarations_eq]
  · intro x hx
    rw [← placedDeclarations_eq_listedFrom] at hx
    exact (s.reached_of_mem hx).declarationAt?
  · rw [← placedDeclarations_eq_listedFrom]
    exact s.addresses_placedDeclarations nested

end Source

/-- The tree of a class `A` around a class `B`, followed by another class `B` whose
brace was supplied by the parser. -/
def unclosedClassTree : Node :=
  .mk ⟨"program", 0, 26, true, false, false, true, none⟩ [
    .plain "class_declaration" 0 18 none [
      .plain "identifier" 6 7 (some .name) [],
      .plain "class_body" 7 18 (some .body) [
        .openingBrace 7,
        .plain "class_declaration" 8 17 none [
          .plain "identifier" 14 15 (some .name) [],
          .plain "class_body" 15 17 (some .body) [.openingBrace 15, .closingBrace 16]],
        .closingBrace 17]],
    .mk ⟨"class_declaration", 18, 26, true, false, false, true, none⟩ [
      .plain "identifier" 24 25 (some .name) [],
      .mk ⟨"class_body", 25, 26, true, false, false, true, some .body⟩ [
        .openingBrace 25,
        .mk ⟨"\x7d", 26, 26, false, false, true, true, none⟩ []]]]

def unclosedClassSource : Source :=
  ⟨unclosedClassTree,
    Utf8.encode ("class A" ++ braced ("class B" ++ braced "") ++ "class B\x7b"), none⟩

/-- Without members the class that is not closed is chosen, with them the one before. -/
theorem inner_class_before_unclosed :
    let s := unclosedClassSource
    s.locate "B" false =
      .error (.source (.parse ⟨"body of \"B\" is not closed", none, some 1, some 26⟩)) ∧
    s.locate "B" true = .ok ⟨15, 17⟩ ∧
    (∃ x y, s.firstNamed? "B" s.tops = some x ∧
      s.firstNamed? "B" (listedFrom true s.tops) = some y ∧ y.1 < x.1) ∧
    s.locate "B " true = .error (.source (.classNotFound "B " none)) := by
  intro s
  have hplain : s.locate "B" false =
      .error (.source (.parse ⟨"body of \"B\" is not closed", none, some 1, some 26⟩)) := by
    decide +kernel
  have hnested : s.locate "B" true = .ok ⟨15, 17⟩ := by decide +kernel
  have htop : (s.firstNamed? "B" s.tops).isSome = true := by decide +kernel
  obtain ⟨x, hx⟩ := Option.isSome_iff_exists.mp htop
  obtain ⟨_, hwithout, hchoice, _⟩ := Source.locate_chooses_first s "B" false
  obtain ⟨_, hwith, _, _⟩ := Source.locate_chooses_first s "B" true
  obtain ⟨_, _, _, hblank⟩ := Source.locate_chooses_first s "B " true
  obtain ⟨y, hy, heither, _⟩ := hchoice x hx
  refine ⟨hplain, hnested, ⟨x, y, hx, hy, ?_⟩, hblank (Or.inr (by decide))⟩
  rcases heither with rfl | hlt
  · -- Both choices would have one result.
    have hsame : s.locate "B" true = s.locate "B" false := by
      have hlisted : listedFrom false s.tops = s.tops := rfl
      rw [hwith, hwithout, hy, hlisted, hx]
    rw [hplain, hnested] at hsame
    cases hsame
  · exact hlt

end ClassOutline
