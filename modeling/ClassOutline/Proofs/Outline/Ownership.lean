import ClassOutline.Outline.Basic
import ClassOutline.Proofs.Syntax.Address
import ClassOutline.Syntax.Declaration
import Mathlib.Data.List.Basic

/-!
# Ownership of members

A member belongs to its nearest class-like proper ancestor, whether that one has
a name or not. `classAt?` says so by addresses alone: it looks at the whole tree
for the members that an address owns. `placedClasses` computes the same classes
in one descent; the two are equal (`placedClasses_eq`).
-/

namespace ClassOutline

theorem Declaration.name?_ne_empty (d : Declaration) {bytes : Bytes} {name : String}
    (h : d.name? bytes = some name) : name ≠ "" := by
  unfold Declaration.name? at h
  split at h
  · simp at h
  · split at h
    · simp at h
    · rename_i n _
      by_cases hn : n.trimmedText bytes = ""
      · rw [if_pos hn] at h
        simp at h
      · rw [if_neg hn] at h
        rwa [← Option.some.inj h]

namespace Node

theorem node_of_declaration? {n : Node} {d : Declaration} (h : n.declaration? = some d) :
    d.node = n := by
  rw [declaration?] at h
  split at h
  · exact (congrArg Declaration.node (Option.some.inj h)).symm
  · split at h
    · exact (congrArg Declaration.node (Option.some.inj h)).symm
    · simp at h

def declarationAt? (root : Node) (a : Address) : Option Declaration :=
  (root.at? a).bind declaration?

/-- The nearest class-like proper ancestor of an address: the longest proper
prefix at which a declaration stands. -/
def owner? (root : Node) (a : Address) : Option Address :=
  a.inits.dropLast.reverse.find? fun b => (root.declarationAt? b).isSome

def memberNames (bytes : Bytes) (k : MemberKind) (n : Node) : List String :=
  match n.member? with
  | some m => if m.kind = k then m.names bytes else []
  | none => []

def namesAt (root : Node) (bytes : Bytes) (k : MemberKind) (a : Address) : List String :=
  (root.at? a).elim [] (memberNames bytes k)

def ownedNames (root : Node) (bytes : Bytes) (k : MemberKind) (a : Address) : List String :=
  (root.addresses.filter fun b => root.owner? b = some a).flatMap (root.namesAt bytes k)

def nameAt? (root : Node) (bytes : Bytes) (a : Address) : Option String :=
  (root.declarationAt? a).bind (·.name? bytes)

/-- The class that is declared at an address under a name. -/
def classAt? (root : Node) (bytes : Bytes) (a : Address) : Option ClassInfo :=
  (root.declarationAt? a).bind fun d => (d.name? bytes).map fun name =>
    ⟨name, root.ownedNames bytes .method a,
      d.implicitFields bytes ++ root.ownedNames bytes .field a⟩

/-! ## One descent -/

mutual

/-- The names of the members that a tree leaves to the declarations around it. -/
def looseNames (bytes : Bytes) (k : MemberKind) : Node → List String
  | mk l cs =>
    if (mk l cs).declaration?.isSome then []
    else memberNames bytes k (mk l cs) ++ looseNamesAll bytes k cs

def looseNamesAll (bytes : Bytes) (k : MemberKind) : List Node → List String
  | [] => []
  | c :: cs => looseNames bytes k c ++ looseNamesAll bytes k cs

end

/-- The class of a declaration that holds the given children. -/
def ownClass? (bytes : Bytes) (d : Declaration) (cs : List Node) : Option ClassInfo :=
  (d.name? bytes).map fun name =>
    ⟨name, looseNamesAll bytes .method cs, d.implicitFields bytes ++ looseNamesAll bytes .field cs⟩

mutual

/-- The classes of a tree with the addresses of their declarations. -/
def placedClasses (bytes : Bytes) : Node → List (Address × ClassInfo)
  | mk l cs =>
    (((mk l cs).declaration?.bind (ownClass? bytes · cs)).map (([] : Address), ·)).toList ++
      placedClassesFrom bytes 0 cs

def placedClassesFrom (bytes : Bytes) : Nat → List Node → List (Address × ClassInfo)
  | _, [] => []
  | i, c :: cs =>
    (placedClasses bytes c).map (fun x => (i :: x.1, x.2)) ++ placedClassesFrom bytes (i + 1) cs

end

theorem looseNamesAll_eq (bytes : Bytes) (k : MemberKind) (cs : List Node) :
    looseNamesAll bytes k cs = cs.flatMap (looseNames bytes k) := by
  induction cs with
  | nil => simp [looseNamesAll]
  | cons c cs ih => simp [looseNamesAll, ih]

theorem placedClassesFrom_eq (bytes : Bytes) (i : Nat) (cs : List Node) :
    placedClassesFrom bytes i cs = (cs.zipIdx i).flatMap fun x =>
      (placedClasses bytes x.1).map fun y => (x.2 :: y.1, y.2) := by
  induction cs generalizing i with
  | nil => simp [placedClassesFrom]
  | cons c cs ih => simp [placedClassesFrom, ih]

/-! ## Owners below a root -/

section Below

variable {l : Label} {cs : List Node} {c : Node} {i : Nat}

theorem declarationAt?_cons (hc : cs[i]? = some c) (a : Address) :
    (mk l cs).declarationAt? (i :: a) = c.declarationAt? a := by
  rw [declarationAt?, declarationAt?, at?_cons hc]

theorem owner?_nil (n : Node) : n.owner? [] = none := by
  simp [owner?]

/-- An owner inside the child stays the owner; else the root is the next candidate. -/
theorem owner?_cons (hc : cs[i]? = some c) (a : Address) :
    (mk l cs).owner? (i :: a) =
      ((c.owner? a).map (i :: ·)).or
        (if (mk l cs).declaration?.isSome then some [] else none) := by
  have hne : a.inits.map (i :: ·) ≠ [] := by
    cases a <;> simp
  have hbelow : (fun b => ((mk l cs).declarationAt? b).isSome) ∘ (i :: ·) =
      fun b => (c.declarationAt? b).isSome := by
    funext b
    simp [declarationAt?_cons hc]
  simp only [owner?, List.inits_cons, List.dropLast_cons_of_ne_nil hne, List.reverse_cons,
    ← List.map_dropLast, ← List.map_reverse, List.find?_append, List.find?_map, hbelow]
  congr 1
  simp only [List.find?_cons, List.find?_nil, declarationAt?, at?, Option.bind_some]
  cases (mk l cs).declaration? <;> rfl

theorem owner?_cons_eq_none (hc : cs[i]? = some c) (hd : (mk l cs).declaration? = none)
    (a : Address) : (mk l cs).owner? (i :: a) = none ↔ c.owner? a = none := by
  rw [owner?_cons hc, hd]
  simp

theorem owner?_cons_eq_nil (hc : cs[i]? = some c) (hd : (mk l cs).declaration?.isSome)
    (a : Address) : (mk l cs).owner? (i :: a) = some [] ↔ c.owner? a = none := by
  rw [owner?_cons hc, if_pos hd]
  cases c.owner? a <;> simp

theorem owner?_cons_eq_cons (hc : cs[i]? = some c) (a b : Address) (j : Nat) :
    (mk l cs).owner? (i :: a) = some (j :: b) ↔ j = i ∧ c.owner? a = some b := by
  rw [owner?_cons hc]
  cases c.owner? a with
  | none => split <;> simp
  | some o =>
    simp only [Option.map_some, Option.some_or, Option.some.injEq, List.cons.injEq]
    exact and_congr_left' eq_comm

theorem namesAt_cons (bytes : Bytes) (k : MemberKind) (hc : cs[i]? = some c) (a : Address) :
    (mk l cs).namesAt bytes k (i :: a) = c.namesAt bytes k a := by
  rw [namesAt, namesAt, at?_cons hc]

end Below

/-! ## The descent follows the owners -/

/-- No member is class-like: the kinds that announce members announce nothing else. -/
theorem declaration?_eq_none_of_member? {n : Node} {m : Member} (h : n.member? = some m) :
    n.declaration? = none := by
  simp only [member?, MemberKind.ofNodeKind?, Option.map_eq_some_iff] at h
  obtain ⟨k, hk, _⟩ := h
  have hkind : n.kind = "method_declaration" ∨ n.kind = "annotation_type_element_declaration" ∨
      n.kind = "field_declaration" ∨ n.kind = "constant_declaration" := by
    split at hk
    · rename_i hm
      rcases hm with hm | hm
      · exact Or.inl hm
      · exact Or.inr (Or.inl hm)
    · split at hk
      · rename_i hf
        exact Or.inr (Or.inr hf)
      · cases hk
  rcases hkind with he | he | he | he <;>
    simp [declaration?, DeclarationKind.ofNodeKind?, createsClass, he]

theorem memberNames_eq_nil {n : Node} (h : n.declaration?.isSome) (bytes : Bytes)
    (k : MemberKind) : memberNames bytes k n = [] := by
  unfold memberNames
  cases hm : n.member? with
  | none => rfl
  | some m =>
    rw [declaration?_eq_none_of_member? hm] at h
    cases h

theorem flatMap_filter_below (cs : List Node) (p : Address → Bool) (g : Address → List String) :
    ((cs.zipIdx.flatMap fun x => x.1.addresses.map (x.2 :: ·)).filter p).flatMap g =
      cs.zipIdx.flatMap fun x =>
        (x.1.addresses.filter fun a => p (x.2 :: a)).flatMap fun a => g (x.2 :: a) := by
  simp only [List.filter_flatMap, List.flatMap_assoc, List.filter_map, List.flatMap_map]
  rfl

/-- What a tree leaves to others are the names of its members without an owner. -/
theorem looseNames_eq (bytes : Bytes) (k : MemberKind) (n : Node) :
    looseNames bytes k n =
      (n.addresses.filter fun b => n.owner? b = none).flatMap (n.namesAt bytes k) := by
  induction n using induction_children with
  | h l cs ih =>
    rw [looseNames, addresses_mk, List.filter_cons_of_pos (by simp [owner?_nil]),
      List.flatMap_cons, flatMap_filter_below]
    have hroot : (mk l cs).namesAt bytes k [] = memberNames bytes k (mk l cs) := rfl
    cases hd : (mk l cs).declaration? with
    | some d =>
      -- Below a declaration every address has an owner.
      have hnone : (cs.zipIdx.flatMap fun x =>
          (x.1.addresses.filter fun a => (mk l cs).owner? (x.2 :: a) = none).flatMap fun a =>
            (mk l cs).namesAt bytes k (x.2 :: a)) = [] := by
        apply List.flatMap_eq_nil_iff.mpr
        rintro ⟨c, i⟩ hx
        have hc : cs[i]? = some c := List.mk_mem_zipIdx_iff_getElem?.mp hx
        simp [owner?_cons hc, hd]
      rw [hnone, hroot, memberNames_eq_nil (by rw [hd]; rfl)]
      rfl
    | none =>
      simp only [Option.isSome_none, Bool.false_eq_true, if_false]
      rw [hroot, looseNamesAll_eq, ← flatMap_zipIdx_fst]
      congr 1
      apply List.flatMap_congr
      rintro ⟨c, i⟩ hx
      have hc : cs[i]? = some c := List.mk_mem_zipIdx_iff_getElem?.mp hx
      rw [ih c (List.mem_of_getElem? hc)]
      simp only [owner?_cons_eq_none hc hd, namesAt_cons bytes k hc]

theorem ownedNames_nil (bytes : Bytes) (k : MemberKind) {l : Label} {cs : List Node}
    (hd : (mk l cs).declaration?.isSome) :
    (mk l cs).ownedNames bytes k [] = looseNamesAll bytes k cs := by
  rw [ownedNames, addresses_mk, List.filter_cons_of_neg (by simp [owner?_nil]),
    flatMap_filter_below, looseNamesAll_eq, ← flatMap_zipIdx_fst]
  apply List.flatMap_congr
  rintro ⟨c, i⟩ hx
  have hc : cs[i]? = some c := List.mk_mem_zipIdx_iff_getElem?.mp hx
  simp only [owner?_cons_eq_nil hc hd, namesAt_cons bytes k hc]
  exact (looseNames_eq bytes k c).symm

theorem ownedNames_cons (bytes : Bytes) (k : MemberKind) {l : Label} {cs : List Node} {c : Node}
    {i : Nat} (hc : cs[i]? = some c) (a : Address) :
    (mk l cs).ownedNames bytes k (i :: a) = c.ownedNames bytes k a := by
  rw [ownedNames, addresses_mk, List.filter_cons_of_neg (by simp [owner?_nil]),
    flatMap_filter_below, flatMap_zipIdx_single hc]
  · simp only [owner?_cons_eq_cons hc, namesAt_cons bytes k hc, true_and]
    rfl
  · rintro ⟨c', j⟩ hx hj
    have hc' : cs[j]? = some c' := List.mk_mem_zipIdx_iff_getElem?.mp hx
    have hij : i ≠ j := fun h => hj h.symm
    simp [owner?_cons_eq_cons hc', hij]

theorem classAt?_nil (bytes : Bytes) (l : Label) (cs : List Node) :
    (mk l cs).classAt? bytes [] = (mk l cs).declaration?.bind (ownClass? bytes · cs) := by
  have hroot : (mk l cs).declarationAt? [] = (mk l cs).declaration? := rfl
  rw [classAt?, hroot]
  cases hd : (mk l cs).declaration? with
  | none => rfl
  | some d =>
    have hs : (mk l cs).declaration?.isSome := by rw [hd]; rfl
    simp only [Option.bind_some, ownClass?, ownedNames_nil bytes _ hs]

theorem classAt?_cons (bytes : Bytes) {l : Label} {cs : List Node} {c : Node} {i : Nat}
    (hc : cs[i]? = some c) (a : Address) :
    (mk l cs).classAt? bytes (i :: a) = c.classAt? bytes a := by
  simp only [classAt?, declarationAt?_cons hc, ownedNames_cons bytes _ hc]

/-- One descent finds, in pre-order, the class at every address that declares one. -/
theorem placedClasses_eq (bytes : Bytes) (n : Node) :
    placedClasses bytes n = n.addresses.filterMap fun a => (n.classAt? bytes a).map (a, ·) := by
  induction n using induction_children with
  | h l cs ih =>
    rw [placedClasses, placedClassesFrom_eq, addresses_mk, ← classAt?_nil]
    have hcons : ∀ as : List Address,
        ([] :: as).filterMap (fun a => ((mk l cs).classAt? bytes a).map (a, ·)) =
          (((mk l cs).classAt? bytes []).map (([] : Address), ·)).toList ++
            as.filterMap fun a => ((mk l cs).classAt? bytes a).map (a, ·) := by
      intro as
      rw [List.filterMap_cons]
      cases (mk l cs).classAt? bytes [] <;> rfl
    rw [hcons, List.filterMap_flatMap]
    congr 1
    apply List.flatMap_congr
    rintro ⟨c, i⟩ hx
    have hc : cs[i]? = some c := List.mk_mem_zipIdx_iff_getElem?.mp hx
    rw [ih c (List.mem_of_getElem? hc), List.filterMap_map, List.map_filterMap]
    apply List.filterMap_congr
    intro a _
    rw [Function.comp_apply, classAt?_cons bytes hc, Option.map_map]
    rfl

def classesIn (bytes : Bytes) (n : Node) : List ClassInfo :=
  (placedClasses bytes n).map (·.2)

theorem classesIn_mk (bytes : Bytes) (l : Label) (cs : List Node) :
    classesIn bytes (mk l cs) =
      ((mk l cs).declaration?.bind (ownClass? bytes · cs)).toList ++
        cs.flatMap (classesIn bytes) := by
  rw [classesIn, placedClasses, placedClassesFrom_eq, List.map_append, List.map_flatMap,
    ← flatMap_zipIdx_fst]
  congr 1
  · cases (mk l cs).declaration?.bind (ownClass? bytes · cs) <;> rfl
  · apply List.flatMap_congr
    intro x _
    rw [List.map_map]
    rfl

theorem classesIn_eq (bytes : Bytes) (n : Node) :
    classesIn bytes n = n.addresses.filterMap (n.classAt? bytes) := by
  rw [classesIn, placedClasses_eq, List.map_filterMap]
  apply List.filterMap_congr
  intro a _
  rw [Option.map_map]
  exact Option.map_id' ..

/-- A tree has classes exactly when some address declares a name. -/
theorem classesIn_eq_nil_iff (bytes : Bytes) (n : Node) :
    classesIn bytes n = [] ↔ ∀ a ∈ n.addresses, n.nameAt? bytes a = none := by
  rw [classesIn_eq, List.filterMap_eq_nil_iff]
  apply forall₂_congr
  intro a _
  rw [classAt?, nameAt?]
  cases n.declarationAt? a with
  | none => simp
  | some d => simp

theorem name_ne_empty_of_mem_classesIn {bytes : Bytes} {n : Node} {c : ClassInfo}
    (h : c ∈ classesIn bytes n) : c.name ≠ "" := by
  rw [classesIn_eq, List.mem_filterMap] at h
  obtain ⟨a, _, hc⟩ := h
  simp only [classAt?, Option.bind_eq_some_iff, Option.map_eq_some_iff] at hc
  obtain ⟨d, _, name, hname, rfl⟩ := hc
  exact d.name?_ne_empty hname

end Node

end ClassOutline
