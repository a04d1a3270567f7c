import ClassOutline.Syntax.Node
import Mathlib.Data.List.Infix
import Mathlib.Data.List.Nodup

/-!
# Addresses in a tree

Two nodes of a tree can be equal as values. An address tells them apart: it is
the list of child numbers that lead from the root to the node. The addresses of
a tree are listed in pre-order, each once, and nothing else is listed.
-/

namespace ClassOutline

abbrev Address := List Nat

namespace Node

/-- Induction over a tree, one hypothesis for each child. -/
@[elab_as_elim]
theorem induction_children {motive : Node → Prop}
    (h : ∀ l cs, (∀ c ∈ cs, motive c) → motive (mk l cs)) (n : Node) : motive n := by
  refine @Node.rec motive (fun cs => ∀ c ∈ cs, motive c) h ?_ ?_ n
  · intro c hc
    exact absurd hc List.not_mem_nil
  · intro c cs hc hcs x hx
    rcases List.mem_cons.mp hx with he | hx
    · rwa [he]
    · exact hcs x hx

def at? (n : Node) : Address → Option Node
  | [] => some n
  | i :: a => n.children[i]?.bind (·.at? a)

theorem at?_cons {l : Label} {cs : List Node} {i : Nat} {c : Node} (hc : cs[i]? = some c)
    (a : Address) : (mk l cs).at? (i :: a) = c.at? a := by
  simp [at?, children, hc]

mutual

def addresses : Node → List Address
  | mk _ cs => [] :: addressesFrom 0 cs

def addressesFrom : Nat → List Node → List Address
  | _, [] => []
  | i, c :: cs => (addresses c).map (i :: ·) ++ addressesFrom (i + 1) cs

end

theorem addressesFrom_eq (i : Nat) (cs : List Node) :
    addressesFrom i cs = (cs.zipIdx i).flatMap fun x => x.1.addresses.map (x.2 :: ·) := by
  induction cs generalizing i with
  | nil => simp [addressesFrom]
  | cons c cs ih => simp [addressesFrom, ih]

theorem addresses_mk (l : Label) (cs : List Node) :
    (mk l cs).addresses = [] :: cs.zipIdx.flatMap fun x => x.1.addresses.map (x.2 :: ·) := by
  rw [addresses, addressesFrom_eq]

theorem preorderAll_eq (cs : List Node) : preorderAll cs = cs.flatMap preorder := by
  induction cs with
  | nil => simp [preorderAll]
  | cons c cs ih => simp [preorderAll, ih]

theorem preorder_mk (l : Label) (cs : List Node) :
    (mk l cs).preorder = mk l cs :: cs.flatMap preorder := by
  rw [preorder, preorderAll_eq]

theorem mem_preorder_of_child {l : Label} {cs : List Node} {c m : Node} (hc : c ∈ cs)
    (hm : m ∈ c.preorder) : m ∈ (mk l cs).preorder := by
  rw [preorder_mk]
  exact List.mem_cons_of_mem _ (List.mem_flatMap.mpr ⟨c, hc, hm⟩)

theorem mem_preorder_self (n : Node) : n ∈ n.preorder := by
  cases n with
  | mk l cs =>
    rw [preorder_mk]
    exact List.mem_cons_self ..

theorem mem_preorder_of_mem_children {n c m : Node} (hc : c ∈ n.children)
    (hm : m ∈ c.preorder) : m ∈ n.preorder := by
  cases n with
  | mk l cs => exact mem_preorder_of_child hc hm

theorem mem_preorder_trans {a b c : Node} (hab : a ∈ b.preorder) (hbc : b ∈ c.preorder) :
    a ∈ c.preorder := by
  induction c using induction_children with
  | h l cs ih =>
    rw [preorder_mk] at hbc
    rcases List.mem_cons.mp hbc with he | hbc
    · rwa [← he]
    · obtain ⟨c, hc, hb⟩ := List.mem_flatMap.mp hbc
      exact mem_preorder_of_child hc (ih c hc hb)

theorem flatMap_zipIdx_fst {α : Type} (f : Node → List α) (cs : List Node) :
    (cs.zipIdx.flatMap fun x => f x.1) = cs.flatMap f := by
  rw [← List.flatMap_map Prod.fst f, List.zipIdx_map_fst]

/-- The addresses lead to the nodes of the tree, in the same order. -/
theorem map_at?_addresses (n : Node) : n.addresses.map n.at? = n.preorder.map some := by
  induction n using induction_children with
  | h l cs ih =>
    rw [addresses_mk, preorder_mk]
    simp only [List.map_cons, List.map_flatMap, List.map_map, at?]
    congr 1
    rw [← flatMap_zipIdx_fst (fun c => c.preorder.map some) cs]
    apply List.flatMap_congr
    rintro ⟨c, i⟩ hx
    have hc : cs[i]? = some c := List.mk_mem_zipIdx_iff_getElem?.mp hx
    rw [← ih c (List.mem_of_getElem? hc)]
    apply List.map_congr_left
    intro a _
    exact at?_cons hc a

theorem exists_at?_of_mem_preorder {n m : Node} (h : m ∈ n.preorder) :
    ∃ a, n.at? a = some m := by
  have hm : some m ∈ n.addresses.map n.at? := by
    rw [map_at?_addresses]
    exact List.mem_map_of_mem h
  obtain ⟨a, _, ha⟩ := List.mem_map.mp hm
  exact ⟨a, ha⟩

theorem mem_addresses_of_at? {n m : Node} {a : Address} (h : n.at? a = some m) :
    a ∈ n.addresses := by
  induction a generalizing n with
  | nil =>
    cases n with
    | mk l cs => simp [addresses_mk]
  | cons i a ih =>
    cases n with
    | mk l cs =>
      simp only [at?, children, Option.bind_eq_some_iff] at h
      obtain ⟨c, hc, ha⟩ := h
      rw [addresses_mk]
      apply List.mem_cons_of_mem
      apply List.mem_flatMap.mpr
      exact ⟨(c, i), List.mk_mem_zipIdx_iff_getElem?.mpr hc, List.mem_map_of_mem (ih ha)⟩

theorem mem_preorder_of_at? {n m : Node} {a : Address} (h : n.at? a = some m) :
    m ∈ n.preorder := by
  have hm : some m ∈ n.preorder.map some := by
    rw [← map_at?_addresses, ← h]
    exact List.mem_map_of_mem (mem_addresses_of_at? h)
  simpa using hm

theorem pairwise_zipIdx_lt (cs : List Node) : cs.zipIdx.Pairwise fun x y => x.2 < y.2 := by
  rw [← List.pairwise_map (f := Prod.snd) (R := (· < ·)), List.zipIdx_map_snd]
  exact List.pairwise_lt_range'

/-- The children before and after a child have smaller and larger numbers. -/
theorem exists_zipIdx_split {cs : List Node} {c : Node} {i : Nat} (hc : cs[i]? = some c) :
    ∃ before after, cs.zipIdx = before ++ (c, i) :: after ∧
      (∀ x ∈ before, x.2 < i) ∧ ∀ x ∈ after, i < x.2 := by
  have hmem : (c, i) ∈ cs.zipIdx := List.mk_mem_zipIdx_iff_getElem?.mpr hc
  have hlt := pairwise_zipIdx_lt cs
  obtain ⟨before, after, hsplit⟩ := List.append_of_mem hmem
  rw [hsplit] at hlt
  obtain ⟨_, hafter, hbefore⟩ := List.pairwise_append.mp hlt
  exact ⟨before, after, hsplit, fun x hx => hbefore x hx (c, i) (List.mem_cons_self ..),
    (List.pairwise_cons.mp hafter).1⟩

theorem flatMap_zipIdx_single {α : Type} {f : Node × Nat → List α} {cs : List Node} {i : Nat}
    {c : Node} (hc : cs[i]? = some c) (h : ∀ x ∈ cs.zipIdx, x.2 ≠ i → f x = []) :
    cs.zipIdx.flatMap f = f (c, i) := by
  obtain ⟨before, after, hsplit, hbefore, hafter⟩ := exists_zipIdx_split hc
  rw [hsplit] at h ⊢
  have hb : before.flatMap f = [] := by
    apply List.flatMap_eq_nil_iff.mpr
    intro x hx
    exact h x (List.mem_append_left _ hx) (Nat.ne_of_lt (hbefore x hx))
  have ha : after.flatMap f = [] := by
    apply List.flatMap_eq_nil_iff.mpr
    intro x hx
    exact h x (List.mem_append_right _ (List.mem_cons_of_mem _ hx)) (Nat.ne_of_gt (hafter x hx))
  rw [List.flatMap_append, List.flatMap_cons, hb, ha, List.nil_append, List.append_nil]

theorem nodup_addresses (n : Node) : n.addresses.Nodup := by
  induction n using induction_children with
  | h l cs ih =>
    rw [addresses_mk, List.nodup_cons]
    constructor
    · simp
    · apply List.nodup_flatMap.mpr
      constructor
      · rintro ⟨c, i⟩ hx
        exact (ih c (List.fst_mem_of_mem_zipIdx hx)).map List.cons_injective
      · -- Addresses below two children differ in the child number.
        refine (pairwise_zipIdx_lt cs).imp fun {x y} hxy => ?_
        refine List.disjoint_left.mpr fun a hx hy => ?_
        obtain ⟨b, _, rfl⟩ := List.mem_map.mp hx
        obtain ⟨b', _, hb⟩ := List.mem_map.mp hy
        have hhead := (List.cons.inj hb).1
        omega

theorem count_addresses_of_at? {n m : Node} {a : Address} (h : n.at? a = some m) :
    n.addresses.count a = 1 :=
  List.count_eq_one_of_mem (nodup_addresses n) (mem_addresses_of_at? h)

/-! ## Small trees and their texts -/

/-- A node that is named in the grammar and free of errors. -/
def plain (kind : String) (start stop : Nat) (role : Option Role) (children : List Node) : Node :=
  mk ⟨kind, start, stop, true, false, false, false, role⟩ children

def token (kind : String) (start : Nat) : Node :=
  mk ⟨kind, start, start + 1, false, false, false, false, none⟩ []

def openingBrace (start : Nat) : Node :=
  token "\x7b" start

def closingBrace (start : Nat) : Node :=
  token "\x7d" start

end Node

def braced (body : String) : String :=
  "\x7b" ++ body ++ "\x7d"

end ClassOutline
