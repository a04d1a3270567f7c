import ClassOutline.Outline.Walk
import ClassOutline.Proofs.Locate.Placement

/-!
# The tour of a tree

The visits of the outline walk carry nodes, and nodes of a tree can be equal. Here
they carry addresses: `stops` keeps the stops to come in the way the walk keeps its
visits, and `tour` lists by descent all stops of a tree. Stop by stop, the one that is
next is the one of the tour (`head?_stops`). The tour enters every address once and
leaves every declaration once, after everything below it; while an address is entered,
the declarations still to be left are those around it (`marks_of_enter`).
-/

namespace ClassOutline

/-- A visit, told by the address of its node. -/
inductive Stop where
  | enter (a : Address)
  | leave (a : Address)
  deriving DecidableEq, Repr

namespace Stop

def address : Stop → Address
  | enter a => a
  | leave a => a

/-- The visit that a stop is in a tree. -/
def visit? (root : Node) : Stop → Option Visit
  | enter a => (root.at? a).map .enter
  | leave a => (root.at? a).map .leave

def entered? : Stop → Option Address
  | enter a => some a
  | leave _ => none

def left? : Stop → Option Address
  | enter _ => none
  | leave a => some a

/-- The addresses that are still to be left, the next one first. -/
def marks (stops : List Stop) : List Address :=
  stops.filterMap left?

def under (p : Address) : Stop → Stop
  | enter a => enter (p ++ a)
  | leave a => leave (p ++ a)

theorem marks_append (xs ys : List Stop) : marks (xs ++ ys) = marks xs ++ marks ys :=
  List.filterMap_append

@[simp] theorem marks_enter_cons (a : Address) (rest : List Stop) :
    marks (enter a :: rest) = marks rest := rfl

@[simp] theorem marks_leave_cons (a : Address) (rest : List Stop) :
    marks (leave a :: rest) = a :: marks rest := rfl

@[simp] theorem address_under (p : Address) (x : Stop) : (x.under p).address = p ++ x.address := by
  cases x <;> rfl

@[simp] theorem under_nil (x : Stop) : x.under [] = x := by
  cases x <;> rfl

theorem under_under (p q : Address) (x : Stop) : (x.under q).under p = x.under (p ++ q) := by
  cases x <;> simp [under]

theorem under_injective (p : Address) : Function.Injective (under p) := by
  intro x y h
  cases x <;> cases y <;> simp_all [under]

theorem entered?_under (p : Address) (x : Stop) :
    (x.under p).entered? = x.entered?.map (p ++ ·) := by
  cases x <;> rfl

end Stop

namespace Node

/-- The stop that leaves a class-like declaration; other nodes are not left. -/
def leaving (n : Node) (a : Address) : List Stop :=
  if n.declaration?.isSome then [.leave a] else []

/-! ## The stops to come -/

/-- What entering an address plans: its children in order, and to leave it after them. -/
def planned (root : Node) (a : Address) : List Stop :=
  match root.at? a with
  | none => []
  | some n => n.children.zipIdx.map (fun x => .enter (a ++ [x.2])) ++ n.leaving a

theorem at?_child {root n : Node} {a : Address} (h : root.at? a = some n) {x : Node × Nat}
    (hx : x ∈ n.children.zipIdx) : root.at? (a ++ [x.2]) = some x.1 := by
  have hc : n.children[x.2]? = some x.1 := List.mk_mem_zipIdx_iff_getElem?.mp hx
  rw [at?_append, h, Option.bind_some, at?, hc]
  rfl

theorem planned_eq_nil {root : Node} {a : Address} (h : root.at? a = none) :
    root.planned a = [] := by
  simp only [planned, h]

theorem planned_of_at? {root n : Node} {a : Address} (h : root.at? a = some n) :
    root.planned a = n.children.zipIdx.map (fun x => .enter (a ++ [x.2])) ++ n.leaving a := by
  simp only [planned, h]

def advance (root : Node) : List Stop → List Stop
  | [] => []
  | .enter a :: rest => root.planned a ++ rest
  | .leave _ :: rest => rest

/-- The stops to come after a number of stops, the next one first. -/
def stops (root : Node) : Nat → List Stop
  | 0 => [.enter []]
  | k + 1 => root.advance (root.stops k)

/-! ## The tour -/

mutual

def tour : Node → List Stop
  | mk l cs => .enter [] :: (tourFrom 0 cs ++ (mk l cs).leaving [])

def tourFrom : Nat → List Node → List Stop
  | _, [] => []
  | i, c :: cs => (tour c).map (Stop.under [i]) ++ tourFrom (i + 1) cs

end

theorem tourFrom_eq (i : Nat) (cs : List Node) :
    tourFrom i cs = (cs.zipIdx i).flatMap fun x => x.1.tour.map (Stop.under [x.2]) := by
  induction cs generalizing i with
  | nil => simp [tourFrom]
  | cons c cs ih => simp [tourFrom, ih]

theorem tour_mk (l : Label) (cs : List Node) :
    (mk l cs).tour = .enter [] ::
      ((cs.zipIdx.flatMap fun x => x.1.tour.map (Stop.under [x.2])) ++ (mk l cs).leaving []) := by
  rw [tour, tourFrom_eq]

theorem eq_of_mem_leaving {n : Node} {a : Address} {x : Stop} (h : x ∈ n.leaving a) :
    x = .leave a := by
  unfold leaving at h
  split at h
  · exact List.mem_singleton.mp h
  · cases h

theorem filterMap_entered?_leaving (n : Node) (a : Address) :
    (n.leaving a).filterMap Stop.entered? = [] := by
  unfold leaving
  split <;> rfl

/-- A tour enters the addresses of the tree in pre-order. -/
theorem filterMap_entered?_tour (n : Node) : n.tour.filterMap Stop.entered? = n.addresses := by
  induction n using induction_children with
  | h l cs ih =>
    have hroot : Stop.entered? (.enter []) = some [] := rfl
    rw [tour_mk, addresses_mk, List.filterMap_cons_some hroot, List.filterMap_append,
      filterMap_entered?_leaving, List.append_nil, List.filterMap_flatMap]
    congr 1
    apply List.flatMap_congr
    intro x hx
    rw [← ih x.1 (List.fst_mem_of_mem_zipIdx hx), List.filterMap_map, List.map_filterMap]
    apply List.filterMap_congr
    intro y _
    exact y.entered?_under [x.2]

theorem nodup_tour (n : Node) : n.tour.Nodup := by
  induction n using induction_children with
  | h l cs ih =>
    -- Below a child every address starts with the number of the child.
    have hbelow : ∀ x ∈ cs.zipIdx.flatMap (fun x => x.1.tour.map (Stop.under [x.2])),
        x.address ≠ [] := by
      intro x hx
      obtain ⟨c, _, hx⟩ := List.mem_flatMap.mp hx
      obtain ⟨y, _, rfl⟩ := List.mem_map.mp hx
      simp
    rw [tour_mk, List.nodup_cons, List.nodup_append']
    refine ⟨?_, ?_, ?_, ?_⟩
    · intro hmem
      rcases List.mem_append.mp hmem with h | h
      · exact hbelow _ h rfl
      · cases eq_of_mem_leaving h
    · apply List.nodup_flatMap.mpr
      constructor
      · intro x hx
        exact (ih x.1 (List.fst_mem_of_mem_zipIdx hx)).map (Stop.under_injective _)
      · refine (pairwise_zipIdx_lt cs).imp fun {x y} hxy => ?_
        refine List.disjoint_left.mpr fun z hx hy => ?_
        obtain ⟨u, _, rfl⟩ := List.mem_map.mp hx
        obtain ⟨v, _, hv⟩ := List.mem_map.mp hy
        have haddr := congrArg Stop.address hv
        simp only [Stop.address_under, List.cons_append, List.nil_append, List.cons.injEq] at haddr
        omega
    · unfold leaving
      split <;> simp
    · refine List.disjoint_left.mpr fun x hx hl => ?_
      rw [eq_of_mem_leaving hl] at hx
      exact hbelow _ hx rfl

/-- The stops below a child stand together; no other stop below it comes later. -/
theorem exists_tour_child {l : Label} {cs : List Node} {c : Node} {i : Nat}
    (hc : cs[i]? = some c) :
    ∃ before after, (mk l cs).tour = before ++ (c.tour.map (Stop.under [i]) ++ after) ∧
      ∀ x ∈ after, ¬ [i] <+: x.address := by
  obtain ⟨xs, ys, hsplit, _, hys⟩ := exists_zipIdx_split hc
  refine ⟨.enter [] :: xs.flatMap (fun x => x.1.tour.map (Stop.under [x.2])),
    ys.flatMap (fun x => x.1.tour.map (Stop.under [x.2])) ++ (mk l cs).leaving [], ?_, ?_⟩
  · rw [tour_mk, hsplit, List.flatMap_append, List.flatMap_cons]
    simp only [List.cons_append, List.append_assoc]
  · intro x hx hprefix
    rcases List.mem_append.mp hx with hx | hx
    · obtain ⟨y, hy, hx⟩ := List.mem_flatMap.mp hx
      obtain ⟨z, _, rfl⟩ := List.mem_map.mp hx
      rw [Stop.address_under] at hprefix
      have hi := (List.cons_prefix_cons.mp hprefix).1
      have hiy := hys y hy
      omega
    · rw [eq_of_mem_leaving hx] at hprefix
      simp [Stop.address] at hprefix

/-- Once a declaration is left, nothing at or below its address is visited any more. -/
theorem exists_tour_leave {root : Node} {a : Address} (h : (root.declarationAt? a).isSome) :
    ∃ before after, root.tour = before ++ .leave a :: after ∧
      ∀ x ∈ after, ¬ a <+: x.address := by
  induction a generalizing root with
  | nil =>
    cases root with
    | mk l cs =>
      have hd : (mk l cs).declaration?.isSome := h
      refine ⟨.enter [] :: cs.zipIdx.flatMap (fun x => x.1.tour.map (Stop.under [x.2])), [], ?_, ?_⟩
      · rw [tour_mk, leaving, if_pos hd, List.cons_append]
      · intro x hx
        cases hx
  | cons i a ih =>
    cases root with
    | mk l cs =>
      obtain ⟨d, hd⟩ := Option.isSome_iff_exists.mp h
      obtain ⟨n, hn, _⟩ := Option.bind_eq_some_iff.mp hd
      obtain ⟨c, hc, _⟩ := Option.bind_eq_some_iff.mp hn
      rw [children] at hc
      rw [declarationAt?_cons hc] at h
      obtain ⟨before, after, htour, hafter⟩ := ih h
      obtain ⟨before', after', htour', hafter'⟩ := exists_tour_child (l := l) hc
      refine ⟨before' ++ before.map (Stop.under [i]), after.map (Stop.under [i]) ++ after', ?_, ?_⟩
      · rw [htour', htour]
        simp [Stop.under]
      · intro x hx hprefix
        rcases List.mem_append.mp hx with hx | hx
        · obtain ⟨y, hy, rfl⟩ := List.mem_map.mp hx
          rw [Stop.address_under] at hprefix
          exact hafter y hy (List.cons_prefix_cons.mp hprefix).2
        · have hi : [i] <+: i :: a := List.prefix_append [i] a
          exact hafter' x hx (hi.trans hprefix)

/-! ## The stops are those of the tour -/

/-- The stops that a stop to come leads to, itself included. -/
def expand (root : Node) : Stop → List Stop
  | .enter a =>
    match root.at? a with
    -- A stop outside the tree leads nowhere.
    | none => [.enter a]
    | some n => n.tour.map (Stop.under a)
  | .leave a => [.leave a]

theorem expand_enter_of_at? {root n : Node} {a : Address} (h : root.at? a = some n) :
    root.expand (.enter a) = n.tour.map (Stop.under a) := by
  simp only [expand, h]

theorem flatMap_expand_leaving (root n : Node) (a : Address) :
    (n.leaving a).flatMap root.expand = (n.leaving []).map (Stop.under a) := by
  unfold leaving
  split <;> simp [Stop.under, expand]

/-- Entering an address leads to itself and to what it plans. -/
theorem expand_enter (root : Node) (a : Address) :
    root.expand (.enter a) = .enter a :: (root.planned a).flatMap root.expand := by
  cases hn : root.at? a with
  | none => simp only [expand, hn, planned_eq_nil, List.flatMap_nil]
  | some n =>
    cases n with
    | mk l cs =>
      have hchild : ∀ x ∈ cs.zipIdx, root.expand (.enter (a ++ [x.2])) =
          (x.1.tour.map (Stop.under [x.2])).map (Stop.under a) := by
        intro x hx
        rw [expand_enter_of_at? (at?_child hn hx), List.map_map]
        exact List.map_congr_left fun y _ => (y.under_under a [x.2]).symm
      have hself : Stop.under a (.enter []) = .enter a := by simp [Stop.under]
      rw [planned_of_at? hn, children, expand_enter_of_at? hn, tour_mk, List.map_cons, hself,
        List.map_append, List.map_flatMap, List.flatMap_append, flatMap_expand_leaving,
        List.flatMap_map, List.flatMap_congr hchild]

theorem flatMap_expand_cons (root : Node) (x : Stop) (rest : List Stop) :
    (x :: rest).flatMap root.expand = x :: (root.advance (x :: rest)).flatMap root.expand := by
  cases x with
  | enter a => rw [List.flatMap_cons, expand_enter, advance, List.flatMap_append, List.cons_append]
  | leave a => rfl

theorem flatMap_expand_stops (root : Node) (k : Nat) :
    (root.stops k).flatMap root.expand = root.tour.drop k := by
  induction k with
  | zero =>
    have hid : Stop.under [] = id := funext Stop.under_nil
    have hroot : root.at? [] = some root := rfl
    rw [stops, List.flatMap_singleton, expand_enter_of_at? hroot, hid, List.map_id, List.drop_zero]
  | succ k ih =>
    rw [← List.tail_drop, ← ih, stops]
    cases root.stops k with
    | nil => rfl
    | cons x rest => rw [flatMap_expand_cons, List.tail_cons]

/-- The next stop after `k` stops is the one at place `k` of the tour. -/
theorem head?_stops (root : Node) (k : Nat) : (root.stops k).head? = root.tour[k]? := by
  rw [← List.head?_drop, ← flatMap_expand_stops]
  cases root.stops k with
  | nil => rfl
  | cons x rest => rw [flatMap_expand_cons, List.head?_cons, List.head?_cons]

theorem stops_eq_nil_iff (root : Node) (k : Nat) :
    root.stops k = [] ↔ root.tour.length ≤ k := by
  rw [← List.head?_eq_none_iff, head?_stops, List.getElem?_eq_none_iff]

/-! ## What is still to be left -/

/-- The class-like proper ancestors of an address, from the root down. -/
def enclosing (root : Node) (a : Address) : List Address :=
  a.inits.dropLast.filter fun b => (root.declarationAt? b).isSome

theorem enclosing_nil (root : Node) : root.enclosing [] = [] := rfl

theorem enclosing_concat (root : Node) (a : Address) (i : Nat) :
    root.enclosing (a ++ [i]) =
      root.enclosing a ++ if (root.declarationAt? a).isSome then [a] else [] := by
  have hinits : (a ++ [i]).inits.dropLast = a.inits.dropLast ++ [a] := by
    rcases List.eq_nil_or_concat a with rfl | ⟨b, j, rfl⟩
    · rfl
    · simp [List.inits_append]
  rw [enclosing, hinits, List.filter_append]
  congr 1
  cases h : (root.declarationAt? a).isSome <;> simp [h]

/-- Below every stop stand the marks of the declarations around its address, the
innermost first, and only declarations have marks. -/
inductive Nested (root : Node) : List Stop → Prop where
  | nil : Nested root []
  | enter {a : Address} {rest : List Stop}
      (hmarks : Stop.marks rest = (root.enclosing a).reverse) (hrest : Nested root rest) :
      Nested root (.enter a :: rest)
  | leave {a : Address} {rest : List Stop} (hd : (root.declarationAt? a).isSome)
      (hmarks : Stop.marks rest = (root.enclosing a).reverse) (hrest : Nested root rest) :
      Nested root (.leave a :: rest)

theorem Nested.enters {root : Node} {as : List Address} {rest : List Stop} (h : root.Nested rest)
    (has : ∀ a ∈ as, Stop.marks rest = (root.enclosing a).reverse) :
    root.Nested (as.map .enter ++ rest) := by
  induction as with
  | nil => exact h
  | cons a as ih =>
    have hmarks : Stop.marks (as.map .enter ++ rest) = Stop.marks rest := by
      simp [Stop.marks, Stop.left?, List.filterMap_map, Function.comp_def]
    have ha := has a (List.mem_cons_self ..)
    exact .enter (hmarks.trans ha) (ih fun b hb => has b (List.mem_cons_of_mem _ hb))

/-- The stop that leaves a declaration is planned below its children. -/
theorem Nested.leaving {root n : Node} {a : Address} {rest : List Stop} (hn : root.at? a = some n)
    (hmarks : Stop.marks rest = (root.enclosing a).reverse) (h : root.Nested rest) :
    root.Nested (n.leaving a ++ rest) ∧
      ∀ i, Stop.marks (n.leaving a ++ rest) = (root.enclosing (a ++ [i])).reverse := by
  have hd : root.declarationAt? a = n.declaration? := by rw [declarationAt?, hn, Option.bind_some]
  simp only [enclosing_concat, List.reverse_append, hd, ← hmarks]
  unfold Node.leaving
  split
  · rename_i hsome
    exact ⟨.leave (by rwa [hd]) hmarks h, fun _ => rfl⟩
  · exact ⟨h, fun _ => rfl⟩

theorem Nested.advance {root : Node} {stops : List Stop} (h : root.Nested stops) :
    root.Nested (root.advance stops) := by
  cases h with
  | nil => exact .nil
  | leave _ _ hrest => exact hrest
  | @enter a rest hmarks hrest =>
    rw [Node.advance]
    cases hn : root.at? a with
    | none => rwa [planned_eq_nil hn]
    | some n =>
      obtain ⟨hleaving, hbelow⟩ := Nested.leaving hn hmarks hrest
      have hchildren : ∀ b ∈ n.children.zipIdx.map fun x => a ++ [x.2],
          Stop.marks (n.leaving a ++ rest) = (root.enclosing b).reverse := by
        intro b hb
        obtain ⟨x, _, rfl⟩ := List.mem_map.mp hb
        exact hbelow x.2
      have hall := hleaving.enters hchildren
      rw [List.map_map] at hall
      rw [planned_of_at? hn, List.append_assoc]
      exact hall

theorem nested_stops (root : Node) (k : Nat) : root.Nested (root.stops k) := by
  induction k with
  | zero => exact .enter (by rw [enclosing_nil]; rfl) .nil
  | succ k ih => exact ih.advance

/-- While an address is entered, the declarations still to be left are those around it. -/
theorem marks_of_enter {root : Node} {k : Nat} {a : Address}
    (h : (root.stops k).head? = some (.enter a)) :
    (Stop.marks (root.stops k)).reverse = root.enclosing a := by
  obtain ⟨rest, hrest⟩ := List.head?_eq_some_iff.mp h
  have hnested := root.nested_stops k
  rw [hrest] at hnested ⊢
  cases hnested with
  | enter hmarks _ => rw [Stop.marks_enter_cons, hmarks, List.reverse_reverse]

theorem declared_of_leave {root : Node} {k : Nat} {a : Address}
    (h : (root.stops k).head? = some (.leave a)) : (root.declarationAt? a).isSome := by
  obtain ⟨rest, hrest⟩ := List.head?_eq_some_iff.mp h
  have hnested := root.nested_stops k
  rw [hrest] at hnested
  cases hnested with
  | leave hd _ _ => exact hd

/-! ## Every stop once -/

theorem exists_head?_eq_iff {root : Node} {x : Stop} (h : x ∈ root.tour) :
    ∃ k, ∀ j, (root.stops j).head? = some x ↔ j = k := by
  obtain ⟨k, hk, hx⟩ := List.getElem_of_mem h
  refine ⟨k, fun j => ?_⟩
  rw [head?_stops, ← hx, List.getElem?_eq_some_iff]
  constructor
  · rintro ⟨hj, he⟩
    exact (nodup_tour root).getElem_inj_iff.mp he
  · rintro rfl
    exact ⟨hk, rfl⟩

theorem exists_enter_iff {root n : Node} {a : Address} (h : root.at? a = some n) :
    ∃ k, ∀ j, (root.stops j).head? = some (.enter a) ↔ j = k := by
  apply exists_head?_eq_iff
  have hmem := mem_addresses_of_at? h
  rw [← filterMap_entered?_tour] at hmem
  obtain ⟨x, hx, he⟩ := List.mem_filterMap.mp hmem
  cases x with
  | enter b => rwa [← Option.some.inj he]
  | leave b => cases he

/-- A declaration is left once, after every other stop at or below its address. -/
theorem exists_leave_iff {root : Node} {a : Address} (h : (root.declarationAt? a).isSome) :
    ∃ k, (∀ j, (root.stops j).head? = some (.leave a) ↔ j = k) ∧
      ∀ j x, (root.stops j).head? = some x → a <+: x.address → x ≠ .leave a → j < k := by
  obtain ⟨before, after, htour, hafter⟩ := exists_tour_leave h
  have hmem : .leave a ∈ root.tour := by
    rw [htour]
    exact List.mem_append_right _ (List.mem_cons_self ..)
  obtain ⟨k, hk⟩ := exists_head?_eq_iff hmem
  have hbefore : before.length = k := by
    rw [← hk, head?_stops, htour]
    simp
  refine ⟨k, hk, fun j x hj hprefix hne => ?_⟩
  by_contra hlt
  have hjk : j ≠ k := by
    intro he
    rw [← hk, hj] at he
    exact hne (Option.some.inj he)
  -- What comes later stands behind the stop that leaves, and nothing there is below it.
  have hx : x ∈ after := by
    rw [head?_stops, htour, List.getElem?_append_right (by omega)] at hj
    obtain ⟨m, hm⟩ : ∃ m, j - before.length = m + 1 := ⟨j - before.length - 1, by omega⟩
    rw [hm, List.getElem?_cons_succ] at hj
    exact List.mem_of_getElem? hj
  exact hafter x hx hprefix

end Node

end ClassOutline
