import ClassOutline.Proofs.Locate.Agreement
import ClassOutline.Proofs.Outline.Tour

/-!
# The scopes of the outline walk

The walk opens a scope when it enters a declaration and closes one when it leaves one;
nothing in its state ties the two. With addresses in place of nodes the tie can be
said: after any number of visits the scopes are, one by one, those of the declarations
still to be left (`Walk.Follows`). One visit keeps this (`Walk.Follows.step`), so it
holds all along, and no scope is ever closed that was not opened.
-/

namespace ClassOutline

namespace Node

/-- The place among the classes of the tree of the class declared at an address; none
for an address that declares no name. -/
def classNumber? (root : Node) (bytes : Bytes) (a : Address) : Option Nat :=
  (root.namedAddresses bytes).idxOf? a

theorem classNumber?_eq_none {root : Node} {bytes : Bytes} {a : Address}
    (h : root.nameAt? bytes a = none) : root.classNumber? bytes a = none := by
  apply List.idxOf?_eq_none_iff.mpr
  intro hmem
  have hname := (List.mem_filter.mp hmem).2
  rw [h] at hname
  cases hname

theorem bind_classNumber? (root : Node) (bytes : Bytes) (a : Address) :
    (root.classNumber? bytes a).bind ((root.classesIn bytes)[·]?) = root.classAt? bytes a := by
  cases h : root.classNumber? bytes a with
  | none =>
    cases hc : root.classAt? bytes a with
    | none => rfl
    | some c =>
      have hname := root.classAt?_eq_map bytes a
      obtain ⟨d, hd, _⟩ := Option.bind_eq_some_iff.mp hc
      have hmem : a ∈ root.namedAddresses bytes := by
        refine List.mem_filter.mpr ⟨mem_addresses_of_at? (at?_of_declarationAt? hd).1, ?_⟩
        rw [← hname, hc]
        rfl
      exact absurd hmem (List.idxOf?_eq_none_iff.mp h)
  | some i =>
    obtain ⟨hi, ha, _⟩ := List.idxOf?_eq_some_iff.mp h
    have hat : (root.namedAddresses bytes)[i]? = some a := by rw [List.getElem?_eq_getElem hi, ha]
    have hclass := congrArg (·[i]?) (root.map_namedAddresses bytes)
    simp only [List.getElem?_map, hat, Option.map_some] at hclass
    obtain ⟨c, hc, hca⟩ := Option.map_eq_some_iff.mp hclass.symm
    rw [Option.bind_some, hc, hca]

def enteredBy (root : Node) (k : Nat) : List Address :=
  (root.tour.take k).filterMap Stop.entered?

theorem enteredBy_succ (root : Node) (k : Nat) :
    root.enteredBy (k + 1) =
      root.enteredBy k ++ ((root.stops k).head?.bind Stop.entered?).toList := by
  rw [enteredBy, List.take_add_one, List.filterMap_append, ← head?_stops]
  congr 1
  cases (root.stops k).head? with
  | none => rfl
  | some x => cases x <;> rfl

theorem idxOf?_append_cons {as bs : List Address} {a : Address} (h : a ∉ as) :
    (as ++ a :: bs).idxOf? a = some as.length := by
  have hfirst : as.findIdx? (· == a) = none := List.idxOf?_eq_none_iff.mpr h
  rw [List.idxOf?, List.findIdx?_append, hfirst, List.findIdx?_cons]
  simp

/-- A named declaration that is entered next has as many classes before it as names were
declared at the addresses entered so far. -/
theorem classNumber?_of_enter {root : Node} {bytes : Bytes} {k : Nat} {a : Address}
    (h : (root.stops k).head? = some (.enter a)) (hname : (root.nameAt? bytes a).isSome) :
    root.classNumber? bytes a =
      some ((root.enteredBy k).countP fun b => (root.nameAt? bytes b).isSome) := by
  -- The addresses in pre-order are cut at the one that is entered now.
  have hsplit : root.addresses =
      root.enteredBy k ++ a :: (root.tour.drop (k + 1)).filterMap Stop.entered? := by
    have hsucc : root.enteredBy (k + 1) = root.enteredBy k ++ [a] := by
      rw [enteredBy_succ, h]
      rfl
    rw [← filterMap_entered?_tour, ← List.singleton_append, ← List.append_assoc, ← hsucc,
      enteredBy, ← List.filterMap_append, List.take_append_drop]
  have hnot : a ∉ root.enteredBy k := by
    have hnodup := nodup_addresses root
    rw [hsplit] at hnodup
    intro hmem
    exact (List.nodup_append'.mp hnodup).2.2 hmem (List.mem_cons_self ..)
  rw [classNumber?, namedAddresses, hsplit, List.filter_append,
    List.filter_cons_of_pos (by simpa using hname), List.countP_eq_length_filter]
  exact idxOf?_append_cons fun hmem => hnot (List.mem_of_mem_filter hmem)

end Node

namespace Walk

/-! ## What entering a node does -/

section Enter

variable (bytes : Bytes) (w : Walk) (n : Node) (rest : List Visit)

theorem pending_enter :
    (w.enter bytes n rest).pending =
      n.children.map .enter ++ (if n.declaration?.isSome then [.leave n] else []) ++ rest := by
  unfold enter
  cases n.declaration? with
  | none => simp
  | some d => cases hname : d.name? bytes <;> simp [hname]

theorem scopes_enter :
    (w.enter bytes n rest).scopes =
      n.declaration?.toList.map (fun d => (d.name? bytes).map fun _ => w.found.length) ++
        w.scopes := by
  unfold enter
  cases n.declaration? with
  | none => rfl
  | some d => cases hname : d.name? bytes <;> simp [hname]

theorem length_found_enter :
    (w.enter bytes n rest).found.length =
      w.found.length + if (n.declaration?.bind (·.name? bytes)).isSome then 1 else 0 := by
  unfold enter
  cases n.declaration? with
  | none => simp [record_eq_credit, length_credit]
  | some d => cases hname : d.name? bytes <;> simp [hname]

end Enter

/-! ## The walk follows the stops -/

/-- The state of the walk after `k` visits, told by addresses: the visits to come are the
stops to come, a class was found for every name declared so far, and the scopes are
those of the declarations still to be left. -/
structure Follows (s : Source) (k : Nat) (w : Walk) : Prop where
  pending : w.pending.map some = (s.root.stops k).map (Stop.visit? s.root)
  found : w.found.length = (s.root.enteredBy k).countP fun a => (s.root.nameAt? s.bytes a).isSome
  scopes : w.scopes = (Stop.marks (s.root.stops k)).map (s.root.classNumber? s.bytes)

theorem map_visit?_planned {root n : Node} {a : Address} (h : root.at? a = some n) :
    (root.planned a).map (Stop.visit? root) =
      (n.children.map Visit.enter ++ if n.declaration?.isSome then [Visit.leave n] else []).map
        some := by
  have hchild : ∀ x ∈ n.children.zipIdx,
      Stop.visit? root (.enter (a ++ [x.2])) = some (.enter x.1) := by
    intro x hx
    rw [Stop.visit?, Node.at?_child h hx, Option.map_some]
  have hfst : n.children.zipIdx.map (fun x => some (Visit.enter x.1)) =
      (n.children.map .enter).map some := by
    rw [← List.zipIdx_map_fst 0 n.children, List.map_map, List.map_map, List.zipIdx_map_fst]
    rfl
  rw [Node.planned_of_at? h, List.map_append, List.map_append, List.map_map]
  congr 1
  · rw [← hfst]
    exact List.map_congr_left hchild
  · unfold Node.leaving
    split <;> simp [Stop.visit?, h]

theorem marks_planned {root n : Node} {a : Address} (h : root.at? a = some n) :
    Stop.marks (root.planned a) = n.declaration?.toList.map fun _ => a := by
  have hchildren : Stop.marks (n.children.zipIdx.map fun x => .enter (a ++ [x.2])) = [] := by
    simp [Stop.marks, Stop.left?]
  rw [Node.planned_of_at? h, Stop.marks_append, hchildren, List.nil_append]
  unfold Node.leaving
  cases n.declaration? <;> rfl

theorem follows_start (s : Source) : Follows s 0 (start s.root) :=
  ⟨rfl, rfl, rfl⟩

section Step

variable {s : Source} {k : Nat} {w : Walk} {a : Address} {rest : List Stop}

theorem Follows.pending_eq_nil_iff (h : Follows s k w) :
    w.pending = [] ↔ s.root.stops k = [] := by
  rw [← List.map_eq_nil_iff, h.pending, List.map_eq_nil_iff]

theorem Follows.exists_visit {x : Stop} (h : Follows s k w) (hk : s.root.stops k = x :: rest) :
    ∃ v later, w.pending = v :: later ∧ x.visit? s.root = some v ∧
      later.map some = rest.map (Stop.visit? s.root) := by
  have hpending := h.pending
  rw [hk, List.map_cons] at hpending
  obtain ⟨v, later, hw, hv, hlater⟩ := List.map_eq_cons_iff.mp hpending
  exact ⟨v, later, hw, hv.symm, hlater⟩

/-- The scope that is opened for a declaration is the place of its class. -/
theorem Follows.opened {d : Declaration} (h : Follows s k w)
    (hhead : (s.root.stops k).head? = some (.enter a)) (hd : s.root.declarationAt? a = some d) :
    (d.name? s.bytes).map (fun _ => w.found.length) = s.root.classNumber? s.bytes a := by
  have hname : s.root.nameAt? s.bytes a = d.name? s.bytes := by
    rw [Node.nameAt?, hd, Option.bind_some]
  cases hn : d.name? s.bytes with
  | none => rw [Node.classNumber?_eq_none (hname.trans hn), Option.map_none]
  | some name =>
    have hsome : (s.root.nameAt? s.bytes a).isSome := by rw [hname, hn, Option.isSome_some]
    rw [Node.classNumber?_of_enter hhead hsome, Option.map_some, h.found]

theorem Follows.step_enter (h : Follows s k w) (hk : s.root.stops k = .enter a :: rest) :
    Follows s (k + 1) (w.step s.bytes) := by
  obtain ⟨v, later, hw, hv, hlater⟩ := h.exists_visit hk
  obtain ⟨n, hn, rfl⟩ := Option.map_eq_some_iff.mp hv
  have hstep : w.step s.bytes = w.enter s.bytes n later := by rw [step, hw]
  have hstops : s.root.stops (k + 1) = s.root.planned a ++ rest := by
    rw [Node.stops, hk, Node.advance]
  have hhead : (s.root.stops k).head? = some (.enter a) := by rw [hk, List.head?_cons]
  have hname : s.root.nameAt? s.bytes a = n.declaration?.bind (·.name? s.bytes) := by
    rw [Node.nameAt?, Node.declarationAt?, hn, Option.bind_some]
  rw [hstep]
  constructor
  · rw [pending_enter, hstops, List.map_append, ← map_visit?_planned hn, hlater, List.map_append]
  · rw [length_found_enter, h.found, Node.enteredBy_succ, hhead, ← hname, List.countP_append]
    congr 1
    simp [Stop.entered?, List.countP_cons]
  · rw [scopes_enter, hstops, Stop.marks_append, marks_planned hn, List.map_append, h.scopes, hk,
      Stop.marks_enter_cons]
    congr 1
    -- Only a declaration opens a scope; if it has a name, its class is the one found next.
    cases hd : n.declaration? with
    | none => rfl
    | some d =>
      have hscope := h.opened hhead (by rw [Node.declarationAt?, hn, Option.bind_some, hd])
      simp only [Option.toList_some, List.map_cons, List.map_nil, hscope]

theorem Follows.step_leave (h : Follows s k w) (hk : s.root.stops k = .leave a :: rest) :
    Follows s (k + 1) (w.step s.bytes) := by
  obtain ⟨v, later, hw, hv, hlater⟩ := h.exists_visit hk
  obtain ⟨n, hn, rfl⟩ := Option.map_eq_some_iff.mp hv
  have hstep : w.step s.bytes = ⟨later, w.scopes.tail, w.found⟩ := by rw [step, hw]
  have hstops : s.root.stops (k + 1) = rest := by rw [Node.stops, hk, Node.advance]
  rw [hstep]
  constructor
  · rw [hstops, hlater]
  · rw [Node.enteredBy_succ, hk, h.found]
    simp [Stop.entered?]
  · rw [hstops, h.scopes, hk, Stop.marks_leave_cons, List.map_cons, List.tail_cons]

/-- One visit leads from the state after `k` visits to the one after `k + 1`. -/
theorem Follows.step (h : Follows s k w) : Follows s (k + 1) (w.step s.bytes) := by
  cases hk : s.root.stops k with
  | nil =>
    have hw := h.pending_eq_nil_iff.mpr hk
    have hstep : w.step s.bytes = w := by rw [Walk.step, hw]
    have hstops : s.root.stops (k + 1) = s.root.stops k := by rw [Node.stops, hk, Node.advance]
    have hentered : s.root.enteredBy (k + 1) = s.root.enteredBy k := by
      rw [Node.enteredBy_succ, hk]
      exact List.append_nil _
    rw [hstep]
    exact ⟨by rw [hstops, h.pending], by rw [hentered, h.found], by rw [hstops, h.scopes]⟩
  | cons x rest =>
    cases x with
    | enter a => exact h.step_enter hk
    | leave a => exact h.step_leave hk

end Step

theorem follows_run (s : Source) (k : Nat) : Follows s k (run s.bytes k (start s.root)) := by
  induction k with
  | zero => exact follows_start s
  | succ k ih =>
    rw [run_add s.bytes k 1]
    exact ih.step

/-- The next visit leaves a declaration only while its scope is open. -/
theorem Follows.scopes_ne_nil {s : Source} {k : Nat} {w : Walk} {n : Node} (h : Follows s k w)
    (hn : w.pending.head? = some (.leave n)) : w.scopes ≠ [] := by
  cases hk : s.root.stops k with
  | nil =>
    rw [h.pending_eq_nil_iff.mpr hk] at hn
    cases hn
  | cons x rest =>
    obtain ⟨v, later, hw, hv, _⟩ := h.exists_visit hk
    rw [hw, List.head?_cons] at hn
    rw [Option.some.inj hn] at hv
    cases x with
    | enter a =>
      obtain ⟨m, _, he⟩ := Option.map_eq_some_iff.mp hv
      cases he
    | leave a =>
      rw [h.scopes, hk, Stop.marks_leave_cons, List.map_cons]
      exact List.cons_ne_nil _ _

end Walk

def Source.walk (s : Source) (k : Nat) : Walk :=
  Walk.run s.bytes k (Walk.start s.root)

/-- After any number of visits the visits to come are stops at addresses of the tree, and
the scopes belong one by one, in order, to the declarations still to be left: the scope of
a declaration with a name is the place of its class in the outline, that of another is
empty. While an address is entered these declarations are its class-like proper
ancestors. So a declaration is never left without an open scope, and when the walk ends
all scopes are closed. Every address is entered exactly once; a class-like declaration,
and nothing else, is left exactly once, after every other visit at or below it. -/
theorem Source.walk_scopes_are_open_declarations (s : Source) :
    (∀ k, (s.walk k).pending.map some = (s.root.stops k).map (Stop.visit? s.root)) ∧
    (∀ k, (s.walk k).scopes =
      (Stop.marks (s.root.stops k)).map (s.root.classNumber? s.bytes)) ∧
    (∀ a, (s.root.classNumber? s.bytes a).bind (s.classes[·]?) = s.root.classAt? s.bytes a) ∧
    (∀ k a, (s.root.stops k).head? = some (.enter a) →
      (Stop.marks (s.root.stops k)).reverse = s.root.enclosing a) ∧
    (∀ k n, (s.walk k).pending.head? = some (.leave n) → (s.walk k).scopes ≠ []) ∧
    (∃ e ≤ 2 * s.root.size, ∀ k, (s.walk k).pending = [] ↔ e ≤ k) ∧
    (∀ k, (s.walk k).pending = [] → (s.walk k).scopes = []) ∧
    (∀ a n, s.root.at? a = some n → ∃! k, (s.root.stops k).head? = some (.enter a)) ∧
    (∀ k a, (s.root.stops k).head? = some (.leave a) → (s.root.declarationAt? a).isSome) ∧
    ∀ a, (s.root.declarationAt? a).isSome →
      ∃ k, (∀ j, (s.root.stops j).head? = some (.leave a) ↔ j = k) ∧
        ∀ j x, (s.root.stops j).head? = some x → a <+: x.address → x ≠ .leave a → j < k := by
  have hfollows : ∀ k, Walk.Follows s k (s.walk k) := Walk.follows_run s
  refine ⟨fun k => (hfollows k).pending, fun k => (hfollows k).scopes, ?_,
    fun k a h => Node.marks_of_enter h, fun k n h => (hfollows k).scopes_ne_nil h, ?_, ?_, ?_,
    fun k a h => Node.declared_of_leave h, fun a h => Node.exists_leave_iff h⟩
  · intro a
    rw [s.classes_eq]
    exact s.root.bind_classNumber? s.bytes a
  · have hend : ∀ k, (s.walk k).pending = [] ↔ s.root.tour.length ≤ k := by
      intro k
      rw [(hfollows k).pending_eq_nil_iff, Node.stops_eq_nil_iff]
    exact ⟨s.root.tour.length, (hend _).mp s.pending_walk_eq_nil, hend⟩
  · intro k hk
    rw [(hfollows k).scopes, (hfollows k).pending_eq_nil_iff.mp hk]
    rfl
  · intro a n h
    obtain ⟨k, hk⟩ := Node.exists_enter_iff h
    exact ⟨k, (hk k).mpr rfl, fun j hj => (hk j).mp hj⟩

end ClassOutline
