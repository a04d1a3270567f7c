import ClassOutline.Outline.Basic
import ClassOutline.Source
import ClassOutline.Syntax.Declaration

/-!
# The outline walk

One depth-first walk over the whole tree collects the classes. It keeps a list of visits to come
and a list of open scopes. Entering a class-like declaration opens a scope and plans a second visit
that closes it after everything below has been visited; a declaration without a name opens a scope
that takes no members. A method or field belongs to the innermost open scope.

Main statement: twice as many steps as the tree has nodes leave no visit to be made
(`Source.pending_walk_eq_nil`).
-/

namespace ClassOutline

inductive Visit where
  | enter (n : Node)
  | leave (n : Node)

/-- Number of visits that planned visits stand for, at most: two for every node that a first visit
leads to. -/
def Visit.weight : List Visit → Nat
  | [] => 0
  | enter n :: rest => 2 * n.size + weight rest
  | leave _ :: rest => 1 + weight rest

structure Walk where
  /-- Visits to come, the next one first. -/
  pending : List Visit
  /-- Open scopes, the innermost first: the index of the class in `found`, or nothing for a
  declaration without a name. -/
  scopes : List (Option Nat)
  found : List ClassInfo

namespace Walk

def start (root : Node) : Walk :=
  ⟨[.enter root], [], []⟩

def addNames (m : Member) (bytes : Bytes) (c : ClassInfo) : ClassInfo :=
  match m.kind with
  | .method => { c with methods := c.methods ++ m.names bytes }
  | .field => { c with fields := c.fields ++ m.names bytes }

/-- The classes after a node that is no declaration was met: a member's names go to the innermost
scope if that is a class. -/
def record (bytes : Bytes) (scopes : List (Option Nat)) (found : List ClassInfo) (n : Node) :
    List ClassInfo :=
  match n.member?, scopes with
  | some m, some i :: _ => found.modify i (addNames m bytes)
  | _, _ => found

/-- Enters a node; `rest` are the visits planned before. -/
def enter (bytes : Bytes) (w : Walk) (n : Node) (rest : List Visit) : Walk :=
  match n.declaration? with
  | some d =>
    let pending := n.children.map .enter ++ .leave n :: rest
    match d.name? bytes with
    | some name =>
      ⟨pending, some w.found.length :: w.scopes, w.found ++ [⟨name, [], d.implicitFields bytes⟩]⟩
    | none => ⟨pending, none :: w.scopes, w.found⟩
  | none => ⟨n.children.map .enter ++ rest, w.scopes, record bytes w.scopes w.found n⟩

/-- Makes the next visit. A walk without visits to come stays as it is. -/
def step (bytes : Bytes) (w : Walk) : Walk :=
  match w.pending with
  | [] => w
  | .enter n :: rest => w.enter bytes n rest
  | .leave _ :: rest => ⟨rest, w.scopes.tail, w.found⟩

def run (bytes : Bytes) : Nat → Walk → Walk
  | 0, w => w
  | n + 1, w => run bytes n (w.step bytes)

/-! ## The walk ends -/

/-- Number of visits still to be made, at most. -/
def weight (w : Walk) : Nat :=
  Visit.weight w.pending

theorem weight_map_enter_append (cs : List Node) (rest : List Visit) :
    Visit.weight (cs.map .enter ++ rest) = 2 * Node.sizeAll cs + Visit.weight rest := by
  induction cs with
  | nil => simp [Node.sizeAll]
  | cons c cs ih =>
    simp only [List.map_cons, List.cons_append, Visit.weight, ih, Node.sizeAll]
    omega

theorem weight_enter_lt (bytes : Bytes) (w : Walk) (n : Node) (rest : List Visit) :
    (w.enter bytes n rest).weight < 2 * n.size + Visit.weight rest := by
  have hn := n.size_eq
  unfold enter weight
  split
  · split <;>
    · simp only [weight_map_enter_append, Visit.weight]
      omega
  · simp only [weight_map_enter_append]
    omega

/-- Every step makes the number of visits to come smaller, until there are none. -/
theorem weight_step_lt (bytes : Bytes) {w : Walk} (h : w.pending ≠ []) :
    (w.step bytes).weight < w.weight := by
  obtain ⟨pending, scopes, found⟩ := w
  cases pending with
  | nil => exact absurd rfl h
  | cons v rest =>
    cases v with
    | enter n =>
      have hlt := weight_enter_lt bytes ⟨.enter n :: rest, scopes, found⟩ n rest
      simpa [step, weight, Visit.weight] using hlt
    | leave n =>
      simp only [step, weight, Visit.weight]
      omega

/-- A walk with enough steps has no visits left. -/
theorem pending_run_eq_nil (bytes : Bytes) (k : Nat) (w : Walk) (h : w.weight ≤ k) :
    (run bytes k w).pending = [] := by
  induction k generalizing w with
  | zero =>
    by_cases hp : w.pending = []
    · simpa [run] using hp
    · have hlt := weight_step_lt bytes hp
      omega
  | succ k ih =>
    by_cases hp : w.pending = []
    · have hs : w.step bytes = w := by simp [step, hp]
      have hw : w.weight = 0 := by simp [weight, Visit.weight, hp]
      rw [run, hs]
      exact ih w (by omega)
    · have hlt := weight_step_lt bytes hp
      rw [run]
      exact ih _ (by omega)

end Walk

/-- The classes of a source, in pre-order of their declarations. Every node is visited at most
twice, so twice the number of nodes is enough visits. -/
def Source.classes (s : Source) : List ClassInfo :=
  (Walk.run s.bytes (2 * s.root.size) (Walk.start s.root)).found

/-- The walk over a source makes all its visits. -/
theorem Source.pending_walk_eq_nil (s : Source) :
    (Walk.run s.bytes (2 * s.root.size) (Walk.start s.root)).pending = [] := by
  apply Walk.pending_run_eq_nil
  simp [Walk.start, Walk.weight, Visit.weight]

/-- The outline of a source. A source with errors in which no class was found has none. -/
def Source.outline (s : Source) : Except Failure Outline :=
  if s.classes.isEmpty && s.root.label.hasError then
    .error (.source (.incomplete ⟨"no class declaration could be located", s.origin, none, none⟩))
  else Outline.ofClasses s.classes

end ClassOutline
