/-!
# Syntax trees

A syntax tree as an external parser hands it over: every node has a kind, a byte range, four flags
and the role under which its parent holds it. Nothing here relies on the flags or the ranges being
consistent with each other.
-/

namespace ClassOutline

/-- The role under which a parent holds a child; other roles are not recorded. -/
inductive Role where
  | name
  | body
  | parameters
  | declarator
  deriving DecidableEq, Repr

/-- What a node says about itself. -/
structure Label where
  kind : String
  start : Nat
  stop : Nat
  /-- The node is named in the grammar, unlike a keyword or a brace. -/
  named : Bool
  error : Bool
  missing : Bool
  /-- The parser met an error somewhere in the node. -/
  hasError : Bool
  role : Option Role
  deriving DecidableEq, Repr

inductive Node where
  | mk (label : Label) (children : List Node)

namespace Node

def label : Node → Label
  | mk l _ => l

def children : Node → List Node
  | mk _ cs => cs

def kind (n : Node) : String :=
  n.label.kind

def namedChildren (n : Node) : List Node :=
  n.children.filter (·.label.named)

def childrenAs (n : Node) (r : Role) : List Node :=
  n.children.filter (·.label.role = some r)

def childAs? (n : Node) (r : Role) : Option Node :=
  n.children.find? (·.label.role = some r)

/-! ## The whole tree -/

mutual

def preorder : Node → List Node
  | mk l cs => mk l cs :: preorderAll cs

def preorderAll : List Node → List Node
  | [] => []
  | c :: cs => preorder c ++ preorderAll cs

end

mutual

def size : Node → Nat
  | mk _ cs => 1 + sizeAll cs

def sizeAll : List Node → Nat
  | [] => 0
  | c :: cs => size c + sizeAll cs

end

mutual

theorem length_preorder : ∀ n : Node, n.preorder.length = n.size
  | mk l cs => by
    have h := length_preorderAll cs
    simp only [preorder, size, List.length_cons]
    omega

theorem length_preorderAll : ∀ cs : List Node, (preorderAll cs).length = sizeAll cs
  | [] => by simp [preorderAll, sizeAll]
  | c :: cs => by
    have h := length_preorder c
    have hs := length_preorderAll cs
    simp only [preorderAll, sizeAll, List.length_append]
    omega

end

theorem size_eq (n : Node) : n.size = 1 + sizeAll n.children := by
  cases n with
  | mk l cs => simp only [size, children]

theorem size_pos (n : Node) : 0 < n.size := by
  cases n with
  | mk l cs =>
    simp only [size]
    omega

def isFault (n : Node) : Bool :=
  n.label.error || n.label.missing

/-- Searches trees for a fault; what is still to be looked at is a stack, the next node on top. A
node without the error flag is not looked into. The number bounds the nodes that are looked at. -/
def searchFault : Nat → List Node → Option Node
  | 0, _ => none
  | _, [] => none
  | n + 1, c :: rest =>
    if c.isFault then some c
    else searchFault n (if c.label.hasError then c.children ++ rest else rest)

/-- The first error or missing node in source order. -/
def firstFault? (root : Node) : Option Node :=
  searchFault root.size [root]

/-! ## Reading a listing -/

/-- Rebuilds trees from a pre-order listing of labels with their numbers of children. The rows are
taken from the last to the first, so the children of a row are the trees built last. -/
def ofRows (rows : List (Label × Nat)) : List Node :=
  rows.foldr (fun row built => mk row.1 (built.take row.2) :: built.drop row.2) []

end Node

end ClassOutline
