import ClassOutline.Proofs.Syntax.Address
import ClassOutline.Proofs.Text.Positions
import ClassOutline.Source

/-!
# The fault that a strict parse reports

A strict parse refuses a tree by the flag of its root and reports the fault that a
search finds, which looks into flagged nodes only. For any flags at all the search
finds the first fault in pre-order that stands below flagged nodes: no step changes which
fault comes first in what is still on the stack. Where the flags
say what they should the search misses nothing, and where ranges nest and follow each
other no fault has an earlier position than the one reported.
-/

namespace ClassOutline

namespace Node

/-- Whether every node above an address has the error flag. -/
def flaggedAbove (root : Node) (a : Address) : Bool :=
  a.inits.dropLast.all fun above => (root.at? above).any (·.label.hasError)

def faultAt? (root : Node) (a : Address) : Option Node :=
  if root.flaggedAbove a then (root.at? a).filter isFault else none

/-! ## What the search finds -/

theorem flaggedAbove_cons {l : Label} {cs : List Node} {i : Nat} {c : Node}
    (hc : cs[i]? = some c) (a : Address) :
    (mk l cs).flaggedAbove (i :: a) = (l.hasError && c.flaggedAbove a) := by
  have hbelow : ∀ above : Address, ((mk l cs).at? (i :: above)) = c.at? above := at?_cons hc
  unfold flaggedAbove
  have hinits : a.inits ≠ [] := List.ne_nil_of_length_pos (by simp [List.length_inits])
  rw [List.inits_cons, List.dropLast_cons_of_ne_nil (by simpa using hinits), ← List.map_dropLast,
    List.all_cons, List.all_map]
  simp only [Function.comp_def, hbelow]
  rfl

theorem faultAt?_nil (root : Node) :
    root.faultAt? [] = if root.isFault then some root else none := by
  have habove : root.flaggedAbove [] = true := rfl
  rw [faultAt?, if_pos habove, at?, Option.filter_some]

theorem faultAt?_cons {l : Label} {cs : List Node} {i : Nat} {c : Node}
    (hc : cs[i]? = some c) (a : Address) :
    (mk l cs).faultAt? (i :: a) = if l.hasError then c.faultAt? a else none := by
  rw [faultAt?, flaggedAbove_cons hc, at?_cons hc, faultAt?]
  cases l.hasError <;> simp

theorem findSome?_flatMap {α β γ : Type} (f : α → List β) (g : β → Option γ) (xs : List α) :
    (xs.flatMap f).findSome? g = xs.findSome? fun x => (f x).findSome? g := by
  induction xs with
  | nil => rfl
  | cons x xs ih =>
    rw [List.flatMap_cons, List.findSome?_append, List.findSome?_cons, ih]
    cases (f x).findSome? g <;> rfl

theorem findSome?_congr {α β : Type} {f g : α → Option β} {xs : List α}
    (h : ∀ x ∈ xs, f x = g x) : xs.findSome? f = xs.findSome? g := by
  induction xs with
  | nil => rfl
  | cons x xs ih =>
    obtain ⟨hx, hxs⟩ := List.forall_mem_cons.mp h
    rw [List.findSome?_cons, List.findSome?_cons, hx, ih hxs]

/-- The first fault in pre-order that has flagged nodes only above it. -/
def leadingFault? (root : Node) : Option Node :=
  root.addresses.findSome? root.faultAt?

theorem leadingFault?_mk (l : Label) (cs : List Node) :
    (mk l cs).leadingFault? = if (mk l cs).isFault then some (mk l cs)
      else if l.hasError then cs.findSome? leadingFault? else none := by
  rw [leadingFault?, addresses_mk, List.findSome?_cons, faultAt?_nil]
  by_cases hfault : (mk l cs).isFault = true
  · rw [if_pos hfault, if_pos hfault]
  rw [if_neg hfault, if_neg hfault, findSome?_flatMap]
  -- One child: its own faults, if the node has the flag.
  have hchild : ∀ x ∈ cs.zipIdx, (x.1.addresses.map (x.2 :: ·)).findSome? (mk l cs).faultAt? =
      if l.hasError then x.1.leadingFault? else none := by
    rintro ⟨c, i⟩ hx
    have hc : cs[i]? = some c := List.mk_mem_zipIdx_iff_getElem?.mp hx
    rw [List.findSome?_map]
    simp only [Function.comp_def, faultAt?_cons hc]
    cases l.hasError with
    | true => rfl
    | false => exact List.findSome?_eq_none_iff.mpr fun _ _ => rfl
  show cs.zipIdx.findSome? _ = _
  rw [findSome?_congr hchild]
  cases l.hasError with
  | true =>
    have hmap := List.findSome?_map (p := leadingFault?) (f := Prod.fst) (l := cs.zipIdx)
    rw [List.zipIdx_map_fst] at hmap
    exact hmap.symm
  | false => exact List.findSome?_eq_none_iff.mpr fun _ _ => rfl

theorem sizeAll_append (cs ds : List Node) : sizeAll (cs ++ ds) = sizeAll cs + sizeAll ds := by
  induction cs with
  | nil => simp [sizeAll]
  | cons c cs ih =>
    rw [List.cons_append, sizeAll, sizeAll, ih]
    omega

def pendingAfter (c : Node) (rest : List Node) : List Node :=
  if c.label.hasError then c.children ++ rest else rest

/-- One step of the search: it leaves less to be looked at, and does not change which fault
comes first in what is left. -/
theorem findSome?_pendingAfter {c : Node} (hclear : c.isFault = false) (rest : List Node) :
    sizeAll (c.pendingAfter rest) < sizeAll (c :: rest) ∧
      (c.pendingAfter rest).findSome? leadingFault? = (c :: rest).findSome? leadingFault? := by
  obtain ⟨l, cs⟩ := c
  have hsize := (mk l cs).size_eq
  have hfirst := leadingFault?_mk l cs
  rw [hclear, if_neg (by simp)] at hfirst
  rw [pendingAfter, sizeAll, List.findSome?_cons, hfirst]
  show sizeAll (if l.hasError then cs ++ rest else rest) < _ ∧
    (if l.hasError then cs ++ rest else rest).findSome? leadingFault? = _
  cases l.hasError with
  | false => exact ⟨by simp only [Bool.false_eq_true, if_false]; omega, rfl⟩
  | true =>
    refine ⟨?_, ?_⟩
    · simp only [if_true, sizeAll_append, children] at hsize ⊢
      omega
    · simp only [if_true, List.findSome?_append]
      cases cs.findSome? leadingFault? <;> rfl

/-- A whole search, with as many steps as there are nodes, finds the first fault of what it
starts from. -/
theorem searchFault_eq {n : Nat} {stack : List Node} (h : sizeAll stack ≤ n) :
    searchFault n stack = stack.findSome? leadingFault? := by
  induction n generalizing stack with
  | zero =>
    cases stack with
    | nil => rfl
    | cons c rest =>
      have hsize := c.size_pos
      rw [sizeAll] at h
      omega
  | succ n ih =>
    cases stack with
    | nil => rfl
    | cons c rest =>
      cases hfault : c.isFault with
      | true =>
        obtain ⟨l, cs⟩ := c
        rw [searchFault, if_pos hfault, List.findSome?_cons, leadingFault?_mk, if_pos hfault]
      | false =>
        obtain ⟨hless, hsame⟩ := findSome?_pendingAfter hfault rest
        have hstep : searchFault (n + 1) (c :: rest) = searchFault n (c.pendingAfter rest) := by
          rw [searchFault, hfault]
          rfl
        rw [hstep, ih (by omega), hsame]

/-- Whatever the flags say, the search finds the first fault below flagged nodes. -/
theorem firstFault?_eq (root : Node) : root.firstFault? = root.leadingFault? := by
  have hsize : sizeAll [root] ≤ root.size := by rw [sizeAll, sizeAll, Nat.add_zero]
  rw [firstFault?, searchFault_eq hsize, List.findSome?_cons, List.findSome?_nil]
  cases root.leadingFault? <;> rfl

/-! ## Flags that say what they should -/

/-- Every node has the error flag exactly if there is a fault in its tree. -/
def Consistent (root : Node) : Prop :=
  ∀ n ∈ root.preorder, n.label.hasError = true ↔ ∃ m ∈ n.preorder, m.isFault = true

instance (root : Node) : Decidable root.Consistent :=
  inferInstanceAs (Decidable (∀ n ∈ root.preorder,
    n.label.hasError = true ↔ ∃ m ∈ n.preorder, m.isFault = true))

theorem Consistent.child {l : Label} {cs : List Node} {c : Node} (h : (mk l cs).Consistent)
    (hc : c ∈ cs) : c.Consistent :=
  fun n hn => h n (mem_preorder_of_child hc hn)

theorem Consistent.hasError_iff {root : Node} (h : root.Consistent) :
    root.label.hasError = true ↔ ∃ m ∈ root.preorder, m.isFault = true :=
  h root root.mem_preorder_self

/-- The search misses no fault: none stands below a node without the flag. -/
theorem Consistent.leadingFault?_eq_find? {root : Node} (h : root.Consistent) :
    root.leadingFault? = root.preorder.find? isFault := by
  induction root using induction_children with
  | h l cs ih =>
    rw [leadingFault?_mk, preorder_mk, List.find?_cons]
    by_cases hfault : (mk l cs).isFault = true
    · rw [if_pos hfault, hfault]
    rw [if_neg hfault, Bool.eq_false_of_not_eq_true hfault, List.find?_flatMap]
    have hflag : l.hasError = true ↔ ∃ m ∈ (mk l cs).preorder, m.isFault = true := h.hasError_iff
    split
    · exact findSome?_congr fun c hc => ih c hc (h.child hc)
    · rename_i hclear
      refine (List.findSome?_eq_none_iff.mpr fun c hc => ?_).symm
      refine List.find?_eq_none.mpr fun m hm hbad => hclear (hflag.mpr ?_)
      exact ⟨m, mem_preorder_of_child hc hm, hbad⟩

/-! ## Source order -/

/-- Both ends of a child's range lie within the range of its parent, and those of a
node do not lie past the start of a later sibling. -/
structure InOrder (root : Node) : Prop where
  inside : ∀ n ∈ root.preorder, ∀ c ∈ n.children, n.label.start ≤ c.label.start ∧
    c.label.start ≤ n.label.stop ∧ c.label.stop ≤ n.label.stop
  ordered : ∀ n ∈ root.preorder, n.children.Pairwise fun a b =>
    a.label.start ≤ b.label.start ∧ a.label.stop ≤ b.label.start

theorem InOrder.child {l : Label} {cs : List Node} {c : Node} (h : (Node.mk l cs).InOrder)
    (hc : c ∈ cs) : c.InOrder where
  inside n hn := h.inside n (mem_preorder_of_child hc hn)
  ordered n hn := h.ordered n (mem_preorder_of_child hc hn)

/-- A node starts no earlier than the root, and no later than it starts or ends. -/
theorem InOrder.start_mem {root m : Node} (h : root.InOrder) (hm : m ∈ root.preorder) :
    root.label.start ≤ m.label.start ∧
      (m.label.start ≤ root.label.start ∨ m.label.start ≤ root.label.stop) := by
  induction root using induction_children with
  | h l cs ih =>
    rw [preorder_mk] at hm
    rcases List.mem_cons.mp hm with rfl | hm
    · omega
    · obtain ⟨c, hc, hm⟩ := List.mem_flatMap.mp hm
      have hbelow := ih c hc (h.child hc) hm
      have hinside := h.inside (.mk l cs) (mem_preorder_self _) c hc
      omega

/-- In pre-order, nodes start one after the other. -/
theorem InOrder.pairwise_start {root : Node} (h : root.InOrder) :
    root.preorder.Pairwise fun a b => a.label.start ≤ b.label.start := by
  induction root using induction_children with
  | h l cs ih =>
    rw [preorder_mk, List.pairwise_cons, List.pairwise_flatMap]
    refine ⟨?_, fun c hc => ih c hc (h.child hc), ?_⟩
    · intro m hm
      obtain ⟨c, hc, hm⟩ := List.mem_flatMap.mp hm
      exact (h.start_mem (mem_preorder_of_child hc hm)).1
    · have hordered : cs.Pairwise fun a b =>
          a.label.start ≤ b.label.start ∧ a.label.stop ≤ b.label.start :=
        h.ordered (.mk l cs) (mem_preorder_self _)
      refine hordered.imp_of_mem fun {a b} ha hb hab x hx y hy => ?_
      have hxa := (h.child ha).start_mem hx
      have hyb := (h.child hb).start_mem hy
      omega

/-- The first fault in pre-order is the first one in the text. -/
theorem InOrder.start_le_of_find? {root bad n : Node} (h : root.InOrder)
    (hbad : root.preorder.find? isFault = some bad) (hn : n ∈ root.preorder)
    (hfault : n.isFault = true) : bad.label.start ≤ n.label.start := by
  obtain ⟨_, before, after, hsplit, hclear⟩ := List.find?_eq_some_iff_append.mp hbad
  have hpairwise := h.pairwise_start
  rw [hsplit] at hn hpairwise
  rcases List.mem_append.mp hn with hn | hn
  · have hnot := hclear n hn
    rw [hfault] at hnot
    cases hnot
  · rcases List.mem_cons.mp hn with rfl | hn
    · exact Nat.le_refl _
    · exact (List.pairwise_cons.mp (List.pairwise_append.mp hpairwise).2.1).1 n hn

end Node

/-- What a strict parse refuses and where it points. The search finds the first fault
in pre-order among those below flagged nodes only. A strict parse fails exactly if the
root has the flag, at the position where that fault starts, or the root if there is
none. If every flag tells of a fault in its tree, the trees without any fault are
accepted and no others, the search is one of the whole tree and, with ranges in order,
no fault of the tree has an earlier position than the one reported. -/
theorem Source.parse_reports_first_fault (parser : Parser) (text : String)
    (origin : Option String) :
    let root := parser text
    let bad := root.firstFault?.getD root
    let position := fun n : Node => positionAt (Utf8.encode text) n.label.start
    let complaint := if bad.label.missing then "missing '" ++ bad.kind ++ "'" else "syntax error"
    root.firstFault? = root.addresses.findSome? root.faultAt? ∧
    Source.parse parser text true origin =
      (if root.label.hasError then
        .error (.source (.parse
          ⟨complaint, origin, some (position bad).line, some (position bad).column⟩))
      else .ok ⟨root, Utf8.encode text, origin⟩) ∧
    (root.Consistent →
      ((∃ s, Source.parse parser text true origin = .ok s) ↔
        ∀ n ∈ root.preorder, n.isFault = false) ∧
      root.firstFault? = root.preorder.find? Node.isFault ∧
      (root.InOrder → ∀ n ∈ root.preorder, n.isFault = true → position bad ≤ position n)) := by
  intro root bad position complaint
  have hparse : Source.parse parser text true origin =
      if root.label.hasError then
        .error (.source (.parse
          ⟨complaint, origin, some (position bad).line, some (position bad).column⟩))
      else .ok ⟨root, Utf8.encode text, origin⟩ := by
    rw [Source.parse, Bool.true_and]
    rfl
  refine ⟨root.firstFault?_eq, hparse, fun hflags => ⟨?_, ?_, ?_⟩⟩
  · have hnone : root.label.hasError = false ↔ ∀ n ∈ root.preorder, n.isFault = false := by
      rw [← Bool.not_eq_true, hflags.hasError_iff]
      simp
    rw [hparse, ← hnone]
    cases root.label.hasError <;> simp
  · rw [root.firstFault?_eq, hflags.leadingFault?_eq_find?]
  · intro horder n hn hfault
    obtain ⟨first, hfirst⟩ : ∃ first, root.preorder.find? Node.isFault = some first :=
      Option.isSome_iff_exists.mp (List.find?_isSome.mpr ⟨n, hn, hfault⟩)
    have hbad : bad = first := by
      show root.firstFault?.getD root = first
      rw [root.firstFault?_eq, hflags.leadingFault?_eq_find?, hfirst, Option.getD_some]
    have hmono : Monotone fun b : Nat => positionAt (Utf8.encode text) b :=
      positionAt_monotone text
    exact hmono (hbad ▸ horder.start_le_of_find? hfirst hn hfault)

/-- The tree of an accented letter, a line end and a statement, in which a letter is not
understood and the semicolon is supplied. -/
def unfinishedTree : Node :=
  .mk ⟨"program", 0, 4, true, false, false, true, none⟩ [
    .plain "identifier" 0 2 none [],
    .mk ⟨"expression_statement", 3, 4, true, false, false, true, none⟩ [
      .mk ⟨"ERROR", 3, 4, true, true, false, true, none⟩ [],
      .mk ⟨";", 4, 4, false, false, true, true, none⟩ []]]

/-- The letter comes before the semicolon, on the second line. -/
theorem fault_on_second_line :
    unfinishedTree.Consistent ∧ unfinishedTree.InOrder ∧
    Source.parse (fun _ => unfinishedTree) "é\nx" true none =
      .error (.source (.parse ⟨"syntax error", none, some 2, some 0⟩)) ∧
    ∀ n ∈ unfinishedTree.preorder, n.isFault = true →
      ⟨2, 0⟩ ≤ positionAt (Utf8.encode "é\nx") n.label.start := by
  have hflags : unfinishedTree.Consistent := by decide +kernel
  have horder : unfinishedTree.InOrder := by constructor <;> decide +kernel
  obtain ⟨_, hparse, hfaults⟩ :=
    Source.parse_reports_first_fault (fun _ => unfinishedTree) "é\nx" none
  exact ⟨hflags, horder, hparse, (hfaults hflags).2.2 horder⟩

end ClassOutline
