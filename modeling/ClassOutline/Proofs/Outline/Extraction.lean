import ClassOutline.Outline.Walk
import ClassOutline.Proofs.Outline.Ownership

/-!
# The outline walk lists classes by ownership

The walk keeps visits to come and open scopes; it never looks for an ancestor.
Entering a node and running until the visits planned before are next again has
one effect: the innermost scope takes the names that the tree leaves to it, and
the classes of the tree are added (`completes`). The whole walk is the case
without a scope.
-/

namespace ClassOutline

namespace Walk

/-- A number of visits leads from one state to the other. -/
def Reaches (bytes : Bytes) (w w' : Walk) : Prop :=
  ∃ k, run bytes k w = w'

theorem run_add (bytes : Bytes) (j k : Nat) (w : Walk) :
    run bytes (j + k) w = run bytes k (run bytes j w) := by
  induction j generalizing w with
  | zero => simp [run]
  | succ j ih => rw [Nat.succ_add, run, run, ih]

theorem Reaches.refl (bytes : Bytes) (w : Walk) : Reaches bytes w w :=
  ⟨0, rfl⟩

theorem Reaches.trans {bytes : Bytes} {u v w : Walk} (huv : Reaches bytes u v)
    (hvw : Reaches bytes v w) : Reaches bytes u w := by
  obtain ⟨j, hj⟩ := huv
  obtain ⟨k, hk⟩ := hvw
  exact ⟨j + k, by rw [run_add, hj, hk]⟩

theorem Reaches.step (bytes : Bytes) (w : Walk) : Reaches bytes w (w.step bytes) :=
  ⟨1, rfl⟩

theorem run_of_pending_nil (bytes : Bytes) (k : Nat) {w : Walk} (h : w.pending = []) :
    run bytes k w = w := by
  induction k with
  | zero => rfl
  | succ k ih =>
    have hs : w.step bytes = w := by simp [Walk.step, h]
    rw [run, hs, ih]

/-- The state without visits left is the same, however many visits were allowed. -/
theorem run_eq_of_reaches {bytes : Bytes} {w w' : Walk} (h : Reaches bytes w w')
    (hw' : w'.pending = []) {k : Nat} (hk : w.weight ≤ k) : run bytes k w = w' := by
  obtain ⟨j, hj⟩ := h
  have hend := pending_run_eq_nil bytes k w hk
  have hjk : run bytes (j + k) w = w' := by rw [run_add, hj, run_of_pending_nil bytes k hw']
  rw [Nat.add_comm, run_add, run_of_pending_nil bytes j hend] at hjk
  exact hjk

/-! ## What a scope takes -/

/-- The classes after the innermost scope, if it is a class, took further names. -/
def credit (scopes : List (Option Nat)) (found : List ClassInfo) (methods fields : List String) :
    List ClassInfo :=
  match scopes with
  | some i :: _ => found.modify i fun c => { c with
      methods := c.methods ++ methods
      fields := c.fields ++ fields }
  | _ => found

/-- The innermost scope is a class that has been found already. -/
def InScope (scopes : List (Option Nat)) (found : List ClassInfo) : Prop :=
  ∀ i ∈ scopes.head?.join, i < found.length

theorem length_credit (scopes : List (Option Nat)) (found : List ClassInfo)
    (methods fields : List String) :
    (credit scopes found methods fields).length = found.length := by
  unfold credit
  split <;> simp

theorem credit_nil (scopes : List (Option Nat)) (found : List ClassInfo) :
    credit scopes found [] [] = found := by
  unfold credit
  split
  · simp only [List.append_nil]
    exact List.modify_id ..
  · rfl

theorem modify_append_left {i : Nat} {found : List ClassInfo} (h : i < found.length)
    (classes : List ClassInfo) (f : ClassInfo → ClassInfo) :
    (found ++ classes).modify i f = found.modify i f ++ classes := by
  rw [List.modify_eq_take_cons_drop (by rw [List.length_append]; omega),
    List.modify_eq_take_cons_drop h, List.take_append_of_le_length (by omega),
    List.drop_append_of_le_length (by omega), List.getElem_append_left h]
  simp

theorem credit_append {scopes : List (Option Nat)} {found : List ClassInfo}
    (h : InScope scopes found) (classes : List ClassInfo) (methods fields : List String) :
    credit scopes (found ++ classes) methods fields =
      credit scopes found methods fields ++ classes := by
  rcases scopes with _ | ⟨_ | i, rest⟩
  · rfl
  · rfl
  · exact modify_append_left (h i rfl) classes _

theorem credit_credit (scopes : List (Option Nat)) (found : List ClassInfo)
    (methods fields methods' fields' : List String) :
    credit scopes (credit scopes found methods fields) methods' fields' =
      credit scopes found (methods ++ methods') (fields ++ fields') := by
  rcases scopes with _ | ⟨_ | i, rest⟩
  · rfl
  · rfl
  · simp only [credit, List.modify_modify_eq, Function.comp_def, List.append_assoc]

theorem record_eq_credit (bytes : Bytes) (scopes : List (Option Nat)) (found : List ClassInfo)
    (n : Node) :
    record bytes scopes found n =
      credit scopes found (n.memberNames bytes .method) (n.memberNames bytes .field) := by
  unfold record Node.memberNames
  cases hm : n.member? with
  | none => rw [credit_nil]
  | some m =>
    unfold credit addNames
    cases hk : m.kind <;> split <;> simp_all

/-! ## Entering a tree -/

/-- The classes after a tree was entered and left again. -/
def entered (bytes : Bytes) (scopes : List (Option Nat)) (found : List ClassInfo) (n : Node) :
    List ClassInfo :=
  credit scopes found (n.looseNames bytes .method) (n.looseNames bytes .field) ++
    n.classesIn bytes

def enteredAll (bytes : Bytes) (scopes : List (Option Nat)) (found : List ClassInfo)
    (cs : List Node) : List ClassInfo :=
  credit scopes found (Node.looseNamesAll bytes .method cs) (Node.looseNamesAll bytes .field cs) ++
    cs.flatMap (Node.classesIn bytes)

/-- Entering a tree, and running until the visits planned before are next. -/
def Completes (bytes : Bytes) (n : Node) : Prop :=
  ∀ (rest : List Visit) (scopes : List (Option Nat)) (found : List ClassInfo),
    InScope scopes found →
      Reaches bytes ⟨.enter n :: rest, scopes, found⟩ ⟨rest, scopes, entered bytes scopes found n⟩

theorem inScope_append {scopes : List (Option Nat)} {found : List ClassInfo}
    (h : InScope scopes found) (methods fields : List String) (classes : List ClassInfo) :
    InScope scopes (credit scopes found methods fields ++ classes) := by
  intro i hi
  have hlt := h i hi
  rw [List.length_append, length_credit]
  omega

theorem enteredAll_cons {scopes : List (Option Nat)} {found : List ClassInfo}
    (h : InScope scopes found) (bytes : Bytes) (c : Node) (cs : List Node) :
    enteredAll bytes scopes (entered bytes scopes found c) cs =
      enteredAll bytes scopes found (c :: cs) := by
  have hc : InScope scopes (credit scopes found (c.looseNames bytes .method)
      (c.looseNames bytes .field)) := by
    intro i hi
    rw [length_credit]
    exact h i hi
  simp only [enteredAll, entered, credit_append hc, credit_credit, Node.looseNamesAll,
    List.flatMap_cons, List.append_assoc]

theorem reaches_enteredAll {bytes : Bytes} {cs : List Node} (hcs : ∀ c ∈ cs, Completes bytes c)
    (rest : List Visit) {scopes : List (Option Nat)} {found : List ClassInfo}
    (h : InScope scopes found) :
    Reaches bytes ⟨cs.map .enter ++ rest, scopes, found⟩
      ⟨rest, scopes, enteredAll bytes scopes found cs⟩ := by
  induction cs generalizing found with
  | nil =>
    have he : enteredAll bytes scopes found [] = found := by
      simp [enteredAll, Node.looseNamesAll, credit_nil]
    rw [he]
    exact Reaches.refl ..
  | cons c cs ih =>
    have hfirst := hcs c (List.mem_cons_self ..) (cs.map .enter ++ rest) scopes found h
    have hrest := ih (fun x hx => hcs x (List.mem_cons_of_mem _ hx))
      (inScope_append h (c.looseNames bytes .method) (c.looseNames bytes .field)
        (c.classesIn bytes))
    rw [← enteredAll_cons h]
    exact hfirst.trans hrest

theorem reaches_left (bytes : Bytes) (n : Node) (rest : List Visit) (scope : Option Nat)
    (scopes : List (Option Nat)) (found : List ClassInfo) :
    Reaches bytes ⟨.leave n :: rest, scope :: scopes, found⟩ ⟨rest, scopes, found⟩ :=
  Reaches.step bytes ⟨.leave n :: rest, scope :: scopes, found⟩

section Enter

variable {bytes : Bytes} {l : Label} {cs : List Node} {d : Declaration} {rest : List Visit}
  {scopes : List (Option Nat)} {found : List ClassInfo}

/-- A node that is no declaration: its names go to the scope, its children follow. -/
theorem completes_other (hd : (Node.mk l cs).declaration? = none)
    (hcs : ∀ c ∈ cs, Completes bytes c) (h : InScope scopes found) :
    Reaches bytes ⟨.enter (.mk l cs) :: rest, scopes, found⟩
      ⟨rest, scopes, entered bytes scopes found (.mk l cs)⟩ := by
  have hstep : step bytes ⟨.enter (.mk l cs) :: rest, scopes, found⟩ =
      ⟨cs.map .enter ++ rest, scopes, record bytes scopes found (.mk l cs)⟩ := by
    simp only [step, enter, hd, Node.children]
  have hin : InScope scopes (record bytes scopes found (.mk l cs)) := by
    intro i hi
    rw [record_eq_credit, length_credit]
    exact h i hi
  have hn : entered bytes scopes found (.mk l cs) =
      enteredAll bytes scopes (record bytes scopes found (.mk l cs)) cs := by
    simp [entered, enteredAll, record_eq_credit, credit_credit, Node.looseNames, hd,
      Node.classesIn_mk]
  have hfirst := Reaches.step bytes ⟨.enter (.mk l cs) :: rest, scopes, found⟩
  rw [hstep] at hfirst
  rw [hn]
  exact hfirst.trans (reaches_enteredAll hcs rest hin)

theorem entered_of_declaration (hd : (Node.mk l cs).declaration? = some d) :
    entered bytes scopes found (.mk l cs) =
      found ++ (Node.ownClass? bytes d cs).toList ++ cs.flatMap (Node.classesIn bytes) := by
  have hloose : ∀ k, (Node.mk l cs).looseNames bytes k = [] := by
    intro k
    simp [Node.looseNames, hd]
  rw [entered, hloose, hloose, credit_nil, Node.classesIn_mk, hd, Option.bind_some,
    List.append_assoc]

/-- A declaration without a name: its scope takes nothing and is closed again. -/
theorem completes_unnamed (hd : (Node.mk l cs).declaration? = some d)
    (hname : d.name? bytes = none) (hcs : ∀ c ∈ cs, Completes bytes c) :
    Reaches bytes ⟨.enter (.mk l cs) :: rest, scopes, found⟩
      ⟨rest, scopes, entered bytes scopes found (.mk l cs)⟩ := by
  have hstep : step bytes ⟨.enter (.mk l cs) :: rest, scopes, found⟩ =
      ⟨cs.map .enter ++ .leave (.mk l cs) :: rest, none :: scopes, found⟩ := by
    simp only [step, enter, hd, hname, Node.children]
  have hin : InScope (none :: scopes) found := by
    intro i hi
    simp at hi
  have hn : entered bytes scopes found (.mk l cs) = enteredAll bytes (none :: scopes) found cs := by
    rw [entered_of_declaration hd]
    simp [Node.ownClass?, hname, enteredAll, credit]
  have hfirst := Reaches.step bytes ⟨.enter (.mk l cs) :: rest, scopes, found⟩
  rw [hstep] at hfirst
  rw [hn]
  exact (hfirst.trans (reaches_enteredAll hcs _ hin)).trans (reaches_left ..)

/-- A declaration with a name: its scope is the class added last. -/
theorem completes_named {name : String} (hd : (Node.mk l cs).declaration? = some d)
    (hname : d.name? bytes = some name) (hcs : ∀ c ∈ cs, Completes bytes c) :
    Reaches bytes ⟨.enter (.mk l cs) :: rest, scopes, found⟩
      ⟨rest, scopes, entered bytes scopes found (.mk l cs)⟩ := by
  have hstep : step bytes ⟨.enter (.mk l cs) :: rest, scopes, found⟩ =
      ⟨cs.map .enter ++ .leave (.mk l cs) :: rest, some found.length :: scopes,
        found ++ [⟨name, [], d.implicitFields bytes⟩]⟩ := by
    simp only [step, enter, hd, hname, Node.children]
  have hin : InScope (some found.length :: scopes)
      (found ++ [⟨name, [], d.implicitFields bytes⟩]) := by
    intro i hi
    have hlen : found.length = i := by simpa using hi
    rw [List.length_append, List.length_singleton]
    omega
  have hn : entered bytes scopes found (.mk l cs) =
      enteredAll bytes (some found.length :: scopes)
        (found ++ [⟨name, [], d.implicitFields bytes⟩]) cs := by
    rw [entered_of_declaration hd]
    simp [Node.ownClass?, hname, enteredAll, credit, List.modify_eq_take_cons_drop]
  have hfirst := Reaches.step bytes ⟨.enter (.mk l cs) :: rest, scopes, found⟩
  rw [hstep] at hfirst
  rw [hn]
  exact (hfirst.trans (reaches_enteredAll hcs _ hin)).trans (reaches_left ..)

end Enter

theorem completes (bytes : Bytes) (n : Node) : Completes bytes n := by
  induction n using Node.induction_children with
  | h l cs ih =>
    intro rest scopes found h
    cases hd : (Node.mk l cs).declaration? with
    | none => exact completes_other hd ih h
    | some d =>
      cases hname : d.name? bytes with
      | none => exact completes_unnamed hd hname ih
      | some name => exact completes_named hd hname ih

end Walk

/-! ## The whole walk -/

/-- However many visits are allowed beyond two for every node, the walk ends with
all scopes closed and the classes of the tree. -/
theorem Source.run_walk_eq (s : Source) {k : Nat} (hk : 2 * s.root.size ≤ k) :
    Walk.run s.bytes k (Walk.start s.root) = ⟨[], [], s.root.classesIn s.bytes⟩ := by
  have hroot := Walk.completes s.bytes s.root [] [] [] (by intro i hi; simp at hi)
  have hend : Walk.entered s.bytes [] [] s.root = s.root.classesIn s.bytes := by
    simp [Walk.entered, Walk.credit]
  rw [hend] at hroot
  apply Walk.run_eq_of_reaches hroot rfl
  simpa [Walk.start, Walk.weight, Visit.weight] using hk

theorem Source.classes_eq (s : Source) : s.classes = s.root.classesIn s.bytes := by
  rw [Source.classes, s.run_walk_eq (Nat.le_refl _)]

theorem Outline.ofClasses_eq_ok {classes : List ClassInfo} (h : ∀ c ∈ classes, c.name ≠ "") :
    Outline.ofClasses classes = .ok ⟨classes⟩ := by
  have hm : classes.mapM ClassInfo.checked = .ok classes := by
    induction classes with
    | nil => rfl
    | cons c cs ih =>
      have hc : c.checked = .ok c := by
        rw [ClassInfo.checked, if_neg (h c (List.mem_cons_self ..))]
      rw [List.mapM_cons, hc, ih fun x hx => h x (List.mem_cons_of_mem _ hx)]
      rfl
  rw [Outline.ofClasses, hm]
  rfl

theorem Source.outline_of_clear {s : Source} (h : s.root.label.hasError = false) :
    s.outline = .ok ⟨s.root.classesIn s.bytes⟩ := by
  rw [Source.outline, h, Bool.and_false, if_neg (by decide), s.classes_eq]
  exact Outline.ofClasses_eq_ok fun c hc => Node.name_ne_empty_of_mem_classesIn hc

/-- The walk ends, and the outline of a source lists, in pre-order, one class for
every address that declares a name: with the methods and fields of the members
that the address owns, implicit fields first. Members owned by a declaration
without a name, or by none, are in no class. The one failure is the incomplete
source: an error in the tree and no name declared. -/
theorem Source.outline_lists_owned_members (s : Source) :
    (∀ k, 2 * s.root.size ≤ k →
      Walk.run s.bytes k (Walk.start s.root) = ⟨[], [], s.classes⟩) ∧
    s.classes = s.root.addresses.filterMap (s.root.classAt? s.bytes) ∧
    ((∃ d, s.outline = .error (.source (.incomplete d))) ↔
      s.root.label.hasError = true ∧ ∀ a ∈ s.root.addresses, s.root.nameAt? s.bytes a = none) ∧
    (¬ (s.root.label.hasError = true ∧
        ∀ a ∈ s.root.addresses, s.root.nameAt? s.bytes a = none) →
      s.outline = .ok ⟨s.root.addresses.filterMap (s.root.classAt? s.bytes)⟩) ∧
    s.outline ≠ .error .emptyClassName := by
  have hok : Outline.ofClasses s.classes = .ok ⟨s.classes⟩ := by
    rw [s.classes_eq]
    exact Outline.ofClasses_eq_ok fun c hc => Node.name_ne_empty_of_mem_classesIn hc
  have hnil : s.classes = [] ↔ ∀ a ∈ s.root.addresses, s.root.nameAt? s.bytes a = none := by
    rw [s.classes_eq, Node.classesIn_eq_nil_iff]
  have hlist : s.classes = s.root.addresses.filterMap (s.root.classAt? s.bytes) := by
    rw [s.classes_eq, Node.classesIn_eq]
  rw [← hlist, ← hnil]
  refine ⟨fun k hk => ?_, rfl, ?_⟩
  · rw [s.run_walk_eq hk, s.classes_eq]
  · unfold Source.outline
    rw [hok]
    by_cases hinc : s.root.label.hasError = true ∧ s.classes = []
    · simp [hinc]
    · have hcond : (s.classes.isEmpty && s.root.label.hasError) = false := by
        rw [Bool.eq_false_iff]
        intro h
        rw [Bool.and_eq_true, List.isEmpty_iff] at h
        exact hinc ⟨h.2, h.1⟩
      simp [hcond, hinc]

end ClassOutline
