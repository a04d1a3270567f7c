import ClassOutline.Proofs.Locate.Placement
import ClassOutline.Proofs.Outline.Extraction

/-!
# The locator and the outline agree

The locator jumps from declaration to member declaration; the outline walk visits
every node. The declarations with a name that the locator lists are, address by
address, some of those that the outline lists, in the same order. So a class that
can be located is in the outline, and if its name is there only once, the two
speak of the same declaration.
-/

namespace ClassOutline

namespace Node

/-- The addresses at which a declaration with a name stands, in pre-order. -/
def namedAddresses (root : Node) (bytes : Bytes) : List Address :=
  root.addresses.filter fun a => (root.nameAt? bytes a).isSome

theorem classAt?_eq_map (root : Node) (bytes : Bytes) (a : Address) :
    (root.classAt? bytes a).map (·.name) = root.nameAt? bytes a := by
  unfold classAt? nameAt?
  cases root.declarationAt? a with
  | none => rfl
  | some d =>
    rw [Option.bind_some, Option.bind_some, Option.map_map]
    exact Option.map_id' ..

/-- The classes with a property of their names are those of the addresses that
declare such a name, one for each and in order. -/
theorem map_filter_nameAt? (root : Node) (bytes : Bytes) (p : String → Bool) :
    (root.addresses.filter fun a => (root.nameAt? bytes a).any p).map (root.classAt? bytes) =
      ((root.classesIn bytes).filter fun c => p c.name).map some := by
  rw [classesIn_eq]
  induction root.addresses with
  | nil => rfl
  | cons a as ih =>
    have hname := classAt?_eq_map root bytes a
    cases hc : root.classAt? bytes a with
    | none =>
      rw [hc, Option.map_none] at hname
      rw [List.filter_cons_of_neg (by simp [← hname]), List.filterMap_cons_none hc, ih]
    | some c =>
      rw [hc, Option.map_some] at hname
      rw [List.filterMap_cons_some hc]
      cases hp : p c.name with
      | true =>
        rw [List.filter_cons_of_pos (by simp [← hname, hp]), List.filter_cons_of_pos (by simp [hp]),
          List.map_cons, List.map_cons, ih, hc]
      | false =>
        rw [List.filter_cons_of_neg (by simp [← hname, hp]), List.filter_cons_of_neg (by simp [hp]),
          ih]

theorem map_namedAddresses (root : Node) (bytes : Bytes) :
    (root.namedAddresses bytes).map (root.classAt? bytes) = (root.classesIn bytes).map some := by
  have hany : ∀ o : Option String, o.isSome = o.any fun _ => true := by
    intro o
    cases o <;> rfl
  have h := map_filter_nameAt? root bytes fun _ => true
  rw [List.filter_true] at h
  simp only [namedAddresses, hany, h]

theorem map_filter_nameAt?_eq (root : Node) (bytes : Bytes) (name : String) :
    (root.addresses.filter fun a => root.nameAt? bytes a = some name).map (root.classAt? bytes) =
      ((root.classesIn bytes).filter (·.name = name)).map some := by
  have hany : ∀ o : Option String, decide (o = some name) = o.any (decide <| · = name) := by
    intro o
    cases o <;> simp
  simp only [hany]
  exact map_filter_nameAt? root bytes (decide <| · = name)

end Node

namespace Source

variable {s : Source} {name : String} {nested : Bool}

theorem nameAt?_of_reached {x : Placed} (h : Reached s.root x) :
    s.root.nameAt? s.bytes x.1 = x.2.name? s.bytes := by
  rw [Node.nameAt?, h.declarationAt?, Option.bind_some]

theorem named_placedDeclarations (s : Source) (nested : Bool) :
    (((s.placedDeclarations nested).filter fun x => (x.2.name? s.bytes).isSome).map (·.1)).Sublist
      (s.root.namedAddresses s.bytes) := by
  have hfilter : ((s.placedDeclarations nested).filter fun x => (x.2.name? s.bytes).isSome).map
      (·.1) = ((s.placedDeclarations nested).map (·.1)).filter fun a =>
        (s.root.nameAt? s.bytes a).isSome := by
    rw [List.filter_map]
    congr 1
    apply List.filter_congr
    intro x hx
    rw [Function.comp_apply, nameAt?_of_reached (s.reached_of_mem hx)]
  rw [hfilter]
  exact (s.addresses_placedDeclarations nested).filter _

/-- The locator finds some declaration of the name unless it reports that there is none. -/
theorem exists_placedNamed?
    (h : ∀ missing origin,
      s.locate name nested ≠ .error (.source (.classNotFound missing origin))) :
    ∃ x, s.placedNamed? name nested = some x := by
  cases hx : s.placedNamed? name nested with
  | some x => exact ⟨x, rfl⟩
  | none =>
    have hnone : s.declarationNamed? name nested = none := by
      rw [declarationNamed?_eq, hx, Option.map_none]
    exact absurd (by rw [locate, hnone]) (h name s.origin)

theorem outline_of_named {a : Address} (h : s.root.nameAt? s.bytes a = some name) :
    s.outline = .ok ⟨s.root.classesIn s.bytes⟩ := by
  obtain ⟨d, hd, _⟩ := Option.bind_eq_some_iff.mp h
  have hmem := Node.mem_addresses_of_at? (Node.at?_of_declarationAt? hd).1
  have hne : s.root.classesIn s.bytes ≠ [] := by
    intro hnil
    rw [Node.classesIn_eq_nil_iff] at hnil
    rw [hnil a hmem] at h
    cases h
  have hcond : (s.classes.isEmpty && s.root.label.hasError) = false := by
    rw [s.classes_eq, List.isEmpty_eq_false_iff.mpr hne, Bool.false_and]
  rw [outline, hcond, if_neg (by decide), s.classes_eq]
  exact Outline.ofClasses_eq_ok fun c hc => Node.name_ne_empty_of_mem_classesIn hc

/-- The declarations with a name that the locator lists are, by their addresses
and each once, among those of the outline and in its order. Whatever the locator
does with a name other than report it missing, the outline exists and has a class
of that name; if it has one only, that is the class at the located address. -/
theorem locator_agrees_with_outline (s : Source) (nested : Bool) :
    (s.placedDeclarations nested).map (·.2) = s.declarations nested ∧
    (∀ x ∈ s.placedDeclarations nested, s.root.declarationAt? x.1 = some x.2) ∧
    ((s.placedDeclarations nested).map (·.1)).Nodup ∧
    (((s.placedDeclarations nested).filter fun x => (x.2.name? s.bytes).isSome).map (·.1)).Sublist
      (s.root.namedAddresses s.bytes) ∧
    (s.root.namedAddresses s.bytes).map (s.root.classAt? s.bytes) = s.classes.map some ∧
    ∀ name, (∀ missing origin,
        s.locate name nested ≠ .error (.source (.classNotFound missing origin))) →
      ∃ x o c, s.placedNamed? name nested = some x ∧ s.outline = .ok o ∧ o.find? name = some c ∧
        (o.names.count name = 1 →
          (s.root.addresses.filter fun a => s.root.nameAt? s.bytes a = some name) = [x.1] ∧
          s.root.classAt? s.bytes x.1 = some c) := by
  refine ⟨s.map_placedDeclarations nested, fun x hx => (s.reached_of_mem hx).declarationAt?,
    (s.addresses_placedDeclarations nested).nodup s.root.nodup_addresses,
    s.named_placedDeclarations nested, by rw [Node.map_namedAddresses, s.classes_eq], ?_⟩
  intro name hlocate
  obtain ⟨x, hx⟩ := exists_placedNamed? hlocate
  obtain ⟨hreached, hname⟩ := s.reached_of_placedNamed? hx
  have hat : s.root.nameAt? s.bytes x.1 = some name := (nameAt?_of_reached hreached).trans hname
  have hmem : x.1 ∈ s.root.addresses.filter fun a => s.root.nameAt? s.bytes a = some name := by
    rw [List.mem_filter]
    exact ⟨Node.mem_addresses_of_at? (Node.at?_of_declarationAt? hreached.declarationAt?).1,
      by simp [hat]⟩
  have hclasses := Node.map_filter_nameAt?_eq s.root s.bytes name
  -- The first class of the name, and the addresses of the name, are read off one list.
  have hfind : Outline.find? ⟨s.root.classesIn s.bytes⟩ name =
      ((s.root.classesIn s.bytes).filter (·.name = name)).head? := by
    rw [Outline.find?, List.head?_filter]
  cases hof : (s.root.classesIn s.bytes).filter (·.name = name) with
  | nil =>
    rw [hof, List.map_nil, List.map_eq_nil_iff] at hclasses
    rw [hclasses] at hmem
    cases hmem
  | cons c cs =>
    refine ⟨x, _, c, hx, outline_of_named hat, by rw [hfind, hof, List.head?_cons], ?_⟩
    intro hcount
    have hlen : ((s.root.classesIn s.bytes).filter (·.name = name)).length = 1 := by
      rw [← List.countP_eq_length_filter, ← hcount, Outline.names, List.count, List.countP_map]
      congr 1
    have hnil : cs = [] := by simpa [hof] using hlen
    rw [hof, hnil] at hclasses
    obtain ⟨a, ha, hc⟩ : ∃ a, (s.root.addresses.filter fun a =>
        s.root.nameAt? s.bytes a = some name) = [a] ∧ s.root.classAt? s.bytes a = some c := by
      simpa [List.map_eq_singleton_iff] using hclasses
    rw [ha, List.mem_singleton] at hmem
    rw [hmem]
    exact ⟨ha, hc⟩

end Source

end ClassOutline
