import ClassOutline.Proofs.Text.Quoted
import ClassOutline.Syntax.Display

/-!
# Short forms tell items apart

The short form of an item is one line. It says of what kind the item is and by which names
it goes, and no two items that differ in this have the same short form.
-/

namespace ClassOutline

/-- Two lists are cut alike at the first place of what is in neither of their beginnings. -/
theorem append_cons_inj {α : Type} {a : α} {xs ys zs ws : List α} (hxs : a ∉ xs) (hys : a ∉ ys)
    (h : xs ++ a :: zs = ys ++ a :: ws) : xs = ys ∧ zs = ws := by
  induction xs generalizing ys with
  | nil =>
    cases ys with
    | nil => exact ⟨rfl, (List.cons.inj h).2⟩
    | cons y ys => exact absurd (List.cons.inj h).1 (List.ne_of_not_mem_cons hys)
  | cons x xs ih =>
    cases ys with
    | nil => exact absurd (List.cons.inj h).1.symm (List.ne_of_not_mem_cons hxs)
    | cons y ys =>
      obtain ⟨rfl, hrest⟩ := List.cons.inj h
      obtain ⟨rfl, hzs⟩ := ih (List.not_mem_of_not_mem_cons hxs)
        (List.not_mem_of_not_mem_cons hys) hrest
      exact ⟨rfl, hzs⟩

theorem DeclarationKind.tag_injective : Function.Injective tag := by
  intro k k' h
  cases k <;> cases k' <;> first | rfl | simp [tag] at h

theorem MemberKind.tag_injective : Function.Injective tag := by
  intro k k' h
  cases k <;> cases k' <;> first | rfl | simp [tag] at h

theorem DeclarationKind.tag_ne (k : DeclarationKind) (k' : MemberKind) : k.tag ≠ k'.tag := by
  cases k <;> cases k' <;> simp [tag, MemberKind.tag]

namespace Item

def kind : Item → DeclarationKind ⊕ MemberKind
  | declaration d => .inl d.kind
  | member m => .inr m.kind

/-- The names of an item; a declaration may be without one. -/
def names (i : Item) (bytes : Bytes) : Option (List String) :=
  match i with
  | declaration d => (d.name? bytes).map fun n => [n]
  | member m => some (m.names bytes)

def tag : Item → String
  | declaration d => d.kind.tag
  | member m => m.kind.tag

def nameText (i : Item) (bytes : Bytes) : String :=
  match i with
  | declaration d =>
    match d.name? bytes with
    | some n => Quoted.quote n
    | none => "None"
  | member m => Quoted.quoteList (m.names bytes)

theorem tag_eq_iff {i j : Item} : i.tag = j.tag ↔ i.kind = j.kind := by
  cases i with
  | declaration d =>
    cases j with
    | declaration e =>
      exact ⟨fun h => congrArg Sum.inl (DeclarationKind.tag_injective h),
        fun h => congrArg DeclarationKind.tag (Sum.inl.inj h)⟩
    | member m => exact ⟨fun h => absurd h (d.kind.tag_ne m.kind), nofun⟩
  | member m =>
    cases j with
    | declaration d => exact ⟨fun h => absurd h.symm (d.kind.tag_ne m.kind), nofun⟩
    | member m' =>
      exact ⟨fun h => congrArg Sum.inr (MemberKind.tag_injective h),
        fun h => congrArg MemberKind.tag (Sum.inr.inj h)⟩

/-- The words for the kinds tell them apart as the tags do. -/
theorem word_eq_iff {i j : Item} : i.word = j.word ↔ i.kind = j.kind := by
  cases i with
  | declaration d =>
    cases j with
    | declaration e =>
      simp only [word, kind, Sum.inl.injEq]
      cases d.kind <;> cases e.kind <;> simp [DeclarationKind.word]
    | member m =>
      simp only [word, kind]
      cases d.kind <;> cases m.kind <;> simp [DeclarationKind.word, MemberKind.word]
  | member m =>
    cases j with
    | declaration d =>
      simp only [word, kind]
      cases d.kind <;> cases m.kind <;> simp [DeclarationKind.word, MemberKind.word]
    | member m' =>
      simp only [word, kind, Sum.inr.injEq]
      cases m.kind <;> cases m'.kind <;> simp [MemberKind.word]

theorem space_not_mem_tag (i : Item) : ' ' ∉ i.tag.toList := by
  cases i with
  | declaration d =>
    rw [tag]
    cases d.kind <;> decide
  | member m =>
    rw [tag]
    cases m.kind <;> decide

theorem toList_shortForm (i : Item) (bytes : Bytes) : (i.shortForm bytes).toList =
    '<' :: (i.tag.toList ++ ' ' :: ((i.nameText bytes).toList ++ ['>'])) := by
  have hform : i.shortForm bytes = "<" ++ i.tag ++ " " ++ i.nameText bytes ++ ">" := by
    cases i <;> rfl
  rw [hform]
  simp only [String.toList_append, List.append_assoc]
  rfl

/-- A declaration's quoted name, or the word that stands for none, gives the name away. -/
theorem nameText_inj {i j : Item} {bytes bytes' : Bytes} (hkind : i.kind = j.kind)
    (h : (i.nameText bytes).toList ++ ['>'] = (j.nameText bytes').toList ++ ['>']) :
    i.names bytes = j.names bytes' := by
  -- A quoted name does not start as the word does.
  have hnone : ∀ n : String, (Quoted.quote n).toList ++ ['>'] ≠ "None".toList ++ ['>'] := by
    intro n he
    rw [Quoted.toList_quote] at he
    have hfirst : Quoted.quoteFor n.toList = 'N' := (List.cons.inj he).1
    rcases Quoted.isQuote_quoteFor n.toList with hq | hq <;> simp [hq] at hfirst
  cases i with
  | declaration d =>
    cases j with
    | member m => cases hkind
    | declaration e =>
      rw [names, names]
      simp only [nameText] at h
      cases hd : d.name? bytes with
      | none =>
        cases he : e.name? bytes' with
        | none => rfl
        | some n =>
          rw [hd, he] at h
          exact absurd h.symm (hnone n)
      | some n =>
        cases he : e.name? bytes' with
        | none =>
          rw [hd, he] at h
          exact absurd h (hnone n)
        | some n' =>
          rw [hd, he] at h
          rw [(Quoted.quote_append_inj h).1]
  | member m =>
    cases j with
    | declaration d => cases hkind
    | member m' => exact congrArg some (Quoted.quoteList_append_inj h).1

/-- Two items have the same short form exactly if they are of one kind and go by the same
names. -/
theorem shortForm_eq_iff {i j : Item} {bytes bytes' : Bytes} :
    i.shortForm bytes = j.shortForm bytes' ↔
      i.kind = j.kind ∧ i.names bytes = j.names bytes' := by
  rw [← String.toList_inj, toList_shortForm, toList_shortForm]
  constructor
  · intro h
    obtain ⟨htag, hname⟩ := append_cons_inj i.space_not_mem_tag j.space_not_mem_tag
      (List.cons.inj h).2
    have hkind : i.kind = j.kind := tag_eq_iff.mp (String.toList_inj.mp htag)
    exact ⟨hkind, nameText_inj hkind hname⟩
  · rintro ⟨hkind, hnames⟩
    have htext : i.nameText bytes = j.nameText bytes' := by
      cases i with
      | declaration d =>
        cases j with
        | member m => cases hkind
        | declaration e =>
          rw [names, names] at hnames
          rw [nameText, nameText]
          cases hd : d.name? bytes <;> cases he : e.name? bytes' <;> simp_all
      | member m =>
        cases j with
        | declaration d => cases hkind
        | member m' => exact congrArg Quoted.quoteList (Option.some.inj hnames)
    rw [tag_eq_iff.mpr hkind, htext]

/-- The short form of an item is one line, whatever its names are. -/
theorem isPrintable_of_mem_shortForm (i : Item) (bytes : Bytes) :
    ∀ c ∈ (i.shortForm bytes).toList, Printable.isPrintable c = true := by
  have htag : ∀ c ∈ i.tag.toList, Printable.isPrintable c = true := by
    apply Printable.isPrintable_of_all_ascii
    cases i with
    | declaration d =>
      rw [tag]
      cases d.kind <;> decide +kernel
    | member m =>
      rw [tag]
      cases m.kind <;> decide +kernel
  have hname : ∀ c ∈ (i.nameText bytes).toList, Printable.isPrintable c = true := by
    cases i with
    | member m => exact Quoted.isPrintable_of_mem_quoteList _
    | declaration d =>
      rw [nameText]
      cases d.name? bytes with
      | none => exact Printable.isPrintable_of_all_ascii (by decide +kernel)
      | some n => exact Quoted.isPrintable_of_mem_quote n
  intro c hc
  rw [toList_shortForm] at hc
  rcases List.mem_cons.mp hc with rfl | hc
  · exact Printable.isPrintable_of_ascii (by decide)
  rcases List.mem_append.mp hc with hc | hc
  · exact htag c hc
  rcases List.mem_cons.mp hc with rfl | hc
  · exact Printable.isPrintable_of_ascii (by decide)
  rcases List.mem_append.mp hc with hc | hc
  · exact hname c hc
  · rw [List.mem_singleton.mp hc]
    exact Printable.isPrintable_of_ascii (by decide)

end Item

end ClassOutline
