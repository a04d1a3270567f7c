import ClassOutline.FileSystem.Lookup
import Mathlib.Data.List.Basic

/-!
# Paths and their texts

The pieces between separators hold none, and pieces that hold none are found again
between the separators that join them. So the text of a path whose parts can be told
apart reads back as the path (`ofText_text`); reading a text gives only such paths.
Putting a name behind a text agrees with going on to an entry (`ofText_entryText`), and
adds the bytes of the name and a slash (`byteCount_child`).
-/

namespace ClassOutline

namespace Split

variable {sep : Char} {cs : List Char}

theorem chars_of_not_mem (h : sep ∉ cs) : chars sep cs = [cs] := by
  induction cs with
  | nil => rfl
  | cons c cs ih =>
    rw [List.mem_cons, not_or] at h
    obtain ⟨hne, hcs⟩ := h
    rw [chars, if_neg (Ne.symm hne), ih hcs]

theorem chars_ne_nil (sep : Char) (cs : List Char) : chars sep cs ≠ [] := by
  cases cs with
  | nil => exact List.cons_ne_nil _ _
  | cons c cs =>
    rw [chars]
    split
    · exact List.cons_ne_nil _ _
    · split <;> exact List.cons_ne_nil _ _

/-- A separator parts a text whatever stands on its sides. -/
theorem chars_append_sep (sep : Char) (cs rest : List Char) :
    chars sep (cs ++ sep :: rest) = chars sep cs ++ chars sep rest := by
  induction cs with
  | nil =>
    show chars sep (sep :: rest) = [] :: chars sep rest
    rw [chars, if_pos rfl]
  | cons c cs ih =>
    rw [List.cons_append, chars, chars, ih]
    split
    · rw [List.cons_append]
    · cases hcs : chars sep cs with
      | nil => exact absurd hcs (chars_ne_nil sep cs)
      | cons piece pieces => rw [List.cons_append]; rfl

theorem chars_append (h : sep ∉ cs) (rest : List Char) :
    chars sep (cs ++ sep :: rest) = cs :: chars sep rest := by
  rw [chars_append_sep, chars_of_not_mem h, List.singleton_append]

theorem not_mem_of_mem_chars {piece : List Char} (h : piece ∈ chars sep cs) : sep ∉ piece := by
  induction cs generalizing piece with
  | nil => simp_all [chars]
  | cons c cs ih =>
    rw [chars] at h
    split at h
    · rcases List.mem_cons.mp h with rfl | h
      · simp
      · exact ih h
    · rename_i hne
      split at h
      · rw [List.mem_singleton.mp h, List.mem_singleton]
        exact Ne.symm hne
      · rename_i first rest hchars
        rcases List.mem_cons.mp h with rfl | h
        · exact List.not_mem_cons_of_ne_of_not_mem (Ne.symm hne) (ih (by simp [hchars]))
        · exact ih (by simp [hchars, h])

end Split

namespace Path

theorem split_of_not_mem {text : String} (h : '/' ∉ text.toList) : split text = [text] := by
  rw [split, Split.text, Split.chars_of_not_mem h]
  simp

theorem split_append {text : String} (h : '/' ∉ text.toList) (rest : String) :
    split (text ++ "/" ++ rest) = text :: split rest := by
  have hchars : (text ++ "/" ++ rest).toList = text.toList ++ '/' :: rest.toList := by simp
  rw [split, Split.text, hchars, Split.chars_append h]
  simp [split, Split.text]

/-- A part that the text of a path keeps apart from the others. -/
def ProperPart (part : String) : Prop :=
  part ≠ "" ∧ part ≠ "." ∧ '/' ∉ part.toList

instance (part : String) : Decidable (ProperPart part) :=
  inferInstanceAs (Decidable (part ≠ "" ∧ part ≠ "." ∧ '/' ∉ part.toList))

theorem split_join {parts : List String} (hne : parts ≠ [])
    (h : ∀ part ∈ parts, ProperPart part) : split (join parts) = parts := by
  induction parts with
  | nil => exact absurd rfl hne
  | cons part parts ih =>
    have hpart := (h part (List.mem_cons_self ..)).2.2
    cases parts with
    | nil => rw [join, String.intercalate_singleton, split_of_not_mem hpart]
    | cons next parts =>
      rw [join, String.intercalate_cons_cons, split_append hpart]
      exact congrArg (part :: ·)
        (ih (by simp) fun x hx => h x (List.mem_cons_of_mem _ hx))

theorem properPart_ofText (text : String) : ∀ part ∈ (ofText text).parts, ProperPart part := by
  intro part hpart
  obtain ⟨hmem, hkept⟩ := List.mem_filter.mp hpart
  obtain ⟨piece, hpiece, rfl⟩ := List.mem_map.mp hmem
  have hslash := Split.not_mem_of_mem_chars hpiece
  have hkept : String.ofList piece ≠ "" ∧ String.ofList piece ≠ "." := by simpa using hkept
  exact ⟨hkept.1, hkept.2, by rwa [String.toList_ofList]⟩

/-- The parts that joined parts, after slashes or none, are read as. -/
theorem filter_split_join {parts : List String} (h : ∀ part ∈ parts, ProperPart part) :
    (split (join parts)).filter (fun part => part ≠ "" ∧ part ≠ ".") = parts := by
  rcases eq_or_ne parts [] with rfl | hne
  · decide
  · rw [split_join hne h, List.filter_eq_self]
    intro part hpart
    simpa using ⟨(h part hpart).1, (h part hpart).2.1⟩

theorem takeWhile_join {parts : List String} (h : ∀ part ∈ parts, ProperPart part) :
    (join parts).toList.takeWhile (· = '/') = [] := by
  cases parts with
  | nil => rfl
  | cons part parts =>
    obtain ⟨hempty, _, hslash⟩ := h part (List.mem_cons_self ..)
    obtain ⟨rest, hrest⟩ : ∃ rest, join (part :: parts) = part ++ rest := by
      cases parts with
      | nil => exact ⟨"", by simp [join, String.intercalate_singleton]⟩
      | cons next parts =>
        exact ⟨_, by rw [join, String.intercalate_cons_cons, String.append_assoc]⟩
    rw [hrest, String.toList_append]
    cases hchars : part.toList with
    | nil => exact absurd (String.toList_eq_nil_iff.mp hchars) hempty
    | cons c cs =>
      rw [hchars] at hslash
      have hc : c ≠ '/' := fun he => hslash (he ▸ List.mem_cons_self ..)
      rw [List.cons_append, List.takeWhile_cons_of_neg (by simpa using hc)]

/-- The text of a path reads back as the path. -/
theorem ofText_text {p : Path} (h : ∀ part ∈ p.parts, ProperPart part) : ofText p.text = p := by
  obtain ⟨anchor, parts⟩ := p
  have hslashes := takeWhile_join h
  have hparts := filter_split_join h
  cases anchor with
  | relative =>
    cases parts with
    | nil => decide
    | cons part parts =>
      have htext : text ⟨.relative, part :: parts⟩ = join (part :: parts) := by
        simp [text, Anchor.text]
      rw [htext, ofText, anchorOf, hslashes, hparts]
      rfl
  | root =>
    have htext : text ⟨.root, parts⟩ = "" ++ "/" ++ join parts := by simp [text, Anchor.text]
    have hchars : ("" ++ "/" ++ join parts).toList = '/' :: (join parts).toList := by simp
    rw [htext, ofText, split_append (by simp), anchorOf, hchars,
      List.takeWhile_cons_of_pos (by simp), hslashes, List.filter_cons_of_neg (by simp), hparts]
    rfl
  | doubleRoot =>
    have htext : text ⟨.doubleRoot, parts⟩ = "" ++ "/" ++ ("" ++ "/" ++ join parts) := by
      simp [text, Anchor.text, ← String.append_assoc]
    have hchars : ("" ++ "/" ++ ("" ++ "/" ++ join parts)).toList =
        '/' :: '/' :: (join parts).toList := by simp
    rw [htext, ofText, split_append (by simp), split_append (by simp), anchorOf, hchars,
      List.takeWhile_cons_of_pos (by simp), List.takeWhile_cons_of_pos (by simp), hslashes,
      List.filter_cons_of_neg (by simp), List.filter_cons_of_neg (by simp), hparts]
    rfl

/-- What reading a text gives has a text that reads back. -/
theorem ofText_text_ofText (text : String) : ofText (ofText text).text = ofText text :=
  ofText_text (properPart_ofText text)

/-! ## Names put behind a text -/

/-- The text of an entry of a directory. A slash comes between, unless the text of the
directory is empty or ends with one. -/
def entryText (dir name : String) : String :=
  if dir = "" ∨ dir.toList.getLast? = some '/' then dir ++ name else dir ++ "/" ++ name

theorem split_append_slash (text rest : String) :
    split (text ++ "/" ++ rest) = split text ++ split rest := by
  have hchars : (text ++ "/" ++ rest).toList = text.toList ++ '/' :: rest.toList := by simp
  rw [split, Split.text, hchars, Split.chars_append_sep, List.map_append]
  rfl

/-- Where no slash follows, or something else came before, the anchor is settled. -/
theorem anchorOf_append {text rest : String}
    (h : rest.toList.takeWhile (· = '/') = [] ∨ ∃ c ∈ text.toList, c ≠ '/') :
    anchorOf (text ++ rest) = anchorOf text := by
  have hslashes : (text ++ rest).toList.takeWhile (· = '/') =
      text.toList.takeWhile (· = '/') := by
    rw [String.toList_append, List.takeWhile_append]
    split
    · rename_i hlen
      have hall := (List.takeWhile_prefix (p := (decide <| · = '/'))).eq_of_length hlen
      rcases h with hrest | ⟨c, hc, hne⟩
      · rw [hrest, List.append_nil, hall]
      · rw [← hall] at hc
        have hslash := List.all_eq_true.mp List.all_takeWhile c hc
        exact absurd (by simpa using hslash) hne
    · rfl
  rw [anchorOf, anchorOf, hslashes]

theorem parts_ofText_append_slash {name : String} (hname : ProperPart name) (dir : String) :
    (ofText (dir ++ "/" ++ name)).parts = (ofText dir).parts ++ [name] := by
  obtain ⟨hempty, hdot, hslash⟩ := hname
  simp only [ofText, split_append_slash, split_of_not_mem hslash, List.filter_append]
  rw [List.filter_cons_of_pos (by simpa using ⟨hempty, hdot⟩), List.filter_nil]

/-- Putting a name behind a text and reading it is reading the text and going on to the
entry. -/
theorem ofText_entryText {name : String} (hname : ProperPart name) (dir : String) :
    ofText (entryText dir name) = (ofText dir).child name := by
  have hslashes : name.toList.takeWhile (· = '/') = [] := by
    have hjoin := @takeWhile_join [name] (by simpa using hname)
    rwa [join, String.intercalate_singleton] at hjoin
  have hext : ∀ text, anchorOf text = anchorOf dir →
      (ofText text).parts = (ofText dir).parts ++ [name] →
      ofText text = (ofText dir).child name := by
    intro text hanchor hparts
    rw [child, ← hparts]
    exact congrArg (Path.mk · (ofText text).parts) hanchor
  rw [entryText]
  split
  · rename_i h
    refine hext _ (anchorOf_append (Or.inl hslashes)) ?_
    rcases h with rfl | hlast
    · -- With a slash before the name there would be one more piece, an empty one.
      have hparts := parts_ofText_append_slash hname ""
      rw [ofText, split_append_slash] at hparts
      exact hparts
    · obtain ⟨cs, hcs⟩ := List.getLast?_eq_some_iff.mp hlast
      have hdir : dir = String.ofList cs ++ "/" ++ "" := by
        apply String.toList_inj.mp
        simp [hcs]
      have hparts : (ofText dir).parts = (ofText (String.ofList cs)).parts := by
        simp only [hdir, ofText, split_append_slash, List.filter_append]
        exact List.append_nil _
      rw [hparts, ← parts_ofText_append_slash hname, hdir, String.append_empty]
  · rename_i h
    rw [not_or] at h
    obtain ⟨hempty, hlast⟩ := h
    refine hext _ ?_ (parts_ofText_append_slash hname dir)
    rw [String.append_assoc]
    apply anchorOf_append
    right
    have hne : dir.toList ≠ [] := fun he => hempty (String.toList_eq_nil_iff.mp he)
    refine ⟨dir.toList.getLast hne, List.getLast_mem hne, fun he => hlast ?_⟩
    rw [List.getLast?_eq_some_getLast hne, he]

end Path

/-! ## Lengths of texts -/

theorem byteCount_append (a b : String) : byteCount (a ++ b) = byteCount a + byteCount b := by
  simp [byteCount, Utf8.encode, Utf8.encodeChars_append]

theorem byteCount_pos {text : String} (h : text ≠ "") : 0 < byteCount text := by
  cases hchars : text.toList with
  | nil => exact absurd (String.toList_eq_nil_iff.mp hchars) h
  | cons c cs =>
    rw [byteCount, Utf8.encode, hchars, Utf8.encodeChars, List.flatMap_cons, List.length_append]
    exact Nat.lt_add_right _ (Utf8.length_encodeChar_pos c)

namespace Path

theorem join_concat (parts : List String) (name : String) :
    join (parts ++ [name]) = if parts = [] then name else join parts ++ "/" ++ name := by
  induction parts with
  | nil => exact String.intercalate_singleton
  | cons part parts ih =>
    cases parts with
    | nil => simp [join, String.intercalate_singleton]
    | cons next parts =>
      rw [if_neg (by simp)] at ih ⊢
      have hjoin : ∀ rest, join (part :: next :: rest) = part ++ "/" ++ join (next :: rest) :=
        fun rest => String.intercalate_cons_cons
      rw [List.cons_append, List.cons_append, hjoin, hjoin, ← List.cons_append, ih]
      simp only [String.append_assoc]

theorem byteCount_join_replicate (n : Nat) (name : String) :
    byteCount (join (List.replicate (n + 1) name)) + 1 = (n + 1) * (byteCount name + 1) := by
  have hslash : byteCount "/" = 1 := by decide
  induction n with
  | zero => rw [List.replicate_one, join, String.intercalate_singleton, Nat.zero_add, Nat.one_mul]
  | succ n ih =>
    rw [List.replicate_succ', join_concat, if_neg (by simp), byteCount_append, byteCount_append,
      hslash, Nat.succ_mul (n + 1), ← ih]
    omega

/-- Number of bytes that come before the name in the text of an entry of a directory. -/
def stemBytes (p : Path) : Nat :=
  byteCount p.anchor.text + if p.parts = [] then 0 else byteCount (join p.parts) + 1

theorem byteCount_text (p : Path) : byteCount p.text =
    if p.anchor = .relative ∧ p.parts = [] then 1
    else byteCount p.anchor.text + byteCount (join p.parts) := by
  obtain ⟨anchor, parts⟩ := p
  cases anchor <;> cases parts <;> simp [text, byteCount_append]
  rfl

theorem byteCount_child (p : Path) (name : String) :
    byteCount (p.child name).text = p.stemBytes + byteCount name := by
  have hslash : byteCount "/" = 1 := by decide
  have hanchor : (p.child name).anchor = p.anchor := rfl
  have hjoin : join (p.child name).parts = _ := join_concat p.parts name
  rw [byteCount_text, if_neg (by simp [child]), stemBytes, hanchor, hjoin]
  by_cases h : p.parts = []
  · rw [if_pos h, if_pos h]
    omega
  · rw [if_neg h, if_neg h, byteCount_append, byteCount_append, hslash]
    omega

/-- Below a directory that is not where a path starts, a slash comes before the name. -/
theorem stemBytes_eq {p : Path} (h : p.parts ≠ []) : p.stemBytes = byteCount p.text + 1 := by
  rw [stemBytes, if_neg h, byteCount_text, if_neg (by simp [h])]
  omega

theorem stemBytes_le (p : Path) : p.stemBytes ≤ byteCount p.text + 1 := by
  by_cases h : p.parts = []
  · rw [stemBytes, if_pos h, byteCount_text, h]
    cases p.anchor <;> decide
  · exact Nat.le_of_eq (stemBytes_eq h)

theorem byteCount_child_le (p : Path) (name : String) :
    byteCount (p.child name).text ≤ byteCount p.text + 1 + byteCount name := by
  rw [byteCount_child]
  exact Nat.add_le_add_right p.stemBytes_le _

theorem child_parent {p : Path} (h : p.parts ≠ []) : p.parent.child p.name = p := by
  rw [name, List.getLast?_eq_some_getLast h, parent, child]
  exact congrArg (Path.mk p.anchor) (List.dropLast_append_getLast h)

/-- A directory that a path can name an entry of has a text that is short enough itself. -/
theorem byteCount_le_of_child {p : Path} {name : String} (hname : name ≠ "") :
    byteCount p.text + 2 ≤ max 4 (byteCount (p.child name).text) := by
  have hpos := byteCount_pos hname
  by_cases h : p.parts = []
  · have htext : byteCount p.text ≤ 2 := by
      rw [byteCount_text, h]
      cases p.anchor <;> decide
    omega
  · rw [byteCount_child, stemBytes_eq h]
    omega

end Path

theorem Location.byteCount_concat_le (loc : Location) (name : String) :
    byteCount (Location.path (loc ++ [name])).text ≤
      byteCount (Location.path loc).text + 1 + byteCount name :=
  (Location.path loc).byteCount_child_le name

/-- A target that is put together from names has these names. -/
theorem targetParts_join {names : List String} (hne : names ≠ [])
    (h : ∀ name ∈ names, Path.ProperPart name) : targetParts (Path.join names) = names := by
  have hlast : (Path.join names).toList.getLast? ≠ some '/' := by
    obtain ⟨hempty, _, hslash⟩ := h _ (List.getLast_mem hne)
    obtain ⟨front, hfront⟩ : ∃ front, Path.join names = front ++ names.getLast hne := by
      have hjoin := Path.join_concat names.dropLast (names.getLast hne)
      rw [List.dropLast_append_getLast hne] at hjoin
      rw [hjoin]
      split
      · exact ⟨"", String.empty_append.symm⟩
      · exact ⟨_, rfl⟩
    have hchars : (names.getLast hne).toList ≠ [] :=
      fun he => hempty (String.toList_eq_nil_iff.mp he)
    rw [hfront, String.toList_append, List.getLast?_append_of_ne_nil _ hchars]
    exact fun he => hslash (List.mem_of_getLast? he)
  have hkept : names.filter (· ≠ "") = names :=
    List.filter_eq_self.mpr fun name hname => by simpa using (h name hname).1
  rw [targetParts, Path.split_join hne h, hkept, if_neg hlast, List.append_nil]

theorem isAbsolute_join {names : List String} (h : ∀ name ∈ names, Path.ProperPart name) :
    isAbsolute (Path.join names) = false := by
  have hslashes := Path.takeWhile_join h
  rw [isAbsolute, decide_eq_false_iff_not]
  intro hhead
  obtain ⟨rest, hrest⟩ := List.head?_eq_some_iff.mp hhead
  rw [hrest, List.takeWhile_cons_of_pos (by simp)] at hslashes
  cases hslashes

/-- The names of a target without slashes are the target. -/
theorem targetParts_of_not_mem {target : String} (h : '/' ∉ target.toList) (hne : target ≠ "") :
    targetParts target = [target] := by
  have hlast : target.toList.getLast? ≠ some '/' := fun he => h (List.mem_of_getLast? he)
  rw [targetParts, Path.split_of_not_mem h, if_neg hlast, List.append_nil,
    List.filter_cons_of_pos (by simpa using hne), List.filter_nil]

end ClassOutline
