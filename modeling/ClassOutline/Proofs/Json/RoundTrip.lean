import ClassOutline.Proofs.Json.Reader
import Mathlib.Data.List.Basic

/-!
# Both layouts are read back

The two layouts of a value differ in blanks only, so both are cut into the tokens of
the value (`takes_compact`, `takes_indented`), and these give back the value
(`readValue_tokens`). The compact text holds no line end.
-/

namespace ClassOutline.Json

/-- Induction over a value, one hypothesis for each item or member. -/
@[elab_as_elim]
theorem induction_parts {motive : Json → Prop} (null : motive .null)
    (str : ∀ text, motive (.str text))
    (arr : ∀ items, (∀ j ∈ items, motive j) → motive (.arr items))
    (obj : ∀ members, (∀ m ∈ members, motive m.2) → motive (.obj members)) (j : Json) :
    motive j := by
  refine @Json.rec motive (fun items => ∀ j ∈ items, motive j)
    (fun members => ∀ m ∈ members, motive m.2) (fun m => motive m.2) null str arr obj
    ?_ ?_ ?_ ?_ ?_ j
  · simp
  · intro j items hj hitems
    exact List.forall_mem_cons.mpr ⟨hj, hitems⟩
  · simp
  · intro m members hm hmembers
    exact List.forall_mem_cons.mpr ⟨hm, hmembers⟩
  · intro _ _ hj
    exact hj

/-! ## Lists with commas between -/

section Intercalate

variable {α β : Type} {sep : β}

theorem intercalate_map_singleton (spell : α → List β) (x : α) :
    [sep].intercalate ([x].map spell) = spell x := by
  rw [List.map_singleton, List.intercalate_singleton]

theorem intercalate_map_cons_cons (spell : α → List β) (x y : α) (ys : List α) :
    [sep].intercalate ((x :: y :: ys).map spell) =
      spell x ++ sep :: [sep].intercalate ((y :: ys).map spell) := by
  rw [List.map_cons, List.map_cons, List.intercalate_cons_cons, List.append_assoc,
    List.singleton_append]

/-- A list function that puts a separator between what it makes of the items. -/
theorem eq_intercalate {f : List α → List β} {one : α → List β}
    (hnil : f [] = []) (hone : ∀ x, f [x] = one x)
    (hcons : ∀ x y rest, f (x :: y :: rest) = one x ++ sep :: f (y :: rest)) (xs : List α) :
    f xs = [sep].intercalate (xs.map one) := by
  induction xs with
  | nil => rw [hnil, List.map_nil, List.intercalate_nil]
  | cons x xs ih =>
    cases xs with
    | nil => rw [hone, intercalate_map_singleton]
    | cons y rest => rw [hcons, ih, intercalate_map_cons_cons]

/-- What holds of the separator and of every part of what is put between. -/
theorem forall_mem_intercalate {P : β → Prop} {spell : α → List β} {xs : List α} (hsep : P sep)
    (h : ∀ x ∈ xs, ∀ c ∈ spell x, P c) : ∀ c ∈ [sep].intercalate (xs.map spell), P c := by
  induction xs with
  | nil => exact fun _ hc => absurd hc List.not_mem_nil
  | cons x xs ih =>
    obtain ⟨hx, hxs⟩ := List.forall_mem_cons.mp h
    cases xs with
    | nil =>
      rw [intercalate_map_singleton]
      exact hx
    | cons y ys =>
      rw [intercalate_map_cons_cons]
      intro c hc
      rcases List.mem_append.mp hc with hc | hc
      · exact hx c hc
      · exact List.forall_mem_cons.mpr ⟨hsep, ih hxs⟩ c hc

end Intercalate

def compactMember (m : String × Json) : List Char :=
  quote m.1 ++ ':' :: m.2.compact

def indentedMember (level : Nat) (m : String × Json) : List Char :=
  newLine level ++ quote m.1 ++ ':' :: ' ' :: m.2.indented level

def tokensOfMember (m : String × Json) : List Token :=
  .str m.1 :: .colon :: m.2.tokens

theorem compactItems_eq (items : List Json) :
    compactItems items = [','].intercalate (items.map compact) :=
  eq_intercalate (by simp [compactItems]) (by simp [compactItems])
    (by simp [compactItems]) items

theorem compactMembers_eq (members : List (String × Json)) :
    compactMembers members = [','].intercalate (members.map compactMember) :=
  eq_intercalate (by simp [compactMembers]) (by simp [compactMembers, compactMember])
    (by simp [compactMembers, compactMember]) members

theorem indentedItems_eq (level : Nat) (items : List Json) :
    indentedItems level items =
      [','].intercalate (items.map fun j => newLine level ++ j.indented level) :=
  eq_intercalate (by simp [indentedItems]) (by simp [indentedItems])
    (by simp [indentedItems]) items

theorem indentedMembers_eq (level : Nat) (members : List (String × Json)) :
    indentedMembers level members = [','].intercalate (members.map (indentedMember level)) :=
  eq_intercalate (by simp [indentedMembers]) (by simp [indentedMembers, indentedMember])
    (by simp [indentedMembers, indentedMember]) members

theorem itemTokens_eq (items : List Json) :
    itemTokens items = [Token.comma].intercalate (items.map tokens) :=
  eq_intercalate (by simp [itemTokens]) (by simp [itemTokens]) (by simp [itemTokens]) items

theorem memberTokens_eq (members : List (String × Json)) :
    memberTokens members = [Token.comma].intercalate (members.map tokensOfMember) :=
  eq_intercalate (by simp [memberTokens]) (by simp [memberTokens, tokensOfMember])
    (by simp [memberTokens, tokensOfMember]) members

/-! ## Cutting into tokens -/

/-- Characters that take the first stage from one cursor to another and complete some
tokens on the way, whatever follows them. -/
def Takes (cursor : Cursor) (cs : List Char) (ts : List Token) (next : Cursor) : Prop :=
  ∀ rest, scanFrom cursor (cs ++ rest) = (scanFrom next rest).map (ts ++ ·)

section Takes

variable {cursor next last : Cursor} {c : Char} {cs ds : List Char} {ts us : List Token}

theorem Takes.nil (cursor : Cursor) : Takes cursor [] [] cursor := by
  intro rest
  simp

theorem Takes.append (h : Takes cursor cs ts next) (h' : Takes next ds us last) :
    Takes cursor (cs ++ ds) (ts ++ us) last := by
  intro rest
  rw [List.append_assoc, h, h', Option.map_map]
  simp [Function.comp_def]

theorem Takes.step (h : cursor.step c = some (ts, next)) : Takes cursor [c] ts next := by
  intro rest
  rw [List.singleton_append]
  simp only [scanFrom, h]

theorem Takes.cons (h : cursor.step c = some (ts, next)) (h' : Takes next cs us last) :
    Takes cursor (c :: cs) (ts ++ us) last :=
  (Takes.step h).append h'

theorem Takes.blank (h : Takes .outside cs [] .outside) (h' : Takes .outside ds ts next) :
    Takes .outside (cs ++ ds) ts next :=
  h.append h'

/-- A character that is a token by itself, before other tokens. -/
theorem Takes.mark {t : Token} (h : Cursor.outside.step c = some ([t], .outside))
    (h' : Takes .outside cs ts next) : Takes .outside (c :: cs) (t :: ts) next :=
  Takes.cons h h'

theorem Takes.intercalate {α : Type} {spell : α → List Char} {token : α → List Token}
    {xs : List α} (h : ∀ x ∈ xs, Takes .outside (spell x) (token x) .outside) :
    Takes .outside ([','].intercalate (xs.map spell)) ([Token.comma].intercalate (xs.map token))
      .outside := by
  induction xs with
  | nil => exact Takes.nil _
  | cons x xs ih =>
    obtain ⟨hx, hxs⟩ := List.forall_mem_cons.mp h
    cases xs with
    | nil =>
      rw [intercalate_map_singleton, intercalate_map_singleton]
      exact hx
    | cons y rest =>
      rw [intercalate_map_cons_cons, intercalate_map_cons_cons]
      exact hx.append (Takes.mark rfl (ih hxs))

theorem takes_spaces (h : ∀ c ∈ cs, isSpace c = true) : Takes .outside cs [] .outside := by
  induction cs with
  | nil => exact Takes.nil _
  | cons c cs ih =>
    obtain ⟨hc, hcs⟩ := List.forall_mem_cons.mp h
    exact Takes.cons (by rw [Cursor.step, if_pos hc]) (ih hcs)

theorem takes_newLine (level : Nat) : Takes .outside (newLine level) [] .outside := by
  apply takes_spaces
  intro c hc
  rcases List.mem_cons.mp hc with rfl | hc
  · rfl
  · rw [List.eq_of_mem_replicate hc]
    rfl

/-! ## Strings -/

theorem hexValue?_digitChar : ∀ d < 16, hexValue? (Nat.digitChar d) = some d := by
  decide

theorem hex_four : ∀ n < 32,
    Quoted.hex 4 n = ['0', '0', Nat.digitChar (n / 16), Nat.digitChar (n % 16)] := by
  decide

/-- The four digits of a control character. -/
theorem takes_hex {text : List Char} (hc : c.toNat < 32) :
    Takes (.unit text none 0 3) (Quoted.hex 4 c.toNat) [] (.inside (text ++ [c])) := by
  have hzero : ∀ owed, (Cursor.unit text none 0 (owed + 1)).step '0' =
      some ([], .unit text none 0 owed) := fun _ => rfl
  have hhigh : (Cursor.unit text none 0 1).step (Nat.digitChar (c.toNat / 16)) =
      some ([], .unit text none (c.toNat / 16) 0) := by
    rw [Cursor.step, hexValue?_digitChar _ (by omega)]
    simp
  have hvalue : c.toNat / 16 * 16 + c.toNat % 16 = c.toNat := by omega
  have hlow : (Cursor.unit text none (c.toNat / 16) 0).step (Nat.digitChar (c.toNat % 16)) =
      some ([], .inside (text ++ [c])) := by
    rw [Cursor.step, hexValue?_digitChar _ (by omega)]
    simp only [hvalue, closeUnit]
    rw [if_neg (by omega), if_neg (by omega), Char.ofNat_toNat]
    rfl
  rw [hex_four _ hc]
  exact Takes.cons (hzero 2) (Takes.cons (hzero 1) (Takes.cons hhigh (Takes.step hlow)))

theorem takes_short {letter : Char} {text : List Char} (hu : letter ≠ 'u')
    (hc : unescape? letter = some c) :
    Takes (.inside text) ['\\', letter] [] (.inside (text ++ [c])) := by
  have hslash : (Cursor.inside text).step '\\' = some ([], .escaped text) := rfl
  have hletter : (Cursor.escaped text).step letter = some ([], .inside (text ++ [c])) := by
    rw [Cursor.step, if_neg hu, hc]
    rfl
  exact Takes.cons hslash (Takes.step hletter)

theorem eq_ofNat {n : Nat} (h : c.toNat = n) : Char.ofNat n = c := by
  rw [← h, Char.ofNat_toNat]

/-- The written form of a character adds it to the text. -/
theorem takes_escape (text : List Char) (c : Char) :
    Takes (.inside text) (escape c) [] (.inside (text ++ [c])) := by
  unfold escape
  split_ifs with hquote hslash h8 h9 h10 h12 h13 hcontrol
  · exact takes_short (by decide) (by rw [hquote]; rfl)
  · exact takes_short (by decide) (by rw [hslash]; rfl)
  · exact takes_short (by decide) (congrArg some (eq_ofNat h8))
  · exact takes_short (by decide) (congrArg some (eq_ofNat h9))
  · exact takes_short (by decide) (congrArg some (eq_ofNat h10))
  · exact takes_short (by decide) (congrArg some (eq_ofNat h12))
  · exact takes_short (by decide) (congrArg some (eq_ofNat h13))
  · have hslash : (Cursor.inside text).step '\\' = some ([], .escaped text) := rfl
    have hletter : (Cursor.escaped text).step 'u' = some ([], .unit text none 0 3) := rfl
    exact Takes.cons hslash (Takes.cons hletter (takes_hex hcontrol))
  · exact Takes.step (by rw [Cursor.step, if_neg hquote, if_neg hslash, if_neg hcontrol])

theorem takes_escapes (text cs : List Char) :
    Takes (.inside text) (cs.flatMap escape) [] (.inside (text ++ cs)) := by
  induction cs generalizing text with
  | nil =>
    rw [List.append_nil]
    exact Takes.nil _
  | cons c cs ih =>
    have htext : text ++ c :: cs = text ++ [c] ++ cs := by simp
    rw [List.flatMap_cons, htext]
    exact (takes_escape text c).append (ih _)

theorem takes_quote (text : String) : Takes .outside (quote text) [.str text] .outside := by
  have hopen : Cursor.outside.step '"' = some ([], .inside []) := rfl
  have hclose : (Cursor.inside text.toList).step '"' = some ([.str text], .outside) := by
    rw [Cursor.step, if_pos rfl, String.ofList_toList]
  exact Takes.cons hopen ((takes_escapes [] text.toList).append (Takes.step hclose))

end Takes

/-! ## The two layouts -/

theorem takes_null : Takes .outside ['n', 'u', 'l', 'l'] [.null] .outside := by
  have hfirst : Cursor.outside.step 'n' = some ([], .word ['u', 'l', 'l']) := rfl
  have hsecond : (Cursor.word ['u', 'l', 'l']).step 'u' = some ([], .word ['l', 'l']) := rfl
  have hthird : (Cursor.word ['l', 'l']).step 'l' = some ([], .word ['l']) := rfl
  have hlast : (Cursor.word ['l']).step 'l' = some ([.null], .outside) := rfl
  exact Takes.cons hfirst (Takes.cons hsecond (Takes.cons hthird (Takes.step hlast)))

theorem takes_compact (j : Json) : Takes .outside j.compact j.tokens .outside := by
  induction j using induction_parts with
  | null =>
    rw [compact, tokens]
    exact takes_null
  | str text =>
    rw [compact, tokens]
    exact takes_quote text
  | arr items ih =>
    rw [compact, tokens, compactItems_eq, itemTokens_eq]
    exact Takes.mark rfl ((Takes.intercalate ih).append (Takes.step rfl))
  | obj members ih =>
    rw [compact, tokens, compactMembers_eq, memberTokens_eq]
    refine Takes.mark rfl ((Takes.intercalate fun m hm => ?_).append (Takes.step rfl))
    exact (takes_quote m.1).append (Takes.mark rfl (ih m hm))

theorem indented_arr (level : Nat) {items : List Json} (h : items ≠ []) :
    indented level (.arr items) =
      '[' :: indentedItems (level + 1) items ++ newLine level ++ [']'] := by
  cases items with
  | nil => exact absurd rfl h
  | cons j rest => rw [indented]; exact h

theorem indented_obj (level : Nat) {members : List (String × Json)} (h : members ≠ []) :
    indented level (.obj members) =
      '{' :: indentedMembers (level + 1) members ++ newLine level ++ ['}'] := by
  cases members with
  | nil => exact absurd rfl h
  | cons m rest => rw [indented]; exact h

theorem takes_indented (level : Nat) (j : Json) :
    Takes .outside (j.indented level) j.tokens .outside := by
  induction j using induction_parts generalizing level with
  | null =>
    rw [indented, tokens]
    exact takes_null
  | str text =>
    rw [indented, tokens]
    exact takes_quote text
  | arr items ih =>
    rcases eq_or_ne items [] with rfl | hne
    · rw [indented, tokens, itemTokens]
      exact Takes.mark rfl (Takes.step rfl)
    · rw [indented_arr level hne, tokens, indentedItems_eq, itemTokens_eq, List.append_assoc]
      have hitems := Takes.intercalate fun j hj =>
        (takes_newLine (level + 1)).blank (ih j hj (level + 1))
      exact Takes.mark rfl (hitems.append ((takes_newLine level).blank (Takes.step rfl)))
  | obj members ih =>
    rcases eq_or_ne members [] with rfl | hne
    · rw [indented, tokens, memberTokens]
      exact Takes.mark rfl (Takes.step rfl)
    · rw [indented_obj level hne, tokens, indentedMembers_eq, memberTokens_eq, List.append_assoc]
      have hmember : ∀ m ∈ members,
          Takes .outside (indentedMember (level + 1) m) (tokensOfMember m) .outside := by
        intro m hm
        have hspace : Takes .outside [' '] [] .outside := Takes.step rfl
        exact ((takes_newLine (level + 1)).blank (takes_quote m.1)).append
          (Takes.mark rfl (hspace.blank (ih m hm (level + 1))))
      exact Takes.mark rfl
        ((Takes.intercalate hmember).append ((takes_newLine level).blank (Takes.step rfl)))

/-! ## Building the value -/

section Many

variable {α : Type} {close : Token} {one : List Token → Option (α × List Token)}
  {spell : α → List Token} {x : α} {xs : List α} {n : Nat}

theorem readMany_intercalate (hclose : close ≠ .comma) (hxs : xs ≠ []) (hn : xs.length ≤ n)
    (hone : ∀ x ∈ xs, ∀ rest, one (spell x ++ rest) = some (x, rest)) (rest : List Token) :
    readMany close one n ([Token.comma].intercalate (xs.map spell) ++ close :: rest) =
      some (xs, rest) := by
  induction xs generalizing n with
  | nil => exact absurd rfl hxs
  | cons x xs ih =>
    obtain ⟨hx, hrest⟩ := List.forall_mem_cons.mp hone
    obtain ⟨m, rfl⟩ : ∃ m, n = m + 1 := ⟨n - 1, by rw [List.length_cons] at hn; omega⟩
    cases xs with
    | nil =>
      rw [intercalate_map_singleton, readMany, hx]
      simp only [if_true]
    | cons y ys =>
      have htail := ih (List.cons_ne_nil y ys) (Nat.le_of_succ_le_succ hn) hrest
      rw [intercalate_map_cons_cons, List.append_assoc, List.cons_append, readMany, hx]
      simp only [if_neg hclose.symm, if_true, htail, Option.map_some]

/-- Every thing but the last has a comma behind it. -/
theorem length_le_intercalate (spell : α → List Token) (xs : List α) :
    xs.length ≤ ([Token.comma].intercalate (xs.map spell)).length + 1 := by
  induction xs with
  | nil => simp
  | cons x xs ih =>
    cases xs with
    | nil => simp
    | cons y ys =>
      rw [intercalate_map_cons_cons]
      simp only [List.length_append, List.length_cons] at ih ⊢
      omega

theorem length_spell_le (hx : x ∈ xs) :
    (spell x).length ≤ ([Token.comma].intercalate (xs.map spell)).length := by
  induction xs with
  | nil => cases hx
  | cons y ys ih =>
    cases ys with
    | nil => simp [List.mem_singleton.mp hx]
    | cons z zs =>
      rw [intercalate_map_cons_cons, List.length_append, List.length_cons]
      rcases List.mem_cons.mp hx with rfl | hx
      · omega
      · have hle := ih hx
        omega

/-- Things that are read from their own tokens are read one after the other. -/
theorem readMany_spelled (hclose : close ≠ .comma) (hxs : xs ≠ [])
    (hn : ([Token.comma].intercalate (xs.map spell)).length ≤ n)
    (hone : ∀ x ∈ xs, (spell x).length ≤ n → ∀ rest, one (spell x ++ rest) = some (x, rest))
    (rest : List Token) :
    readMany close one ([Token.comma].intercalate (xs.map spell) ++ close :: rest).length
      ([Token.comma].intercalate (xs.map spell) ++ close :: rest) = some (xs, rest) := by
  refine readMany_intercalate hclose hxs ?_ (fun x hx => ?_) rest
  · have hle := length_le_intercalate spell xs
    rw [List.length_append, List.length_cons]
    omega
  · exact hone x hx (Nat.le_trans (length_spell_le hx) hn)

theorem head?_intercalate (hxs : xs ≠ []) {t : Token}
    (h : ∀ x ∈ xs, ∀ rest, (spell x ++ rest).head? ≠ some t) (rest : List Token) :
    ([Token.comma].intercalate (xs.map spell) ++ rest).head? ≠ some t := by
  cases xs with
  | nil => exact absurd rfl hxs
  | cons x xs =>
    have hx := h x (List.mem_cons_self ..)
    cases xs with
    | nil =>
      rw [intercalate_map_singleton]
      exact hx rest
    | cons y ys =>
      rw [intercalate_map_cons_cons, List.append_assoc]
      exact hx _

end Many

theorem length_tokens_pos (j : Json) : 0 < j.tokens.length := by
  cases j <;> simp [tokens]

/-- No value starts with a closing bracket. -/
theorem head?_tokens (j : Json) (rest : List Token) :
    (j.tokens ++ rest).head? ≠ some .closeArray := by
  cases j <;> simp [tokens]

theorem readValue_tokens {j : Json} {n : Nat} (hn : j.tokens.length ≤ n) (rest : List Token) :
    readValue n (j.tokens ++ rest) = some (j, rest) := by
  obtain ⟨m, rfl⟩ : ∃ m, n = m + 1 := by
    have hpos := length_tokens_pos j
    exact ⟨n - 1, by omega⟩
  induction j using induction_parts generalizing m rest with
  | null =>
    rw [tokens]
    rfl
  | str text =>
    rw [tokens]
    rfl
  | arr items ih =>
    have hitems : ∀ j ∈ items, j.tokens.length ≤ m → ∀ rest,
        readValue m (j.tokens ++ rest) = some (j, rest) := by
      intro j hj hm rest
      have hpos := length_tokens_pos j
      obtain ⟨k, rfl⟩ : ∃ k, m = k + 1 := ⟨m - 1, by omega⟩
      exact ih j hj rest k hm
    rw [tokens, itemTokens_eq] at hn ⊢
    rw [List.cons_append, List.length_cons, List.length_append, List.length_singleton] at hn
    rw [List.cons_append, List.cons_append, List.append_assoc, List.singleton_append]
    rcases eq_or_ne items [] with rfl | hne
    · rfl
    · simp only [readValue]
      rw [if_neg (head?_intercalate hne (fun j _ => head?_tokens j) _),
        readMany_spelled (by decide) hne (by omega) hitems]
      rfl
  | obj members ih =>
    have hmembers : ∀ m' ∈ members, (tokensOfMember m').length ≤ m → ∀ rest,
        readMember (readValue m) (tokensOfMember m' ++ rest) = some (m', rest) := by
      intro x hx hm rest
      rw [tokensOfMember, List.length_cons, List.length_cons] at hm
      obtain ⟨k, rfl⟩ : ∃ k, m = k + 1 := ⟨m - 1, by omega⟩
      rw [tokensOfMember, List.cons_append, List.cons_append, readMember,
        ih x hx rest k (by omega)]
      rfl
    rw [tokens, memberTokens_eq] at hn ⊢
    rw [List.cons_append, List.length_cons, List.length_append, List.length_singleton] at hn
    rw [List.cons_append, List.cons_append, List.append_assoc, List.singleton_append]
    rcases eq_or_ne members [] with rfl | hne
    · rfl
    · simp only [readValue]
      rw [if_neg (head?_intercalate hne (fun x _ rest => by simp [tokensOfMember]) _),
        readMany_spelled (by decide) hne (by omega) hmembers]
      rfl

/-- What is cut into the tokens of a value is read as the value. -/
theorem read?_of_takes {cs : List Char} {j : Json} (h : Takes .outside cs j.tokens .outside) :
    read? (String.ofList cs) = some j := by
  have hscan := h []
  rw [List.append_nil] at hscan
  have hvalue := readValue_tokens (Nat.le_refl j.tokens.length) []
  rw [List.append_nil] at hvalue
  simp only [read?, String.toList_ofList, hscan, scanFrom, Option.map_some, List.append_nil, hvalue]

theorem read?_compact (j : Json) : read? (String.ofList j.compact) = some j :=
  read?_of_takes (takes_compact j)

/-- Blanks behind the indented text do not matter. -/
theorem read?_indented (level : Nat) (j : Json) (blanks : List Char)
    (h : ∀ c ∈ blanks, isSpace c = true) :
    read? (String.ofList (j.indented level ++ blanks)) = some j := by
  apply read?_of_takes
  have htakes := (takes_indented level j).append (takes_spaces h)
  rwa [List.append_nil] at htakes

/-! ## One line

The compact text holds no control character, so no line ends inside it. -/

/-- The test of the characters one by one. -/
theorem toNat_ge_of_all {cs : List Char} (h : (cs.all fun x => 32 ≤ x.toNat) = true) :
    ∀ x ∈ cs, 32 ≤ x.toNat := by
  intro x hx
  exact of_decide_eq_true (List.all_eq_true.mp h x hx)

theorem toNat_ge_of_mem_escape (c : Char) : ∀ x ∈ escape c, 32 ≤ x.toNat := by
  have hhex : ∀ n < 32, ((Quoted.hex 4 n).all fun x => 32 ≤ x.toNat) = true := by decide
  unfold escape
  split_ifs with _ _ _ _ _ _ _ hcontrol
  · exact toNat_ge_of_all rfl
  · exact toNat_ge_of_all rfl
  · exact toNat_ge_of_all rfl
  · exact toNat_ge_of_all rfl
  · exact toNat_ge_of_all rfl
  · exact toNat_ge_of_all rfl
  · exact toNat_ge_of_all rfl
  · refine List.forall_mem_cons.mpr ⟨by decide, List.forall_mem_cons.mpr ⟨by decide, ?_⟩⟩
    exact toNat_ge_of_all (hhex _ hcontrol)
  · simpa using hcontrol

theorem toNat_ge_of_mem_quote (text : String) : ∀ x ∈ quote text, 32 ≤ x.toNat := by
  intro x hx
  rcases List.mem_append.mp hx with hx | hx
  · rcases List.mem_cons.mp hx with rfl | hx
    · decide
    · obtain ⟨c, _, hc⟩ := List.mem_flatMap.mp hx
      exact toNat_ge_of_mem_escape c x hc
  · rw [List.mem_singleton.mp hx]
    decide

theorem toNat_ge_of_mem_compact (j : Json) : ∀ x ∈ j.compact, 32 ≤ x.toNat := by
  have hbetween : ∀ {first last : Char} {cs : List Char}, 32 ≤ first.toNat → 32 ≤ last.toNat →
      (∀ x ∈ cs, 32 ≤ x.toNat) → ∀ x ∈ first :: cs ++ [last], 32 ≤ x.toNat := by
    intro first last cs hfirst hlast hcs
    simpa [or_imp, forall_and] using ⟨hfirst, hcs, hlast⟩
  induction j using induction_parts with
  | null =>
    rw [compact]
    exact toNat_ge_of_all rfl
  | str text =>
    rw [compact]
    exact toNat_ge_of_mem_quote text
  | arr items ih =>
    rw [compact, compactItems_eq]
    exact hbetween (by decide) (by decide) (forall_mem_intercalate (by decide) ih)
  | obj members ih =>
    rw [compact, compactMembers_eq]
    refine hbetween (by decide) (by decide) (forall_mem_intercalate (by decide) fun m hm x hx => ?_)
    rcases List.mem_append.mp hx with hx | hx
    · exact toNat_ge_of_mem_quote m.1 x hx
    · rcases List.mem_cons.mp hx with rfl | hx
      · decide
      · exact ih m hm x hx

theorem newline_not_mem_compact (j : Json) : '\n' ∉ j.compact := by
  intro h
  have hge := toNat_ge_of_mem_compact j _ h
  exact absurd hge (by decide)

end ClassOutline.Json
