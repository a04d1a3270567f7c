import ClassOutline.Failure
import Mathlib.Algebra.Group.Nat.Defs

/-!
# Quoted texts can be told apart

Whatever a text holds, its quoted form is printable, so it stays on one line. And it gives
the text away, whatever follows it: a character is read back from the way it is written, and
nothing that is written starts with the quote. So do lists of quoted texts.
-/

namespace ClassOutline

theorem Printable.isPrintable_of_ascii {c : Char} (h : 0x20 ≤ c.toNat ∧ c.toNat ≤ 0x7E) :
    isPrintable c = true := by
  have hranges : ∀ r ∈ hiddenRanges, r.2 < 0x20 ∨ 0x7E < r.1 := by decide +kernel
  rw [isPrintable, Bool.not_eq_true', List.any_eq_false]
  intro r hr hin
  have hin : r.1 ≤ c.toNat ∧ c.toNat ≤ r.2 := by simpa using hin
  have hout := hranges r hr
  omega

theorem Printable.isPrintable_of_all_ascii {cs : List Char}
    (h : (cs.all fun c => 0x20 ≤ c.toNat && c.toNat ≤ 0x7E) = true) :
    ∀ c ∈ cs, isPrintable c = true := by
  intro c hc
  have hrange := List.all_eq_true.mp h c hc
  exact isPrintable_of_ascii (by simpa using hrange)

namespace Quoted

/-! ## Hexadecimal numbers -/

def digitValue (c : Char) : Nat :=
  if c.toNat < 58 then c.toNat - 48 else c.toNat - 87

def hexValue (digits : List Char) : Nat :=
  digits.foldl (fun n c => 16 * n + digitValue c) 0

theorem digitValue_digitChar : ∀ d < 16, digitValue (Nat.digitChar d) = d := by decide

theorem hexValue_toDigits (n : Nat) : hexValue (Nat.toDigits 16 n) = n := by
  induction n using Nat.strongRecOn with
  | ind n ih =>
    rw [Nat.toDigits_eq_if (by decide)]
    split
    · rename_i h
      simp [hexValue, digitValue_digitChar n h]
    · have hlead := ih (n / 16) (by omega)
      have hlast := digitValue_digitChar (n % 16) (Nat.mod_lt _ (by decide))
      rw [hexValue] at hlead ⊢
      rw [List.foldl_append, hlead, List.foldl_cons, List.foldl_nil, hlast]
      omega

theorem hexValue_hex (width n : Nat) : hexValue (hex width n) = n := by
  have hzeros : ∀ k, (List.replicate k '0').foldl (fun n c => 16 * n + digitValue c) 0 = 0 := by
    intro k
    induction k with
    | zero => rfl
    | succ k ih => rwa [List.replicate_succ, List.foldl_cons]
  have hdigits := hexValue_toDigits n
  rw [hexValue] at hdigits ⊢
  rw [hex, List.foldl_append, hzeros, hdigits]

theorem length_hex {width n : Nat} (hwidth : 0 < width) (h : n < 16 ^ width) :
    (hex width n).length = width := by
  have hlength := (Nat.length_toDigits_le_iff (by decide) hwidth).mpr h
  rw [hex, List.length_append, List.length_replicate]
  omega

theorem exists_digitChar_of_mem_toDigits {n : Nat} :
    ∀ c ∈ Nat.toDigits 16 n, ∃ d < 16, c = Nat.digitChar d := by
  induction n using Nat.strongRecOn with
  | ind n ih =>
    intro c hc
    rw [Nat.toDigits_eq_if (by decide)] at hc
    split at hc
    · rename_i h
      exact ⟨n, h, List.mem_singleton.mp hc⟩
    · rcases List.mem_append.mp hc with hc | hc
      · exact ih (n / 16) (by omega) c hc
      · exact ⟨n % 16, Nat.mod_lt _ (by decide), List.mem_singleton.mp hc⟩

theorem isPrintable_of_mem_hex {width n : Nat} :
    ∀ c ∈ hex width n, Printable.isPrintable c = true := by
  have hascii : ∀ d < 16,
      0x20 ≤ (Nat.digitChar d).toNat ∧ (Nat.digitChar d).toNat ≤ 0x7E := by decide
  have hdigit : ∀ d < 16, Printable.isPrintable (Nat.digitChar d) = true :=
    fun d hd => Printable.isPrintable_of_ascii (hascii d hd)
  intro c hc
  rcases List.mem_append.mp hc with hc | hc
  · rw [List.eq_of_mem_replicate hc]
    exact hdigit 0 (by decide)
  · obtain ⟨d, hd, rfl⟩ := exists_digitChar_of_mem_toDigits c hc
    exact hdigit d hd

/-! ## One character -/

/-- Number of digits that stand behind a backslash and a letter. -/
def digitsAfter (c : Char) : Nat :=
  if c = 'x' then 2 else if c = 'u' then 4 else if c = 'U' then 8 else 0

/-- The character that is written by a backslash, a letter and digits. -/
def unescape (c : Char) (digits : List Char) : Char :=
  if c = 't' then '\t'
  else if c = 'n' then '\n'
  else if c = 'r' then '\r'
  else if digitsAfter c = 0 then c
  else Char.ofNat (hexValue digits)

/-- Reads the first character of what is written between quotes. -/
def readChar? : List Char → Option (Char × List Char)
  | '\\' :: c :: rest => some (unescape c (rest.take (digitsAfter c)), rest.drop (digitsAfter c))
  | c :: rest => some (c, rest)
  | [] => none

def IsQuote (q : Char) : Prop :=
  q = '\'' ∨ q = '"'

theorem isQuote_quoteFor (cs : List Char) : IsQuote (quoteFor cs) := by
  rw [quoteFor]
  split
  · exact Or.inr rfl
  · exact Or.inl rfl

section Escape

variable {q : Char} (hq : IsQuote q)

theorem readChar?_of_ne {c : Char} (h : c ≠ '\\') (rest : List Char) :
    readChar? (c :: rest) = some (c, rest) := by
  rw [readChar?.eq_def]
  split <;> simp_all

/-- A number behind a letter, with as many digits as the letter asks for. -/
theorem readChar?_number {letter c : Char} {width : Nat} (hletter : digitsAfter letter = width)
    (hplain : letter ≠ 't' ∧ letter ≠ 'n' ∧ letter ≠ 'r') (hwidth : 0 < width)
    (h : c.toNat < 16 ^ width) (rest : List Char) :
    readChar? ('\\' :: letter :: (hex width c.toNat ++ rest)) = some (c, rest) := by
  have hlength := length_hex hwidth h
  have hnonzero : digitsAfter letter ≠ 0 := by omega
  rw [readChar?, hletter, List.take_left' hlength, List.drop_left' hlength, unescape,
    if_neg hplain.1, if_neg hplain.2.1, if_neg hplain.2.2, if_neg hnonzero, hexValue_hex,
    Char.ofNat_toNat]

/-- What is written for the quote and for the backslash. -/
theorem escape_self {c : Char} (h : c = q ∨ c = '\\') : escape q c = ['\\', c] := by
  rw [escape, if_pos (by simpa using h)]

include hq in
/-- A character is read back from the way it is written, whatever follows. -/
theorem readChar?_escape (c : Char) (rest : List Char) :
    readChar? (escape q c ++ rest) = some (c, rest) := by
  by_cases hself : c = q ∨ c = '\\'
  · rw [escape_self hself]
    rcases hself with rfl | rfl
    · rcases hq with rfl | rfl <;> rfl
    · rfl
  have hplain : c ≠ '\\' := fun h => hself (Or.inr h)
  rw [escape, if_neg (by simpa using hself)]
  split
  · rename_i h
    rw [h]
    rfl
  split
  · rename_i h
    rw [h]
    rfl
  split
  · rename_i h
    rw [h]
    rfl
  split
  · exact readChar?_of_ne hplain rest
  split
  · exact readChar?_number rfl (by decide) (by decide) ‹_› rest
  split
  · exact readChar?_number rfl (by decide) (by decide) ‹_› rest
  · have hsmall : c.toNat < 16 ^ 8 := Nat.lt_of_lt_of_eq c.val.toNat_lt (by decide)
    exact readChar?_number rfl (by decide) (by decide) hsmall rest

include hq in
/-- Nothing is written that starts with the quote. -/
theorem escape_append_ne (c : Char) (rest ys : List Char) : escape q c ++ rest ≠ q :: ys := by
  intro h
  have hread := readChar?_escape hq c rest
  have hquote : q ≠ '\\' := by rcases hq with rfl | rfl <;> decide
  rw [h, readChar?_of_ne hquote] at hread
  obtain ⟨rfl, rfl⟩ := Prod.mk.inj (Option.some.inj hread)
  rw [escape_self (Or.inl rfl)] at h
  exact hquote (List.cons.inj h).1.symm

include hq in
/-- Characters between quotes give themselves away, whatever follows the last quote. -/
theorem flatMap_escape_inj {cs ds xs ys : List Char}
    (h : cs.flatMap (escape q) ++ q :: xs = ds.flatMap (escape q) ++ q :: ys) :
    cs = ds ∧ xs = ys := by
  induction cs generalizing ds with
  | nil =>
    cases ds with
    | nil => exact ⟨rfl, (List.cons.inj h).2⟩
    | cons d ds =>
      rw [List.flatMap_cons, List.append_assoc] at h
      exact absurd h.symm (escape_append_ne hq d _ _)
  | cons c cs ih =>
    rw [List.flatMap_cons, List.append_assoc] at h
    cases ds with
    | nil => exact absurd h (escape_append_ne hq c _ _)
    | cons d ds =>
      rw [List.flatMap_cons, List.append_assoc] at h
      have hread := congrArg readChar? h
      rw [readChar?_escape hq, readChar?_escape hq] at hread
      obtain ⟨rfl, hrest⟩ := Prod.mk.inj (Option.some.inj hread)
      obtain ⟨rfl, hxs⟩ := ih hrest
      exact ⟨rfl, hxs⟩

include hq in
theorem isPrintable_of_mem_escape (c : Char) :
    ∀ x ∈ escape q c, Printable.isPrintable x = true := by
  have hletters : ∀ x ∈ ['\\', '\'', '"', 't', 'n', 'r', 'x', 'u', 'U'],
      Printable.isPrintable x = true := Printable.isPrintable_of_all_ascii (by decide)
  have hpair : ∀ {letter : Char}, Printable.isPrintable letter = true →
      ∀ x ∈ ['\\', letter], Printable.isPrintable x = true := by
    intro letter hletter
    exact List.forall_mem_cons.mpr
      ⟨hletters _ (by decide), List.forall_mem_singleton.mpr hletter⟩
  have hnumber : ∀ {letter : Char} {width : Nat}, Printable.isPrintable letter = true →
      ∀ x ∈ '\\' :: letter :: hex width c.toNat, Printable.isPrintable x = true := by
    intro letter width hletter
    exact List.forall_mem_cons.mpr ⟨hletters _ (by decide),
      List.forall_mem_cons.mpr ⟨hletter, isPrintable_of_mem_hex⟩⟩
  by_cases hself : c = q ∨ c = '\\'
  · rw [escape_self hself]
    refine hpair ?_
    rcases hself with rfl | rfl
    · rcases hq with rfl | rfl <;> exact hletters _ (by decide)
    · exact hletters _ (by decide)
  rw [escape, if_neg (by simpa using hself)]
  split
  · exact hpair (hletters _ (by decide))
  split
  · exact hpair (hletters _ (by decide))
  split
  · exact hpair (hletters _ (by decide))
  split
  · exact List.forall_mem_singleton.mpr ‹_›
  split
  · exact hnumber (hletters _ (by decide))
  split
  · exact hnumber (hletters _ (by decide))
  · exact hnumber (hletters _ (by decide))

end Escape

/-! ## Whole texts -/

theorem toList_quote (text : String) : (quote text).toList =
    quoteFor text.toList ::
      (text.toList.flatMap (escape (quoteFor text.toList)) ++ [quoteFor text.toList]) :=
  String.toList_ofList

/-- A quoted text gives the text away, whatever follows it. -/
theorem quote_append_inj {s t : String} {xs ys : List Char}
    (h : (quote s).toList ++ xs = (quote t).toList ++ ys) : s = t ∧ xs = ys := by
  rw [toList_quote, toList_quote, List.cons_append, List.cons_append, List.append_assoc,
    List.append_assoc] at h
  obtain ⟨hquote, h⟩ := List.cons.inj h
  rw [hquote] at h
  obtain ⟨hchars, hrest⟩ := flatMap_escape_inj (isQuote_quoteFor _) h
  exact ⟨String.toList_inj.mp hchars, hrest⟩

theorem quote_injective : Function.Injective quote := by
  intro s t h
  exact (@quote_append_inj s t [] [] (by rw [h])).1

theorem isPrintable_of_mem_quote (text : String) :
    ∀ c ∈ (quote text).toList, Printable.isPrintable c = true := by
  have hquote := isQuote_quoteFor text.toList
  have hself : Printable.isPrintable (quoteFor text.toList) = true := by
    apply Printable.isPrintable_of_ascii
    rcases hquote with h | h <;> rw [h] <;> decide
  intro c hc
  rw [toList_quote] at hc
  rcases List.mem_cons.mp hc with rfl | hc
  · exact hself
  rcases List.mem_append.mp hc with hc | hc
  · obtain ⟨x, _, hx⟩ := List.mem_flatMap.mp hc
    exact isPrintable_of_mem_escape hquote x c hx
  · rwa [List.mem_singleton.mp hc]

/-! ## Lists of texts -/

/-- The first text of a list stands alone, every other one behind a comma and a space. -/
theorem toList_intercalate_quote (t : String) (ts : List String) :
    (", ".intercalate ((t :: ts).map quote)).toList =
      (quote t).toList ++ ts.flatMap fun s => ',' :: ' ' :: (quote s).toList := by
  induction ts generalizing t with
  | nil =>
    rw [List.map_singleton, String.intercalate_singleton, List.flatMap_nil, List.append_nil]
  | cons s ts ih =>
    have hcomma : ", ".toList = [',', ' '] := rfl
    have hrest := ih s
    rw [List.map_cons] at hrest
    rw [List.map_cons, List.map_cons, String.intercalate_cons_cons, String.toList_append,
      String.toList_append, hrest, hcomma, List.flatMap_cons, List.append_assoc, List.cons_append,
      List.cons_append, List.nil_append, List.cons_append, List.cons_append]

/-- The texts after the first one give themselves away, up to the bracket. -/
theorem flatMap_quote_inj {ss ts : List String} {xs ys : List Char}
    (h : (ss.flatMap fun s => ',' :: ' ' :: (quote s).toList) ++ ']' :: xs =
      (ts.flatMap fun s => ',' :: ' ' :: (quote s).toList) ++ ']' :: ys) : ss = ts ∧ xs = ys := by
  induction ss generalizing ts with
  | nil =>
    cases ts with
    | nil => exact ⟨rfl, (List.cons.inj h).2⟩
    | cons t ts => cases (List.cons.inj h).1
  | cons s ss ih =>
    cases ts with
    | nil => cases (List.cons.inj h).1
    | cons t ts =>
      rw [List.flatMap_cons, List.flatMap_cons, List.append_assoc, List.append_assoc] at h
      obtain ⟨rfl, hrest⟩ := quote_append_inj (List.cons.inj (List.cons.inj h).2).2
      obtain ⟨rfl, hxs⟩ := ih hrest
      exact ⟨rfl, hxs⟩

theorem toList_quoteList (texts : List String) :
    (quoteList texts).toList = '[' :: ((", ".intercalate (texts.map quote)).toList ++ [']']) := by
  rw [quoteList, String.toList_append, String.toList_append]
  rfl

/-- A list of quoted texts gives the texts away, whatever follows it. -/
theorem quoteList_append_inj {ss ts : List String} {xs ys : List Char}
    (h : (quoteList ss).toList ++ xs = (quoteList ts).toList ++ ys) : ss = ts ∧ xs = ys := by
  have hquote : ∀ (t : String) (rest zs : List Char), (quote t).toList ++ rest ≠ ']' :: zs := by
    intro t rest zs he
    rw [toList_quote] at he
    have hbracket := (List.cons.inj he).1
    rcases isQuote_quoteFor t.toList with hq | hq <;> simp [hq] at hbracket
  rw [toList_quoteList, toList_quoteList, List.cons_append, List.cons_append, List.append_assoc,
    List.append_assoc] at h
  replace h := (List.cons.inj h).2
  cases ss with
  | nil =>
    cases ts with
    | nil => exact ⟨rfl, (List.cons.inj h).2⟩
    | cons t ts =>
      rw [toList_intercalate_quote, List.append_assoc] at h
      exact absurd h.symm (hquote t _ _)
  | cons s ss =>
    rw [toList_intercalate_quote, List.append_assoc] at h
    cases ts with
    | nil => exact absurd h (hquote s _ _)
    | cons t ts =>
      rw [toList_intercalate_quote, List.append_assoc] at h
      obtain ⟨rfl, hrest⟩ := quote_append_inj h
      obtain ⟨rfl, hxs⟩ := flatMap_quote_inj hrest
      exact ⟨rfl, hxs⟩

theorem isPrintable_of_mem_quoteList (texts : List String) :
    ∀ c ∈ (quoteList texts).toList, Printable.isPrintable c = true := by
  intro c hc
  rw [toList_quoteList] at hc
  rcases List.mem_cons.mp hc with rfl | hc
  · exact Printable.isPrintable_of_ascii (by decide)
  rcases List.mem_append.mp hc with hc | hc
  · cases texts with
    | nil => cases hc
    | cons t ts =>
      rw [toList_intercalate_quote] at hc
      rcases List.mem_append.mp hc with hc | hc
      · exact isPrintable_of_mem_quote t c hc
      obtain ⟨s, _, hs⟩ := List.mem_flatMap.mp hc
      rcases List.mem_cons.mp hs with rfl | hs
      · exact Printable.isPrintable_of_ascii (by decide)
      rcases List.mem_cons.mp hs with rfl | hs
      · exact Printable.isPrintable_of_ascii (by decide)
      · exact isPrintable_of_mem_quote s c hs
  · rw [List.mem_singleton.mp hc]
    exact Printable.isPrintable_of_ascii (by decide)

end Quoted

/-! ## Refusals -/

/-- What is said about a refused request is one line, whatever path it was made for. -/
theorem OsError.isPrintable_of_mem_message (e : OsError) :
    ∀ c ∈ e.message.toList, Printable.isPrintable c = true := by
  have hcause : ∀ cause : OsCause, ∀ c ∈
      ("[Errno " ++ toString cause.number ++ "] " ++ cause.words ++ ": ").toList,
      Printable.isPrintable c = true := by
    intro cause
    apply Printable.isPrintable_of_all_ascii
    cases cause <;> decide +kernel
  have harrow : ∀ c ∈ " -> ".toList, Printable.isPrintable c = true :=
    Printable.isPrintable_of_all_ascii (by decide +kernel)
  intro c hc
  rw [OsError.message, String.toList_append] at hc
  rcases List.mem_append.mp hc with hc | hc
  · exact hcause e.cause c hc
  cases htarget : e.target with
  | none =>
    rw [htarget] at hc
    exact Quoted.isPrintable_of_mem_quote e.path c hc
  | some target =>
    rw [htarget] at hc
    simp only [String.toList_append] at hc
    rcases List.mem_append.mp hc with hc | hc
    · rcases List.mem_append.mp hc with hc | hc
      · exact Quoted.isPrintable_of_mem_quote e.path c hc
      · exact harrow c hc
    · exact Quoted.isPrintable_of_mem_quote target c hc

end ClassOutline
