import ClassOutline.Inject
import ClassOutline.Proofs.Syntax.Address
import ClassOutline.Proofs.Text.Decoding

/-!
# Where an injection succeeds, and what it returns

The insertion is made in bytes and its result is decoded again. It comes back as
text exactly when the cut falls between two characters, and then the characters
of the source stand on both sides of the new lines. A cut inside a character
leaves its first bytes before a line end, which the decoder reports.
-/

namespace ClassOutline

open Utf8 (encodeChars encodeChar IsBoundary Cuts)

theorem encodeChar_newline : encodeChar '\n' = [newline] := by decide

theorem newline_lt : newline.toNat < 0x80 := by decide

/-! ## The bytes -/

/-- Between two characters the insertion is one of characters. -/
theorem splice_boundary {before after : List Char} {offset : Int}
    (hk : cutPoint offset (encodeChars (before ++ after)).length = (encodeChars before).length)
    (method : List Char) :
    splice (encodeChars (before ++ after)) (encodeChars method) offset =
      encodeChars (before ++ '\n' :: method ++ '\n' :: after) := by
  have hnew : ∀ cs, encodeChars ('\n' :: cs) = newline :: encodeChars cs := by
    intro cs
    rw [encodeChars, List.flatMap_cons, encodeChar_newline]
    rfl
  simp only [splice, hk]
  rw [Utf8.encodeChars_append before after, List.take_left' rfl, List.drop_left' rfl,
    Utf8.encodeChars_append, Utf8.encodeChars_append, hnew, hnew]

/-- Inside a character the bytes before the cut are followed by a line end. -/
theorem splice_cut {cs before after : List Char} {c : Char} {offset : Int} {k : Nat}
    (hk : cutPoint offset (encodeChars cs).length = k) (h : Cuts cs k before c after)
    (inserted : Bytes) :
    ∃ rest, splice (encodeChars cs) inserted offset =
      encodeChars before ++ ((encodeChar c).take (k - (encodeChars before).length) ++
        newline :: rest) := by
  obtain ⟨he, hlt, hgt⟩ := h
  have hbytes : encodeChars cs = encodeChars before ++ (encodeChar c ++ encodeChars after) := by
    simp [he, encodeChars]
  refine ⟨inserted ++ newline :: (encodeChars cs).drop k, ?_⟩
  simp only [splice, hk]
  have htake : (encodeChars cs).take k =
      encodeChars before ++ (encodeChar c).take (k - (encodeChars before).length) := by
    rw [hbytes, List.take_append, List.take_of_length_le (by omega),
      List.take_append_of_le_length (by omega)]
  rw [htake]
  simp only [List.append_assoc, List.cons_append]

/-! ## The injection -/

section Inject

variable {parser : Parser} {text name : String} {nested : Bool} {origin : Option String}
  {span : BodySpan}

theorem inject_eq_decode (hclear : (parser text).label.hasError = false)
    (hspan : Source.locate ⟨parser text, Utf8.encode text, origin⟩ name nested = .ok span)
    (method : String) :
    inject parser text name method nested origin =
      (Utf8.decode (splice (Utf8.encode text) (Utf8.encode method) span.closing)).mapError
        .undecodable := by
  have hpoint : insertionPoint parser text name nested origin =
      .ok (Utf8.encode text, span.closing) := by
    simp [insertionPoint, Source.parse, hclear, hspan, bind, Except.bind, pure, Except.pure]
  simp only [inject, hpoint, bind, Except.bind]
  cases Utf8.decode (splice (Utf8.encode text) (Utf8.encode method) span.closing) <;> rfl

theorem inject_of_boundary (hclear : (parser text).label.hasError = false)
    (hspan : Source.locate ⟨parser text, Utf8.encode text, origin⟩ name nested = .ok span)
    (method : String) {before after : List Char} (htext : text.toList = before ++ after)
    (hk : (encodeChars before).length = cutPoint span.closing (Utf8.encode text).length) :
    inject parser text name method nested origin =
      .ok (String.ofList (before ++ '\n' :: method.toList ++ '\n' :: after)) := by
  rw [inject_eq_decode hclear hspan, Utf8.encode, htext, Utf8.encode]
  rw [Utf8.encode, htext] at hk
  rw [splice_boundary hk.symm, Utf8.decode_encodeChars]
  rfl

theorem inject_of_cut (hclear : (parser text).label.hasError = false)
    (hspan : Source.locate ⟨parser text, Utf8.encode text, origin⟩ name nested = .ok span)
    (method : String) {before after : List Char} {c : Char} {k : Nat}
    (hk : cutPoint span.closing (Utf8.encode text).length = k)
    (h : Cuts text.toList k before c after) :
    inject parser text name method nested origin =
      .error (.undecodable ⟨(encodeChars before).length,
        (encodeChar c).take (k - (encodeChars before).length), .badContinuation⟩) := by
  obtain ⟨rest, hs⟩ := splice_cut hk h (Utf8.encode method)
  obtain ⟨_, hlt, hgt⟩ := h
  rw [inject_eq_decode hclear hspan, Utf8.encode, hs,
    Utf8.decode_cut before (by omega) (by omega) newline_lt]
  rfl

/-- An injection at a located body returns a text exactly when its place `k` is
between two characters of the source. The text is then the source with the two
line ends and the method between its characters before and from `k` on.
Otherwise it fails as undecodable: a continuation byte is missing, and the bytes
reported are those before `k` of the one character that `k` cuts. At a closing
brace it succeeds. -/
theorem inject_iff_between_characters (hclear : (parser text).label.hasError = false)
    (hspan : Source.locate ⟨parser text, Utf8.encode text, origin⟩ name nested = .ok span)
    (method : String) :
    let k := cutPoint span.closing (Utf8.encode text).length
    ((∃ updated, inject parser text name method nested origin = .ok updated) ↔
      IsBoundary text.toList k) ∧
    (∀ before after, text.toList = before ++ after → (encodeChars before).length = k →
      inject parser text name method nested origin =
        .ok (String.ofList (before ++ '\n' :: method.toList ++ '\n' :: after))) ∧
    (¬ IsBoundary text.toList k → ∃ before c after e, Cuts text.toList k before c after ∧
      inject parser text name method nested origin = .error (.undecodable e) ∧
      e.fault.reason = "invalid continuation byte" ∧
      e.position = (encodeChars before).length ∧
      e.run = (encodeChar c).take (k - (encodeChars before).length)) ∧
    ((Utf8.encode text)[k]? = some 0x7D →
      ∃ updated, inject parser text name method nested origin = .ok updated) := by
  intro k
  have hin : ∀ before after, text.toList = before ++ after → (encodeChars before).length = k →
      inject parser text name method nested origin =
        .ok (String.ofList (before ++ '\n' :: method.toList ++ '\n' :: after)) := by
    intro before after htext hk
    exact inject_of_boundary hclear hspan method htext hk
  have hkinds := Utf8.isBoundary_or_cuts text.toList
    (k := k) (cutPoint_le span.closing (Utf8.encode text).length)
  refine ⟨⟨?_, ?_⟩, hin, ?_, ?_⟩
  · rintro ⟨updated, hok⟩
    rcases hkinds with hb | ⟨before, c, after, hc⟩
    · exact hb
    · rw [inject_of_cut hclear hspan method rfl hc] at hok
      cases hok
  · rintro ⟨before, after, htext, hk⟩
    exact ⟨_, hin before after htext hk⟩
  · intro hnot
    obtain ⟨before, c, after, hc⟩ := hkinds.resolve_left hnot
    exact ⟨before, c, after, _, hc, inject_of_cut hclear hspan method rfl hc, rfl, rfl, rfl⟩
  · intro hbrace
    rcases hkinds with ⟨before, after, htext, hk⟩ | ⟨before, c, after, hc⟩
    · exact ⟨_, hin before after htext hk⟩
    · have hge := hc.getElem_ge hbrace
      exact absurd hge (by decide)

end Inject

def accentText : String := "C" ++ braced "é"

/-- The tree of `accentText`, a class `C` around an accented letter. The closing brace is
said to end at `stop`; its own end is 5, and 4 is inside the letter. -/
def accentTree (stop : Nat) : Node :=
  .plain "program" 0 5 none [
    .plain "class_declaration" 0 5 none [
      .plain "identifier" 0 1 (some .name) [],
      .plain "class_body" 1 5 (some .body) [.openingBrace 1,
        .mk ⟨"\x7d", 4, stop, false, false, false, false, none⟩ []]]]

/-- Before the brace the injection succeeds, and inside the letter it reports the
letter's first byte. -/
theorem inject_around_accent :
    (∃ updated, inject (fun _ => accentTree 5) accentText "C" "m" false none = .ok updated) ∧
    ∃ before c after e, Cuts accentText.toList 3 before c after ∧
      inject (fun _ => accentTree 4) accentText "C" "m" false none = .error (.undecodable e) ∧
      e.fault.reason = "invalid continuation byte" ∧ e.position = (encodeChars before).length ∧
      e.run = (encodeChar c).take (3 - (encodeChars before).length) := by
  have hbrace := @inject_iff_between_characters (fun _ => accentTree 5) accentText "C" false
    none ⟨1, 5⟩ rfl rfl "m"
  have hcut := @inject_iff_between_characters (fun _ => accentTree 4) accentText "C" false
    none ⟨1, 4⟩ rfl rfl "m"
  have hfail : inject (fun _ => accentTree 4) accentText "C" "m" false none =
      .error (.undecodable ⟨2, [0xC3], .badContinuation⟩) := rfl
  refine ⟨hbrace.2.2.2 rfl, hcut.2.2.1 fun hb => ?_⟩
  obtain ⟨updated, hok⟩ := hcut.1.mpr hb
  rw [hfail] at hok
  cases hok

end ClassOutline
