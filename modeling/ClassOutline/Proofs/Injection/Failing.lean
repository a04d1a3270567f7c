import ClassOutline.Proofs.FileSystem.Listing
import ClassOutline.Proofs.FileSystem.RoundTrip
import ClassOutline.Proofs.Injection.Delivery

/-!
# How an injection fails

An injection fails to build its text or to write it, and is delivered otherwise. Most
of its failures are failures of the source at hand; the others are told apart here.
-/

namespace ClassOutline

namespace FileSystem

section Inject

variable {fs : FileSystem} {settings : Settings} {parser : Parser} {p target : Path}
  {i : Injection} {destination : Destination}

theorem parse_error {text : String} {strict : Bool} {origin : Option String} {f : Failure}
    (h : Source.parse parser text strict origin = .error f) : ∃ e, f = .source e := by
  rw [Source.parse] at h
  split at h
  · exact ⟨_, (Except.error.inj h).symm⟩
  · cases h

theorem insertionPoint_error {text name : String} {nested : Bool} {origin : Option String}
    {f : Failure} (h : insertionPoint parser text name nested origin = .error f) :
    ∃ e, f = .source e := by
  rw [insertionPoint, bind_eq_error_iff] at h
  rcases h with hparse | ⟨s, _, h⟩
  · exact parse_error hparse
  · rcases bind_eq_error_iff.mp h with hlocate | ⟨_, _, h⟩
    · rw [Source.locate] at hlocate
      split at hlocate
      · exact ⟨_, (Except.error.inj hlocate).symm⟩
      · split at hlocate
        · cases hlocate
        · exact ⟨_, (Except.error.inj hlocate).symm⟩
    · cases h

/-- Why a text cannot be built: a failure of the source, no method text at all, or an
offset inside a character. Without the name of a class it is a failure of the source. -/
theorem injectedText_error {f : Failure} (h : fs.injectedText parser p i = .error f) :
    (∃ e, f = .source e) ∨ (i.className ≠ none ∧ i.method = none ∧ f = .noMethodText) ∨
      ∃ method e, i.className ≠ none ∧ i.method = some method ∧ f = .undecodable e := by
  obtain ⟨className, method, nested⟩ := i
  rw [injectedText, bind_eq_error_iff] at h
  rcases h with hread | ⟨text, _, h⟩
  · obtain ⟨reason, rfl⟩ := readSource_error hread
    exact Or.inl ⟨_, rfl⟩
  cases className with
  | none =>
    rcases bind_eq_error_iff.mp h with hparse | ⟨_, _, h⟩
    · exact Or.inl (parse_error hparse)
    · exact Or.inl ⟨_, (Except.error.inj h).symm⟩
  | some name =>
    cases method with
    | none =>
      rcases bind_eq_error_iff.mp h with hpoint | ⟨_, _, h⟩
      · exact Or.inl (insertionPoint_error hpoint)
      · exact Or.inr (Or.inl ⟨by simp, rfl, (Except.error.inj h).symm⟩)
    | some method =>
      simp only [inject] at h
      rcases bind_eq_error_iff.mp h with hpoint | ⟨point, _, h⟩
      · exact Or.inl (insertionPoint_error hpoint)
      · split at h
        · cases h
        · exact Or.inr (Or.inr ⟨method, _, by simp, rfl, (Except.error.inj h).symm⟩)

theorem writeSource_error {text : String} {modeFrom : Option Path} {f : Failure}
    (h : (fs.writeSource settings target text modeFrom).1 = .error f) :
    fs.resolve target = .error f ∨ ∃ e, f = .source e := by
  rw [writeSource] at h
  split at h
  · rename_i e he
    obtain rfl : e = f := Except.error.inj h
    exact Or.inl he
  · split at h
    · exact Or.inr ⟨_, (Except.error.inj h).symm⟩
    · cases h

theorem runInject_of_text_error {f : Failure} (h : fs.injectedText parser p i = .error f) :
    fs.runInject settings parser p i destination = (.error f, fs) := by
  cases destination with
  | printed =>
    rw [runInject, h]
    rfl
  | file q => rw [runInject, injectInto, h]
  | inPlace => rw [runInject, injectInto, h]

theorem runInject_of_write_error {text : String} {f : Failure}
    (h : fs.injectedText parser p i = .ok text) (htarget : destination.target? p = some target)
    (hwrite : (fs.writeSource settings target text (some p)).1 = .error f) :
    fs.runInject settings parser p i destination = (.error f, fs) := by
  rcases fs.writeSource_cases settings target text (some p) with ⟨e, he, _⟩ | ⟨_, _, _, hok, _⟩
  · obtain rfl : e = f := by
      rw [he] at hwrite
      exact Except.error.inj hwrite
    rw [fs.runInject_of_target settings parser p i htarget, injectInto, h]
    simp only [he]
  · rw [hok] at hwrite
    cases hwrite

/-- An injection fails to build the text, fails to write it, or delivers it. -/
theorem runInject_cases (fs : FileSystem) (settings : Settings) (parser : Parser) (p : Path)
    (i : Injection) (destination : Destination) :
    (∃ f, fs.injectedText parser p i = .error f) ∨
      (∃ text target f, fs.injectedText parser p i = .ok text ∧
        destination.target? p = some target ∧
        (fs.writeSource settings target text (some p)).1 = .error f) ∨
      ∃ delivery fs', fs.runInject settings parser p i destination = (.ok delivery, fs') := by
  cases htext : fs.injectedText parser p i with
  | error f => exact Or.inl ⟨f, rfl⟩
  | ok text =>
    right
    cases htarget : destination.target? p with
    | none =>
      cases destination with
      | printed => exact Or.inr ⟨_, _, by rw [runInject, htext]; rfl⟩
      | file => cases htarget
      | inPlace => cases htarget
    | some target =>
      rcases hwrite : fs.writeSource settings target text (some p) with ⟨result, fs'⟩
      cases result with
      | error f => exact Or.inl ⟨text, target, f, rfl, rfl, by rw [hwrite]⟩
      | ok =>
        refine Or.inr ⟨.written target, fs', ?_⟩
        rw [fs.runInject_of_target settings parser p i htarget, injectInto, htext]
        simp only [hwrite]

end Inject

end FileSystem

end ClassOutline
