import ClassOutline.FileInjection
import ClassOutline.Proofs.FileSystem.RoundTrip
import ClassOutline.Proofs.Injection.Splice

/-!
# Injecting into files is all or nothing

A run that fails leaves the file system as it was and prints nothing. The text is
the same wherever it goes, and so is the failure to build it; what the destination
adds is the writing, which touches one entry. The text is at the path that the target
is resolved to unless a link stood at that entry, which gives way to the file.
-/

namespace ClassOutline

/-- The path that a destination writes to, for an injection into `p`. -/
def Destination.target? (p : Path) : Destination → Option Path
  | .printed => none
  | .file target => some target
  | .inPlace => some p

def printedText : Except Failure Delivery → String
  | .ok (.printed text) => text
  | _ => ""

namespace FileSystem

/-- A text is put in one place, and nothing else changes. -/
structure Puts (fs fs' : FileSystem) (loc : Location) (text : String) : Prop where
  file : ∃ mode, fs'.get? loc = some (.file mode (Utf8.encode text))
  others : ∀ other, other ≠ loc → fs'.get? other = fs.get? other
  staged : fs'.staged = fs.staged
  workingDirectory : fs'.workingDirectory = fs.workingDirectory
  directoryModes : fs'.directoryModes = fs.directoryModes

/-- A text has got to a path: looking up the path afterwards finds the text, which was put
there, and no link gave way to it. -/
def HoldsAt (fs fs' : FileSystem) (r : Path) (text : String) : Prop :=
  ∃ loc mode, fs'.find r = .ok (loc, .file mode (Utf8.encode text)) ∧ Puts fs fs' loc text ∧
    ∀ target, fs.get? loc ≠ some (.link target)

section Write

variable {fs : FileSystem} {settings : Settings} {p r : Path} {modeFrom : Option Path}
  {mode : Nat}

theorem Replaceable.puts (h : fs.Replaceable settings r modeFrom mode) (text : String) :
    Puts fs (fs.put (fs.entryAt r) (.file mode (Utf8.encode text))) (fs.entryAt r) text where
  file := ⟨mode, fs.get?_put_self h.entryAt_ne_nil _⟩
  others _ hother := fs.get?_put_of_ne hother _
  staged := rfl
  workingDirectory := rfl
  directoryModes := rfl

/-- The text that is written gets to the path that was resolved unless a link is replaced. -/
theorem Replaceable.holdsAt_iff (h : fs.Replaceable settings r modeFrom mode) (hs : fs.Sound)
    (hr : fs.resolve p = .ok r) (text : String) :
    HoldsAt fs (fs.put (fs.entryAt r) (.file mode (Utf8.encode text))) r text ↔
      ∀ target, fs.get? (fs.entryAt r) ≠ some (.link target) := by
  constructor
  · rintro ⟨loc, _, _, hputs, hlink⟩
    by_cases hloc : fs.entryAt r = loc
    · rw [hloc]
      exact hlink
    · obtain ⟨_, hfile⟩ := (h.puts text).file
      rw [← hputs.others _ hloc, hfile]
      simp
  · intro hlink
    exact ⟨_, mode, find_put_entryAt hs hr hlink h mode _, h.puts text, hlink⟩

end Write

section Inject

variable (fs : FileSystem) (settings : Settings) (parser : Parser) (p : Path)

/-- An injection that writes fails and changes nothing, or its text was built and put at
the entry of the resolved target. -/
theorem injectInto_cases (target : Path) (i : Injection) :
    (∃ e, fs.injectInto settings parser p target i = (.error e, fs)) ∨
      ∃ text r mode, fs.injectedText parser p i = .ok text ∧ fs.resolve target = .ok r ∧
        fs.Replaceable settings r (some p) mode ∧
        fs.injectInto settings parser p target i =
          (.ok (.written target), fs.put (fs.entryAt r) (.file mode (Utf8.encode text))) := by
  rw [injectInto]
  cases fs.injectedText parser p i with
  | error e => exact Or.inl ⟨e, rfl⟩
  | ok text =>
    rcases fs.writeSource_cases settings target text (some p) with
      ⟨e, he, _⟩ | ⟨r, mode, hr, hok, hrep⟩
    · exact Or.inl ⟨e, by simp only [he]⟩
    · exact Or.inr ⟨text, r, mode, rfl, hr, hrep, by simp only [hok]⟩

theorem runInject_of_target (i : Injection) {destination : Destination} {target : Path}
    (h : destination.target? p = some target) :
    fs.runInject settings parser p i destination = fs.injectInto settings parser p target i := by
  cases destination with
  | printed => cases h
  | file q =>
    obtain rfl : q = target := Option.some.inj h
    rfl
  | inPlace =>
    obtain rfl : p = target := Option.some.inj h
    rfl

theorem injectedText_eq (name method : String) (nested : Bool) :
    fs.injectedText parser p ⟨some name, some method, nested⟩ =
      (fs.readSource p).bind fun text => inject parser text name method nested (some p.text) := rfl

end Inject

theorem Sound.runInject {fs : FileSystem} (hs : fs.Sound) (settings : Settings) (parser : Parser)
    (p : Path) (i : Injection) (destination : Destination) :
    (fs.runInject settings parser p i destination).2.Sound := by
  have hwrites : ∀ target, (fs.injectInto settings parser p target i).2.Sound := by
    intro target
    rcases fs.injectInto_cases settings parser p target i with
      ⟨_, hfail⟩ | ⟨_, _, _, _, _, hrep, hok⟩
    · rwa [hfail]
    · rw [hok]
      exact hrep.sound hs _
  cases destination with
  | printed => exact hs
  | file target => exact hwrites target
  | inPlace => exact hwrites p

/-- Injecting a method into the file at a path, whose new text `built` is or is not:
a run that fails changes nothing and prints nothing; if the text cannot be built, all
destinations fail alike; printing it changes no file; and a run that writes prints
nothing and puts the text at the entry of the resolved target. It has got there exactly if
no link stood at that entry, which is so for a target whose names lead somewhere without
running into a loop of links; and it is read by the target if that could be looked up. -/
theorem runInject_all_or_nothing (fs : FileSystem) (settings : Settings) (parser : Parser)
    (p : Path) (name method : String) (nested : Bool) :
    let built := (fs.readSource p).bind fun text =>
      inject parser text name method nested (some p.text)
    let run := fs.runInject settings parser p ⟨some name, some method, nested⟩
    (∀ destination e, (run destination).1 = .error e →
      (run destination).2 = fs ∧ printedText (run destination).1 = "") ∧
    (∀ e, built = .error e → ∀ destination, run destination = (.error e, fs)) ∧
    (∀ text, built = .ok text → run .printed = (.ok (.printed text), fs) ∧
      printedText (run .printed).1 = text) ∧
    ∀ destination target, destination.target? p = some target →
      ∀ delivery, (run destination).1 = .ok delivery →
        ∃ text r, built = .ok text ∧ delivery = .written target ∧
          printedText (run destination).1 = "" ∧ fs.resolve target = .ok r ∧
          Puts fs (run destination).2 (fs.entryAt r) text ∧
          (fs.Sound →
            (HoldsAt fs (run destination).2 r text ↔
              ∀ next, fs.get? (fs.entryAt r) ≠ some (.link next)) ∧
            (∀ k x, Leads fs (startOf target) target.parts k x →
              HoldsAt fs (run destination).2 r text) ∧
            (∀ place, fs.place target = .ok place →
              ¬ fs.Overlooks (startOf target) target.parts →
                (run destination).2.readSource target = .ok text)) := by
  intro built run
  have hbuilt : fs.injectedText parser p ⟨some name, some method, nested⟩ = built :=
    fs.injectedText_eq parser p name method nested
  have hprinted : run .printed = (built.map .printed, fs) := by
    rw [← hbuilt]
    rfl
  have hwriting : ∀ {destination target}, destination.target? p = some target →
      run destination = fs.injectInto settings parser p target ⟨some name, some method, nested⟩ :=
    fun h => fs.runInject_of_target settings parser p _ h
  have hkinds : ∀ destination : Destination, destination = .printed ∨
      ∃ target, destination.target? p = some target := by
    intro destination
    cases destination with
    | printed => exact Or.inl rfl
    | file target => exact Or.inr ⟨target, rfl⟩
    | inPlace => exact Or.inr ⟨p, rfl⟩
  refine ⟨?_, ?_, ?_, ?_⟩
  · intro destination e he
    refine ⟨?_, by rw [he]; rfl⟩
    rcases hkinds destination with rfl | ⟨target, htarget⟩
    · rw [hprinted]
    · rw [hwriting htarget] at he ⊢
      rcases fs.injectInto_cases settings parser p target ⟨some name, some method, nested⟩ with
        ⟨_, hfail⟩ | ⟨_, _, _, _, _, _, hok⟩
      · rw [hfail]
      · rw [hok] at he
        cases he
  · intro e he destination
    rcases hkinds destination with rfl | ⟨target, htarget⟩
    · rw [hprinted, he]
      rfl
    · rw [hwriting htarget, injectInto, hbuilt, he]
  · intro text htext
    rw [hprinted, htext]
    exact ⟨rfl, rfl⟩
  · intro destination target htarget delivery hdelivery
    rw [hwriting htarget] at hdelivery ⊢
    rcases fs.injectInto_cases settings parser p target ⟨some name, some method, nested⟩ with
      ⟨_, hfail⟩ | ⟨text, r, mode, htext, hr, hrep, hok⟩
    · rw [hfail] at hdelivery
      cases hdelivery
    rw [hok] at hdelivery ⊢
    refine ⟨text, r, hbuilt.symm.trans htext, (Except.ok.inj hdelivery).symm, rfl, hr,
      hrep.puts text, fun hs => ⟨hrep.holdsAt_iff hs hr text, ?_, ?_⟩⟩
    · intro k x hleads
      obtain ⟨hx, hentry, hlink⟩ := resolve_entryAt_of_leads hs hleads
      obtain rfl := Except.ok.inj (hr.symm.trans hx)
      rw [← hentry] at hlink
      exact (hrep.holdsAt_iff hs hr text).mpr hlink
    · intro place hplace hseen
      exact readSource_of_readBytes (readBytes_put hs hseen hr hrep.free hplace mode _)

def linkedFile : FileSystem :=
  ofEntries [(["C.java"], .file 0o640 (Utf8.encode accentText)), (["L"], .link "C.java")]

theorem sound_linkedFile : linkedFile.Sound :=
  sound_of_forall (by simp [linkedFile, ofEntries]) rfl (by decide)

/-- Injecting in place through a link changes the file and keeps the link. -/
theorem inject_in_place_through_link :
    let result := linkedFile.runInject ⟨0, "00000000", by decide⟩ (fun _ => accentTree 5)
      ⟨.relative, ["L"]⟩ ⟨some "C", some "m", false⟩ .inPlace
    result.1 = .ok (.written ⟨.relative, ["L"]⟩) ∧
      result.2.get? ["L"] = some (.link "C.java") ∧
      result.2.readSource ⟨.relative, ["L"]⟩ = .ok ("C" ++ braced "é\nm\n") := by
  intro result
  have hbuilt : (linkedFile.readSource ⟨.relative, ["L"]⟩).bind (fun text =>
      inject (fun _ => accentTree 5) text "C" "m" false (some "L")) =
        .ok ("C" ++ braced "é\nm\n") := by
    decide +kernel
  have hok : result.1 = .ok (.written ⟨.relative, ["L"]⟩) := by decide +kernel
  have hresolve : linkedFile.resolve ⟨.relative, ["L"]⟩ = .ok ⟨.root, ["C.java"]⟩ := by
    decide +kernel
  have hentry : linkedFile.entryAt ⟨.root, ["C.java"]⟩ = ["C.java"] := by decide +kernel
  have hfile : linkedFile.get? ["C.java"] =
      some (.file 0o640 (Utf8.encode accentText)) := rfl
  have hleads : Leads linkedFile (startOf ⟨.relative, ["L"]⟩) ["L"] 1 ⟨.working 0, ["C.java"]⟩ :=
    leads_of_link (by decide) (by decide +kernel) (by decide) (by decide) fun next h => by
      rw [show linkedFile.locate _ = ["C.java"] from rfl, hfile] at h
      cases h
  have hplace : linkedFile.place ⟨.relative, ["L"]⟩ =
      .ok (.present ["C.java"] (.file 0o640 (Utf8.encode accentText))) := by
    decide +kernel
  obtain ⟨_, _, _, hwrites⟩ := runInject_all_or_nothing linkedFile ⟨0, "00000000", by decide⟩
    (fun _ => accentTree 5) ⟨.relative, ["L"]⟩ "C" "m" false
  obtain ⟨text, r, htext, _, _, hr, hputs, hheld⟩ := hwrites .inPlace _ rfl _ hok
  obtain rfl : "C" ++ braced "é\nm\n" = text := Except.ok.inj (hbuilt.symm.trans htext)
  obtain rfl : ⟨.root, ["C.java"]⟩ = r := Except.ok.inj (hresolve.symm.trans hr)
  rw [hentry] at hputs
  exact ⟨hok, hputs.others ["L"] (by decide),
    (hheld sound_linkedFile).2.2 _ hplace hleads.not_overlooks⟩

/-- Behind a loop of links that is left through `..`, the text takes the place of the link
`d/e` on the way to its target, and has not got to the path that the target is resolved
to: that cannot be looked up any more. -/
theorem injected_behind_loop :
    let fs := tangledLinks.put ["C.java"] (.file 0o640 (Utf8.encode accentText))
    let result := fs.runInject ⟨0o022, "00000000", by decide⟩ (fun _ => accentTree 5)
      ⟨.relative, ["C.java"]⟩ ⟨some "C", some "m", false⟩
      (.file ⟨.relative, ["loop", "..", "l", "e"]⟩)
    fs.Sound ∧ result.1 = .ok (.written ⟨.relative, ["loop", "..", "l", "e"]⟩) ∧
      fs.resolve ⟨.relative, ["loop", "..", "l", "e"]⟩ = .ok ⟨.root, ["l", "e"]⟩ ∧
      fs.get? ["d", "e"] = some (.link "s") ∧
      result.2.get? ["d", "e"] =
        some (.file 0o755 (Utf8.encode ("C" ++ braced "é\nm\n"))) ∧
      ∀ text, ¬ HoldsAt fs result.2 ⟨.root, ["l", "e"]⟩ text := by
  intro fs result
  have hfind : result.2.find ⟨.root, ["l", "e"]⟩ = .error .notDirectory := by decide +kernel
  refine ⟨sound_of_forall (by decide) rfl (by decide), by decide +kernel, by decide +kernel,
    rfl, by decide +kernel, ?_⟩
  rintro text ⟨loc, mode, hfound, _⟩
  rw [hfind] at hfound
  cases hfound

end FileSystem

end ClassOutline
