import ClassOutline.CommandLine.Run
import ClassOutline.Proofs.Injection.Failing
import ClassOutline.Proofs.Scan.Records

/-!
# How a command line ends

A command line stops before anything is run, or its run ends with the exit code 0, 1
or 2, or a failure escapes. `Lacks` says when the code is 2 and `Reports` when it is 1, if
the console shows the message; `Escapes` lists the failures that escape before anything is
changed, and `Unannounced` those of a run that has done its work and cannot say so. There
are no others. Whatever is neither code 0 nor unannounced leaves the file system as it was.
However a run ends, the entries of the file system stand in directories as before
(`sound_run`), so what holds of every run of a sound file system holds of one run after another.
-/

namespace ClassOutline

namespace CommandLine

open FileSystem

/-! ## Ways to end -/

def Request.input : Request → String
  | .scan r => r.root
  | .inject r => r.file

def missingLine (p : Path) : Request → Shown
  | .scan _ => errorLine ("Source root not found: " ++ p.text)
  | .inject _ => errorLine ("Source file not found: " ++ p.text)

structure Opens (fs : FileSystem) (r : ScanRequest) (root : Path) : Prop where
  resolved : fs.resolve (Path.ofText r.root) = .ok root
  directory : fs.isDirectory root = true

structure Reads (fs : FileSystem) (r : InjectRequest) (p : Path) : Prop where
  resolved : fs.resolve (Path.ofText r.file) = .ok p
  file : fs.isFile p = .ok true

def newText (fs : FileSystem) (parser : Parser) (r : InjectRequest) (p : Path)
    (method : Option String) : Except Failure String :=
  fs.injectedText parser p ⟨r.className, method, r.nested⟩

/-- The input of a request is not what it has to be: a directory for a scan, a file for
an injection. -/
inductive Lacks (fs : FileSystem) : Request → Path → Prop where
  | directory {r : ScanRequest} {root : Path}
      (hresolve : fs.resolve (Path.ofText r.root) = .ok root)
      (hlong : fs.find root ≠ .error .nameTooLong) (hdir : fs.isDirectory root = false) :
      Lacks fs (.scan r) root
  | file {r : InjectRequest} {p : Path} (hresolve : fs.resolve (Path.ofText r.file) = .ok p)
      (hfile : fs.isFile p = .ok false) : Lacks fs (.inject r) p

section Ends

variable (fs : FileSystem) (host : Host) (settings : Settings) (parser : Parser)

/-- A failure of the source that an injection reports: of reading the method file, of
building the new text, or of writing it. -/
inductive Reports (r : InjectRequest) : StructureError → Prop where
  | method {p : Path} {name : String} {e : StructureError} (hr : Reads fs r p)
      (hname : r.methodFile = some name)
      (h : fs.readSource (Path.ofText name) = .error (.source e)) : Reports r e
  | text {p : Path} {method : Option String} {e : StructureError} (hr : Reads fs r p)
      (hmethod : methodText fs r = .ok method)
      (h : newText fs parser r p method = .error (.source e)) : Reports r e
  | write {p target : Path} {method : Option String} {text : String} {e : StructureError}
      (hr : Reads fs r p) (hmethod : methodText fs r = .ok method)
      (htext : newText fs parser r p method = .ok text)
      (htarget : (destinationOf r).target? p = some target)
      (h : (fs.writeSource settings target text (some p)).1 = .error (.source e)) : Reports r e

/-- The failures that escape a run and leave everything as it was. -/
inductive Escapes : Request → Failure → Prop where
  /-- Resolving the input finds a loop of links. -/
  | loop {request : Request} {f : Failure}
      (h : fs.resolve (Path.ofText request.input) = .error f) : Escapes request f
  /-- The input leads to a name that is too long, or has too long a path. -/
  | long {request : Request} {p : Path}
      (hresolve : fs.resolve (Path.ofText request.input) = .ok p)
      (h : fs.find p = .error .nameTooLong) :
      Escapes request (.refused ⟨.nameTooLong, p.text, none⟩)
  | missing {request : Request} {p : Path} {f : Failure} (hlacks : Lacks fs request p)
      (h : host.display (missingLine p request) = .error f) : Escapes request f
  /-- What a scan is about to do cannot be shown. -/
  | panel {r : ScanRequest} {root : Path} {f : Failure} (hr : Opens fs r root)
      (h : host.display (scanPanel root r) = .error f) : Escapes (.scan r) f
  | listing {r : ScanRequest} {root : Path} {seen : String} {e : OsError} (hr : Opens fs r root)
      (hpanel : host.display (scanPanel root r) = .ok seen)
      (h : fs.listFiles root r.taken = .error e) : Escapes (.scan r) (.refused e)
  /-- A scan lacks workers, or what it shows on the way cannot be shown. -/
  | stalled {r : ScanRequest} {root : Path} {seen : String} {paths : List Path} {f : Failure}
      (hr : Opens fs r root) (hpanel : host.display (scanPanel root r) = .ok seen)
      (hlist : fs.listFiles root r.taken = .ok paths)
      (h : fs.Stalls host parser r.jobs paths f) : Escapes (.scan r) f
  | output {r : ScanRequest} {root q : Path} {seen : String} {paths : List Path}
      {shown : List Record × String} {cause : OsCause} (hr : Opens fs r root)
      (hpanel : host.display (scanPanel root r) = .ok seen)
      (hlist : fs.listFiles root r.taken = .ok paths)
      (hshown : fs.scanShown host parser r.jobs paths = .ok shown) (hout : r.output = some q)
      (h : fs.Unwritable q cause) : Escapes (.scan r) (.refused ⟨cause, q.text, none⟩)
  /-- There is no method text, which a method file with an empty name leads to. -/
  | noMethod {r : InjectRequest} {p : Path} (hr : Reads fs r p) (hmethod : r.method = none)
      (hfile : r.methodFile = none) (h : newText fs parser r p none = .error .noMethodText) :
      Escapes (.inject r) .noMethodText
  /-- The place for the method is inside a character. -/
  | cut {r : InjectRequest} {p : Path} {method : String} {e : Utf8.DecodeError}
      (hr : Reads fs r p) (hmethod : methodText fs r = .ok (some method))
      (h : newText fs parser r p (some method) = .error (.undecodable e)) :
      Escapes (.inject r) (.undecodable e)
  /-- Resolving the target of an injection finds a loop of links. -/
  | target {r : InjectRequest} {p target : Path} {method : Option String} {text : String}
      {f : Failure} (hr : Reads fs r p) (hmethod : methodText fs r = .ok method)
      (htext : newText fs parser r p method = .ok text)
      (htarget : (destinationOf r).target? p = some target)
      (h : fs.resolve target = .error f) : Escapes (.inject r) f
  | reported {r : InjectRequest} {e : StructureError} {f : Failure}
      (hreports : Reports fs settings parser r e)
      (h : host.display (errorLine e.message) = .error f) : Escapes (.inject r) f

/-- The failures of a run that has done its work: its last line cannot be shown. -/
inductive Unannounced : Request → Failure → Prop where
  | count {r : ScanRequest} {root : Path} {seen : String} {report : ScanReport}
      {fs' : FileSystem} {f : Failure} (hr : Opens fs r root)
      (hpanel : host.display (scanPanel root r) = .ok seen)
      (hscan : fs.runScan host settings parser root r.output r.layout r.taken r.jobs =
        (.ok report, fs'))
      (h : host.display (countLine report.count) = .error f) : Unannounced (.scan r) f
  | delivery {r : InjectRequest} {p q : Path} {method : Option String} {fs' : FileSystem}
      {f : Failure} (hr : Reads fs r p) (hmethod : methodText fs r = .ok method)
      (hinject : fs.runInject settings parser p ⟨r.className, method, r.nested⟩
        (destinationOf r) = (.ok (.written q), fs'))
      (h : host.display (deliveryLine r.className q) = .error f) : Unannounced (.inject r) f

end Ends

/-! ## What each way to end leads to -/

section Run

variable {fs : FileSystem} {host : Host} {settings : Settings} {parser : Parser}
  {request : Request}

theorem finish_of_shown {code : Nat} {stdout seen text : String} {last : Shown}
    (h : host.display last = .ok text) :
    finish host code stdout seen last = .finished code stdout (seen ++ text) := by
  rw [finish, h]

theorem finish_of_not_shown {code : Nat} {stdout seen : String} {last : Shown} {f : Failure}
    (h : host.display last = .error f) : finish host code stdout seen last = .failed f := by
  rw [finish, h]

theorem runRequest_of_loop {f : Failure} (h : fs.resolve (Path.ofText request.input) = .error f) :
    runRequest fs host settings parser request = (.failed f, fs) := by
  cases request with
  | scan r =>
    have hroot : fs.resolve (Path.ofText r.root) = .error f := h
    rw [runRequest, runScan, hroot]
  | inject r =>
    have hfile : fs.resolve (Path.ofText r.file) = .error f := h
    rw [runRequest, runInject, hfile]

theorem runRequest_of_long {p : Path} (hresolve : fs.resolve (Path.ofText request.input) = .ok p)
    (h : fs.find p = .error .nameTooLong) : runRequest fs host settings parser request =
      (.failed (.refused ⟨.nameTooLong, p.text, none⟩), fs) := by
  have hfind : fs.find? p = .error ⟨.nameTooLong, p.text, none⟩ :=
    find?_eq_error_iff.mpr ⟨h, rfl⟩
  cases request with
  | scan r =>
    have hroot : fs.resolve (Path.ofText r.root) = .ok p := hresolve
    rw [runRequest, runScan, hroot]
    simp only [hfind]
  | inject r =>
    have hfile : fs.resolve (Path.ofText r.file) = .ok p := hresolve
    rw [runRequest, runInject, hfile]
    simp only [hfind]

/-- A request whose input is not there has the code 2, if that can be shown. -/
theorem Lacks.runRequest_eq {p : Path} (h : Lacks fs request p) :
    runRequest fs host settings parser request =
      (finish host 2 "" "" (missingLine p request), fs) := by
  cases h with
  | directory hresolve hlong hdir =>
    rw [runRequest, runScan, hresolve]
    cases hfind : fs.find? p with
    | error e => exact absurd (find?_eq_error_iff.mp hfind).1 hlong
    | ok found =>
      simp only [hfind]
      rcases found with _ | ⟨x, d⟩
      · rfl
      · cases d with
        | file => rfl
        | link => rfl
        | directory =>
          have hdirectory := isDirectory_eq_true_iff.mpr ⟨x, find?_eq_some_iff.mp hfind⟩
          rw [hdir] at hdirectory
          cases hdirectory
  | file hresolve hfile =>
    rw [runRequest, runInject, hresolve]
    cases hfind : fs.find? p with
    | error e =>
      rw [isFile, hfind] at hfile
      cases hfile
    | ok found =>
      simp only [hfind]
      rcases found with _ | ⟨x, d⟩
      · rfl
      · cases d with
        | directory => rfl
        | link => rfl
        | file mode bytes =>
          have htrue := isFile_eq_true_iff.mpr ⟨x, mode, bytes, find?_eq_some_iff.mp hfind⟩
          rw [hfile] at htrue
          cases htrue

/-! ### Scans -/

section Scan

variable {r : ScanRequest} {root : Path} {seen : String}

theorem Opens.runRequest_eq (h : Opens fs r root) :
    runRequest fs host settings parser (.scan r) = scanRoot fs host settings parser r root := by
  obtain ⟨loc, hfind⟩ := isDirectory_eq_true_iff.mp h.directory
  rw [runRequest, runScan, h.resolved]
  simp only [find?_eq_some_iff.mpr hfind]

/-- What a scan comes to once it has shown what it is about to do. -/
theorem Opens.runRequest_of_panel (h : Opens fs r root)
    (hpanel : host.display (scanPanel root r) = .ok seen) :
    runRequest fs host settings parser (.scan r) =
      match fs.runScan host settings parser root r.output r.layout r.taken r.jobs with
      | (.error e, fs) => (.failed e, fs)
      | (.ok report, fs) =>
        (finish host 0 report.printed (seen ++ report.seen) (countLine report.count), fs) := by
  rcases hscan : fs.runScan host settings parser root r.output r.layout r.taken r.jobs with
    ⟨_ | _, _⟩ <;> simp only [h.runRequest_eq, scanRoot, hpanel, hscan]

/-- The paths that a scan lists start at the root, as its own path does. -/
theorem Opens.text_ne_empty {paths : List Path} (h : Opens fs r root)
    (hlist : fs.listFiles root r.taken = .ok paths) : ∀ p ∈ paths, p.text ≠ "" :=
  text_ne_empty_of_mem_listFiles (anchor_of_resolve h.resolved) hlist

/-- A scan of a directory is ended by a failure, or comes to its end and may be unable to
say so. -/
theorem Opens.scan_cases (hr : Opens fs r root) (hs : fs.Sound) (host : Host)
    (settings : Settings) (parser : Parser) :
    (∃ f, Escapes fs host settings parser (.scan r) f) ∨
      (∃ f, Unannounced fs host settings parser (.scan r) f) ∨
      ∃ out err fs',
        runRequest fs host settings parser (.scan r) = (.finished 0 out err, fs') := by
  cases hpanel : host.display (scanPanel root r) with
  | error f => exact Or.inl ⟨f, .panel hr hpanel⟩
  | ok seen =>
    rcases runScan_cases hs host settings parser root r.output r.layout r.taken r.jobs with
      ⟨e, hlist⟩ | ⟨paths, f, hlist, hshown⟩ | ⟨paths, shown, q, cause, hlist, hshown, hout, hq⟩ |
      ⟨report, fs', hscan⟩
    · exact Or.inl ⟨_, .listing hr hpanel hlist⟩
    · exact Or.inl ⟨f, .stalled hr hpanel hlist
        ((scanShown_error_iff (hr.text_ne_empty hlist)).mp hshown)⟩
    · exact Or.inl ⟨_, .output hr hpanel hlist hshown hout hq⟩
    · right
      cases hcount : host.display (countLine report.count) with
      | error f => exact Or.inl ⟨f, .count hr hpanel hscan hcount⟩
      | ok text =>
        refine Or.inr ⟨report.printed, seen ++ report.seen ++ text, fs', ?_⟩
        rw [hr.runRequest_of_panel hpanel, hscan]
        simp only [finish_of_shown hcount]

end Scan

/-! ### Injections -/

section Inject

variable {r : InjectRequest} {p : Path} {method : Option String}

theorem Reads.runRequest_eq (h : Reads fs r p) :
    runRequest fs host settings parser (.inject r) = injectAt fs host settings parser r p := by
  obtain ⟨loc, mode, bytes, hfind⟩ := isFile_eq_true_iff.mp h.file
  rw [runRequest, runInject, h.resolved]
  simp only [find?_eq_some_iff.mpr hfind]

theorem Reads.runRequest_of_method (h : Reads fs r p) (hmethod : methodText fs r = .ok method) :
    runRequest fs host settings parser (.inject r) =
      let result := fs.runInject settings parser p ⟨r.className, method, r.nested⟩
        (destinationOf r)
      (injectOutcome host r.className result.1, result.2) := by
  rw [h.runRequest_eq, injectAt, hmethod]

theorem methodText_eq_none_iff :
    methodText fs r = .ok none ↔ r.method = none ∧ r.methodFile = none := by
  rw [methodText]
  cases r.methodFile with
  | none => simp
  | some name =>
    simp only
    generalize fs.readSource (Path.ofText name) = text
    cases text <;> simp [Except.map]

/-- An injection whose text cannot be built ends as the failure says. -/
theorem Reads.runRequest_of_text_error {f : Failure} (h : Reads fs r p)
    (hmethod : methodText fs r = .ok method) (htext : newText fs parser r p method = .error f) :
    runRequest fs host settings parser (.inject r) =
      (injectOutcome host r.className (.error f), fs) := by
  rw [h.runRequest_of_method hmethod, FileSystem.runInject_of_text_error htext]

/-- An injection whose text cannot be written ends as the failure says. -/
theorem Reads.runRequest_of_write_error {text : String} {target : Path} {f : Failure}
    (h : Reads fs r p) (hmethod : methodText fs r = .ok method)
    (htext : newText fs parser r p method = .ok text)
    (htarget : (destinationOf r).target? p = some target)
    (hwrite : (fs.writeSource settings target text (some p)).1 = .error f) :
    runRequest fs host settings parser (.inject r) =
      (injectOutcome host r.className (.error f), fs) := by
  rw [h.runRequest_of_method hmethod,
    FileSystem.runInject_of_write_error htext htarget hwrite]

/-- A failure of the source has the code 1, if it can be shown. -/
theorem Reports.runRequest_eq {e : StructureError} (h : Reports fs settings parser r e) :
    runRequest fs host settings parser (.inject r) =
      (finish host 1 "" "" (errorLine e.message), fs) := by
  cases h with
  | method hr hname h =>
    have hmethod : methodText fs r = .error (.source e) := by
      rw [methodText, hname]
      simp only [h]
      rfl
    rw [hr.runRequest_eq, injectAt, hmethod]
    rfl
  | text hr hmethod h =>
    rw [hr.runRequest_of_text_error hmethod h]
    rfl
  | write hr hmethod htext htarget h =>
    rw [hr.runRequest_of_write_error hmethod htext htarget h]
    rfl

/-- An injection into a file is ended by a failure that escapes or is reported, or comes
to its end and may be unable to say so. -/
theorem Reads.inject_cases (hr : Reads fs r p) (host : Host) (settings : Settings)
    (parser : Parser) :
    (∃ f, Escapes fs host settings parser (.inject r) f) ∨
      (∃ e, Reports fs settings parser r e) ∨
      (∃ f, Unannounced fs host settings parser (.inject r) f) ∨
      ∃ out err fs',
        runRequest fs host settings parser (.inject r) = (.finished 0 out err, fs') := by
  cases hmethod : methodText fs r with
  | error f =>
    rw [methodText] at hmethod
    split at hmethod
    · rename_i name hname
      cases hread : fs.readSource (Path.ofText name) with
      | error f' =>
        obtain ⟨reason, rfl⟩ := readSource_error hread
        exact Or.inr (Or.inl ⟨_, .method hr hname hread⟩)
      | ok text =>
        rw [hread] at hmethod
        cases hmethod
    · cases hmethod
  | ok method =>
    rcases FileSystem.runInject_cases fs settings parser p ⟨r.className, method, r.nested⟩
        (destinationOf r) with
      ⟨f, htext⟩ | ⟨text, target, f, htext, htarget, hwrite⟩ | ⟨delivery, fs', hok⟩
    · rcases injectedText_error htext with ⟨e, rfl⟩ | ⟨_, hnone, rfl⟩ | ⟨m, e, _, hsome, rfl⟩
      · exact Or.inr (Or.inl ⟨e, .text hr hmethod htext⟩)
      · obtain rfl : method = none := hnone
        obtain ⟨hgiven, hfile⟩ := methodText_eq_none_iff.mp hmethod
        exact Or.inl ⟨_, .noMethod hr hgiven hfile htext⟩
      · obtain rfl : method = some m := hsome
        exact Or.inl ⟨_, .cut hr hmethod htext⟩
    · rcases writeSource_error hwrite with hloop | ⟨e, rfl⟩
      · exact Or.inl ⟨f, .target hr hmethod htext htarget hloop⟩
      · exact Or.inr (Or.inl ⟨e, .write hr hmethod htext htarget hwrite⟩)
    · right
      right
      have hrun := @Reads.runRequest_of_method fs host settings parser r p method hr hmethod
      simp only [hok] at hrun
      cases delivery with
      | printed text => exact Or.inr ⟨text, "", fs', hrun⟩
      | written q =>
        cases hline : host.display (deliveryLine r.className q) with
        | error f => exact Or.inl ⟨f, .delivery hr hmethod hok hline⟩
        | ok text =>
          refine Or.inr ⟨"", "" ++ text, fs', ?_⟩
          rw [hrun, injectOutcome, finish_of_shown hline]

end Inject

/-! ### All requests -/

theorem Escapes.runRequest_eq {f : Failure} (h : Escapes fs host settings parser request f) :
    runRequest fs host settings parser request = (.failed f, fs) := by
  cases h with
  | loop h => exact runRequest_of_loop h
  | long hresolve h => exact runRequest_of_long hresolve h
  | missing hlacks h => rw [hlacks.runRequest_eq, finish_of_not_shown h]
  | panel hr h => rw [hr.runRequest_eq, scanRoot, h]
  | listing hr hpanel h => rw [hr.runRequest_of_panel hpanel, runScan_of_not_listed h]
  | stalled hr hpanel hlist h =>
    have hshown := (scanShown_error_iff (hr.text_ne_empty hlist)).mpr h
    rw [hr.runRequest_of_panel hpanel, runScan_of_not_shown hlist hshown]
  | output hr hpanel hlist hshown hout h =>
    rw [hr.runRequest_of_panel hpanel, hout, runScan_of_unwritable hlist hshown h]
  | noMethod hr hmethod hfile h =>
    rw [hr.runRequest_of_text_error (methodText_eq_none_iff.mpr ⟨hmethod, hfile⟩) h]
    rfl
  | cut hr hmethod h =>
    rw [hr.runRequest_of_text_error hmethod h]
    rfl
  | @target r p target method text f hr hmethod htext htarget h =>
    obtain ⟨loop, rfl⟩ := resolve_error h
    have hwrite : (fs.writeSource settings target text (some p)).1 = .error (.linkLoop loop) := by
      rw [writeSource, h]
    rw [hr.runRequest_of_write_error hmethod htext htarget hwrite]
    rfl
  | reported hreports h => rw [hreports.runRequest_eq, finish_of_not_shown h]

theorem Unannounced.runRequest_eq {f : Failure}
    (h : Unannounced fs host settings parser request f) :
    ∃ fs', runRequest fs host settings parser request = (.failed f, fs') := by
  cases h with
  | @count r root seen report fs' _ hr hpanel hscan h =>
    refine ⟨fs', ?_⟩
    rw [hr.runRequest_of_panel hpanel, hscan]
    simp only [finish_of_not_shown h]
  | @delivery r p q method fs' _ hr hmethod hinject h =>
    refine ⟨fs', ?_⟩
    rw [hr.runRequest_of_method hmethod, hinject]
    simp only [injectOutcome, finish_of_not_shown h]

/-- A request has one of the five ends. -/
theorem runRequest_cases (hs : fs.Sound) (host : Host) (settings : Settings) (parser : Parser)
    (request : Request) :
    (∃ f, Escapes fs host settings parser request f) ∨ (∃ p, Lacks fs request p) ∨
      (∃ r e, request = .inject r ∧ Reports fs settings parser r e) ∨
      (∃ f, Unannounced fs host settings parser request f) ∨
      ∃ out err fs', runRequest fs host settings parser request = (.finished 0 out err, fs') := by
  cases hresolve : fs.resolve (Path.ofText request.input) with
  | error f => exact Or.inl ⟨f, .loop hresolve⟩
  | ok p =>
  by_cases hlong : fs.find p = .error .nameTooLong
  · exact Or.inl ⟨_, .long hresolve hlong⟩
  cases request with
  | scan r =>
    cases hdir : fs.isDirectory p with
    | false => exact Or.inr (Or.inl ⟨p, .directory hresolve hlong hdir⟩)
    | true =>
      have hr : Opens fs r p := ⟨hresolve, hdir⟩
      rcases hr.scan_cases hs host settings parser with hescapes | hends
      · exact Or.inl hescapes
      · exact Or.inr (Or.inr (Or.inr hends))
  | inject r =>
    cases hfile : fs.isFile p with
    | error e => exact absurd (isFile_eq_error_iff.mp hfile).1 hlong
    | ok isFile =>
    cases isFile with
    | false => exact Or.inr (Or.inl ⟨p, .file hresolve hfile⟩)
    | true =>
      have hr : Reads fs r p := ⟨hresolve, hfile⟩
      rcases hr.inject_cases host settings parser with hescapes | ⟨e, he⟩ | hends
      · exact Or.inl hescapes
      · exact Or.inr (Or.inr (Or.inl ⟨r, e, rfl, he⟩))
      · exact Or.inr (Or.inr (Or.inr hends))

/-- What an outcome says about the request that was run. -/
def EndsAs (fs : FileSystem) (host : Host) (settings : Settings) (parser : Parser)
    (request : Request) : Outcome → Prop
  | .stopped _ => False
  | .failed f => Escapes fs host settings parser request f ∨
      Unannounced fs host settings parser request f
  | .finished 0 _ _ => True
  | .finished 1 out err => ∃ r e, request = .inject r ∧ Reports fs settings parser r e ∧
      out = "" ∧ host.display (errorLine e.message) = .ok err
  | .finished 2 out err => ∃ p, Lacks fs request p ∧ out = "" ∧
      host.display (missingLine p request) = .ok err
  | .finished _ _ _ => False

/-- A request ends as its outcome says, and changes nothing unless the code is 0 or only
the last line could not be shown. -/
theorem runRequest_endsAs (hs : fs.Sound) (host : Host) (settings : Settings) (parser : Parser)
    (request : Request) :
    EndsAs fs host settings parser request (runRequest fs host settings parser request).1 ∧
      ((∀ out err, (runRequest fs host settings parser request).1 ≠ .finished 0 out err) →
        (∀ f, ¬ Unannounced fs host settings parser request f) →
        (runRequest fs host settings parser request).2 = fs) := by
  rcases runRequest_cases hs host settings parser request with
    ⟨f, hf⟩ | ⟨p, hlacks⟩ | ⟨r, e, rfl, he⟩ | ⟨f, hf⟩ | ⟨out, err, fs', hok⟩
  · rw [hf.runRequest_eq]
    exact ⟨Or.inl hf, fun _ _ => rfl⟩
  · rw [hlacks.runRequest_eq]
    refine ⟨?_, fun _ _ => rfl⟩
    cases hline : host.display (missingLine p request) with
    | error f =>
      rw [finish_of_not_shown hline]
      exact Or.inl (.missing hlacks hline)
    | ok text =>
      rw [finish_of_shown hline]
      exact ⟨p, hlacks, rfl, by rw [hline, String.empty_append]⟩
  · rw [he.runRequest_eq]
    refine ⟨?_, fun _ _ => rfl⟩
    cases hline : host.display (errorLine e.message) with
    | error f =>
      rw [finish_of_not_shown hline]
      exact Or.inl (.reported he hline)
    | ok text =>
      rw [finish_of_shown hline]
      exact ⟨r, e, rfl, he, rfl, by rw [hline, String.empty_append]⟩
  · obtain ⟨fs', hrun⟩ := hf.runRequest_eq
    rw [hrun]
    exact ⟨Or.inr hf, fun _ hnot => absurd hf (hnot f)⟩
  · rw [hok]
    exact ⟨trivial, fun hzero => absurd rfl (hzero out err)⟩

end Run

/-! ## Command lines -/

section CommandLine

variable {fs : FileSystem} {host : Host} {settings : Settings} {parser : Parser}
  {words : List String} {request : Request}

theorem run_of_stop {s : Stop} (h : readRequest words = .error s) :
    run fs host settings parser words = (.stopped s, fs) := by
  rw [run, h]

theorem run_of_request (h : readRequest words = .ok request) :
    run fs host settings parser words = runRequest fs host settings parser request := by
  rw [run, h]

/-- Words that do not stop are a request, and their run ends as its outcome says. -/
theorem run_cases (hs : fs.Sound) (host : Host) (settings : Settings) (parser : Parser)
    (words : List String) :
    (∃ s, readRequest words = .error s ∧ run fs host settings parser words = (.stopped s, fs)) ∨
      ∃ request, readRequest words = .ok request ∧
        EndsAs fs host settings parser request (run fs host settings parser words).1 := by
  cases hwords : readRequest words with
  | error s => exact Or.inl ⟨s, rfl, run_of_stop hwords⟩
  | ok request =>
    rw [run_of_request hwords]
    exact Or.inr ⟨request, rfl, (runRequest_endsAs hs host settings parser request).1⟩

theorem run_stopped_iff (hs : fs.Sound) {s : Stop} :
    (run fs host settings parser words).1 = .stopped s ↔ readRequest words = .error s := by
  refine ⟨fun h => ?_, fun h => by rw [run_of_stop h]⟩
  rcases run_cases hs host settings parser words with ⟨s', hwords, hrun⟩ | ⟨_, _, hends⟩
  · rw [hrun] at h
    rw [hwords, Outcome.stopped.inj h]
  · rw [h] at hends
    exact hends.elim

theorem run_failed_iff (hs : fs.Sound) {f : Failure} :
    (run fs host settings parser words).1 = .failed f ↔
      ∃ request, readRequest words = .ok request ∧
        (Escapes fs host settings parser request f ∨
          Unannounced fs host settings parser request f) := by
  constructor
  · intro h
    rcases run_cases hs host settings parser words with ⟨_, _, hrun⟩ | ⟨request, hwords, hends⟩
    · rw [hrun] at h
      cases h
    · rw [h] at hends
      exact ⟨request, hwords, hends⟩
  · rintro ⟨request, hwords, hf | hf⟩
    · rw [run_of_request hwords, hf.runRequest_eq]
    · obtain ⟨fs', hrun⟩ := hf.runRequest_eq
      rw [run_of_request hwords, hrun]

theorem run_two_iff (hs : fs.Sound) {out err : String} :
    (run fs host settings parser words).1 = .finished 2 out err ↔
      ∃ request p, readRequest words = .ok request ∧ Lacks fs request p ∧ out = "" ∧
        host.display (missingLine p request) = .ok err := by
  constructor
  · intro h
    rcases run_cases hs host settings parser words with ⟨_, _, hrun⟩ | ⟨request, hwords, hends⟩
    · rw [hrun] at h
      cases h
    · rw [h] at hends
      obtain ⟨p, hlacks, hout, hline⟩ := hends
      exact ⟨request, p, hwords, hlacks, hout, hline⟩
  · rintro ⟨request, p, hwords, hlacks, rfl, hline⟩
    rw [run_of_request hwords, hlacks.runRequest_eq, finish_of_shown hline, String.empty_append]

theorem run_one_iff (hs : fs.Sound) {out err : String} :
    (run fs host settings parser words).1 = .finished 1 out err ↔
      ∃ r e, readRequest words = .ok (.inject r) ∧ Reports fs settings parser r e ∧ out = "" ∧
        host.display (errorLine e.message) = .ok err := by
  constructor
  · intro h
    rcases run_cases hs host settings parser words with ⟨_, _, hrun⟩ | ⟨request, hwords, hends⟩
    · rw [hrun] at h
      cases h
    · rw [h] at hends
      obtain ⟨r, e, rfl, he, hout, hline⟩ := hends
      exact ⟨r, e, hwords, he, hout, hline⟩
  · rintro ⟨r, e, hwords, he, rfl, hline⟩
    rw [run_of_request hwords, he.runRequest_eq, finish_of_shown hline, String.empty_append]

theorem run_unchanged (hs : fs.Sound)
    (hzero : ∀ out err, (run fs host settings parser words).1 ≠ .finished 0 out err)
    (hsaid : ∀ request f, readRequest words = .ok request →
      ¬ Unannounced fs host settings parser request f) :
    (run fs host settings parser words).2 = fs := by
  cases hwords : readRequest words with
  | error s => rw [run_of_stop hwords]
  | ok request =>
    rw [run_of_request hwords] at hzero ⊢
    exact (runRequest_endsAs hs host settings parser request).2 hzero
      fun f => hsaid request f hwords

/-! ## What every run keeps -/

theorem sound_runScan (hs : fs.Sound) (r : ScanRequest) :
    (runScan fs host settings parser r).2.Sound := by
  have hroot : ∀ root, (scanRoot fs host settings parser r root).2.Sound := by
    intro root
    rw [scanRoot]
    split
    · exact hs
    have hscan : (fs.runScan host settings parser root r.output r.layout r.taken r.jobs).2.Sound :=
      hs.runScan
    split <;> rename_i heq <;> simpa only [heq] using hscan
  rw [runScan]
  split
  · exact hs
  split
  · exact hs
  · exact hroot _
  · exact hs

theorem sound_runInject (hs : fs.Sound) (r : InjectRequest) :
    (runInject fs host settings parser r).2.Sound := by
  have hinject : ∀ p, (injectAt fs host settings parser r p).2.Sound := by
    intro p
    rw [injectAt]
    cases methodText fs r with
    | error e => exact hs
    | ok method =>
      exact hs.runInject settings parser p ⟨r.className, method, r.nested⟩ (destinationOf r)
  rw [runInject]
  split
  · exact hs
  split
  · exact hs
  · exact hinject _
  · exact hs

theorem sound_run (hs : fs.Sound) (host : Host) (settings : Settings) (parser : Parser)
    (words : List String) : (run fs host settings parser words).2.Sound := by
  rw [run]
  split
  · exact hs
  · rename_i request _
    cases request with
    | scan r =>
      show (runScan fs host settings parser r).2.Sound
      exact sound_runScan hs r
    | inject r =>
      show (runInject fs host settings parser r).2.Sound
      exact sound_runInject hs r

theorem sound_of_runs (hs : fs.Sound) (host : Host) (settings : Settings) (parser : Parser)
    (lines : List (List String)) :
    (lines.foldl (fun fs words => (run fs host settings parser words).2) fs).Sound := by
  induction lines generalizing fs with
  | nil => exact hs
  | cons words lines ih => exact ih (sound_run hs host settings parser words)

/-- Where the console shows everything, no run is unable to say that its work is done. -/
theorem not_unannounced (hshows : ∀ shown, ∃ text, host.render shown = .ok text) (f : Failure) :
    ¬ Unannounced fs host settings parser request f := by
  have hnot : ∀ shown, host.display shown ≠ .error f := by
    intro shown h
    obtain ⟨text, htext⟩ := Host.exists_display hshows shown
    cases htext.symm.trans h
  intro h
  cases h with
  | count _ _ _ h => exact hnot _ h
  | delivery _ _ _ h => exact hnot _ h

end CommandLine

/-- How the run of a command line ends. It stops if the words are no request. Else, where
the console shows the message, it ends with the code 2 exactly if the input is not there,
and with the code 1 exactly if an injection reports a failure; with a failure exactly if
that `Escapes`, or the work is done and that stays `Unannounced`; and with the code 0 if
none of these is the case. Unless the code is 0 or the end unannounced, nothing is changed.
The last part is for a console that shows everything. -/
theorem run_outcome (fs : FileSystem) (hs : fs.Sound) (host : Host) (settings : Settings)
    (parser : Parser) (words : List String) :
    let result := run fs host settings parser words
    (∀ s, result.1 = .stopped s ↔ readRequest words = .error s) ∧
    (∀ f, result.1 = .failed f ↔ ∃ request, readRequest words = .ok request ∧
      (Escapes fs host settings parser request f ∨
        Unannounced fs host settings parser request f)) ∧
    (∀ out err, result.1 = .finished 2 out err ↔
      ∃ request p, readRequest words = .ok request ∧ Lacks fs request p ∧ out = "" ∧
        host.display (missingLine p request) = .ok err) ∧
    (∀ out err, result.1 = .finished 1 out err ↔
      ∃ r e, readRequest words = .ok (.inject r) ∧ Reports fs settings parser r e ∧ out = "" ∧
        host.display (errorLine e.message) = .ok err) ∧
    (∀ code out err, result.1 = .finished code out err → code = 0 ∨ code = 1 ∨ code = 2) ∧
    ((∀ out err, result.1 ≠ .finished 0 out err) →
      (∀ request f, readRequest words = .ok request →
        ¬ Unannounced fs host settings parser request f) → result.2 = fs) ∧
    ((∀ shown, ∃ text, host.render shown = .ok text) →
      ((∃ out err, result.1 = .finished 2 out err) ↔
        ∃ request p, readRequest words = .ok request ∧ Lacks fs request p) ∧
      ((∃ out err, result.1 = .finished 1 out err) ↔
        ∃ r e, readRequest words = .ok (.inject r) ∧ Reports fs settings parser r e) ∧
      ((∀ out err, result.1 ≠ .finished 0 out err) → result.2 = fs)) := by
  refine ⟨fun s => run_stopped_iff hs, fun f => run_failed_iff hs, fun _ _ => run_two_iff hs,
    fun _ _ => run_one_iff hs, ?_, run_unchanged hs, fun hshows => ⟨?_, ?_, ?_⟩⟩
  · intro code out err h
    rcases run_cases hs host settings parser words with ⟨_, _, hrun⟩ | ⟨_, _, hends⟩
    · rw [hrun] at h
      cases h
    · rw [h] at hends
      match code, hends with
      | 0, _ => exact Or.inl rfl
      | 1, _ => exact Or.inr (Or.inl rfl)
      | 2, _ => exact Or.inr (Or.inr rfl)
      | _ + 3, hfalse => exact hfalse.elim
  · constructor
    · rintro ⟨out, err, h⟩
      obtain ⟨request, p, hwords, hlacks, _⟩ := (run_two_iff hs).mp h
      exact ⟨request, p, hwords, hlacks⟩
    · rintro ⟨request, p, hwords, hlacks⟩
      obtain ⟨err, herr⟩ := Host.exists_display hshows (missingLine p request)
      exact ⟨"", err, (run_two_iff hs).mpr ⟨request, p, hwords, hlacks, rfl, herr⟩⟩
  · constructor
    · rintro ⟨out, err, h⟩
      obtain ⟨r, e, hwords, he, _⟩ := (run_one_iff hs).mp h
      exact ⟨r, e, hwords, he⟩
    · rintro ⟨r, e, hwords, he⟩
      obtain ⟨err, herr⟩ := Host.exists_display hshows (errorLine e.message)
      exact ⟨"", err, (run_one_iff hs).mpr ⟨r, e, hwords, he, rfl, herr⟩⟩
  · intro hzero
    exact run_unchanged hs hzero fun _ f _ => not_unannounced hshows f

def sourceTree : FileSystem :=
  ofEntries [(["src"], .directory), (["src", "A.java"], .file 0o644 [])]

theorem sound_sourceTree : sourceTree.Sound :=
  sound_of_forall (by decide) rfl (by decide)

/-- A scan of a directory that is not there has the code 2, and changes nothing. -/
theorem scan_of_missing_root :
    let result := run sourceTree .plain ⟨0o022, "00000000", by decide⟩ (fun _ => emptyTree)
      ["scan", "sources"]
    (∃ out err, result.1 = .finished 2 out err) ∧ result.2 = sourceTree := by
  intro result
  obtain ⟨_, _, _, _, _, _, hshown⟩ := run_outcome sourceTree sound_sourceTree .plain
    ⟨0o022, "00000000", by decide⟩ (fun _ => emptyTree) ["scan", "sources"]
  obtain ⟨htwo, _, hsame⟩ := hshown Host.plain_shows
  have hrequest : readRequest ["scan", "sources"] =
      .ok (.scan ⟨"sources", none, .array, [], 1⟩) := by decide +kernel
  have hresolve : sourceTree.resolve (Path.ofText "sources") = .ok ⟨.root, ["sources"]⟩ := by
    decide +kernel
  have hlacks : Lacks sourceTree (.scan ⟨"sources", none, .array, [], 1⟩) ⟨.root, ["sources"]⟩ :=
    .directory hresolve (by decide +kernel) (by decide +kernel)
  have hresult : ∃ out err, result.1 = .finished 2 out err := htwo.mpr ⟨_, _, hrequest, hlacks⟩
  refine ⟨hresult, hsame fun out err hzero => ?_⟩
  obtain ⟨_, _, hcode⟩ := hresult
  cases hcode.symm.trans hzero

/-- A scan whose output goes to a directory that is not there ends with the refusal of
the system. -/
theorem scan_output_escapes :
    sourceTree.Sound ∧
      (run sourceTree .plain ⟨0o022, "00000000", by decide⟩ (fun _ => emptyTree)
        ["scan", "src", "--out", "missing/out.json"]).1 =
      .failed (.refused ⟨.notFound, "missing/out.json", none⟩) := by
  refine ⟨sound_sourceTree, ?_⟩
  have hrequest : readRequest ["scan", "src", "--out", "missing/out.json"] =
      .ok (.scan ⟨"src", some "missing/out.json", .array, [], 1⟩) := by decide +kernel
  have hopens : Opens sourceTree ⟨"src", some "missing/out.json", .array, [], 1⟩
      ⟨.root, ["src"]⟩ := ⟨by decide +kernel, by decide +kernel⟩
  have hnamed : sourceTree.WellNamed := ⟨by decide, by decide⟩
  have htargets : sourceTree.ShortTargets := by
    intro loc target hget
    cases mem_linkLocations hget
  have honce : sourceTree.NamesOnce := ⟨by decide, by decide⟩
  have hshort : sourceTree.ShortPaths ⟨.root, ["src"]⟩ :=
    shortPaths_of_entries (b := 6) sound_sourceTree (by decide +kernel) (by decide +kernel)
  obtain ⟨paths, hlist⟩ := exists_listFiles sound_sourceTree hnamed honce htargets hshort
    defaultEndings
  have hstart : inParallel 1 paths = true → Host.plain.start 1 = .ok () := by simp [inParallel]
  have hscan := sourceTree.scanPaths_eq (fun _ => emptyTree) hstart
    (properPart_of_mem_listFiles hnamed (by decide) hlist)
  obtain ⟨seen, hshown⟩ := exists_scanShown Host.plain_shows hscan
  have hout : sourceTree.Unwritable (Path.ofText "missing/out.json") .notFound :=
    Or.inl (by decide +kernel)
  have hescapes : Escapes sourceTree .plain ⟨0o022, "00000000", by decide⟩ (fun _ => emptyTree)
      (.scan ⟨"src", some "missing/out.json", .array, [], 1⟩)
      (.refused ⟨.notFound, "missing/out.json", none⟩) :=
    .output hopens rfl hlist hshown rfl hout
  rw [run_of_request hrequest]
  exact congrArg Prod.fst hescapes.runRequest_eq

end CommandLine

end ClassOutline
