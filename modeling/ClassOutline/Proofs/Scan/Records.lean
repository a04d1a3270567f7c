import ClassOutline.Proofs.FileSystem.Coverage
import ClassOutline.Proofs.FileSystem.RoundTrip
import ClassOutline.Proofs.Outline.Extraction
import ClassOutline.Scan

/-!
# One record for every file

A scan has one record for every file that is listed, in that order, and whatever is
wrong with a file is told in the file's own record. Only the listing and the start of the
workers can end a scan before that. A record depends on the bytes of the file that its
path leads to, and on those of no other file. A batch scan can be ended by the console as
well (`Stalls`), and by its output.
-/

namespace ClassOutline

theorem Path.text_ne_empty {p : Path} (h : ∀ part ∈ p.parts, ProperPart part) : p.text ≠ "" := by
  intro he
  have hp := ofText_text h
  rw [he] at hp
  rw [← hp] at he
  revert he
  decide

/-! ## A console that shows everything -/

namespace Host

variable {host : Host}

theorem exists_display (hshows : ∀ shown, ∃ text, host.render shown = .ok text) (shown : Shown) :
    ∃ text, host.display shown = .ok text := by
  obtain ⟨text, htext⟩ := hshows shown
  exact ⟨text, by rw [display, htext]; rfl⟩

theorem exists_displayAll (hshows : ∀ shown, ∃ text, host.render shown = .ok text)
    (shown : List Shown) : ∃ text, host.displayAll shown = .ok text := by
  rw [displayAll]
  cases hresult : shown.mapM host.display with
  | ok texts => exact ⟨String.join texts, rfl⟩
  | error f =>
    obtain ⟨s, _, hs⟩ := exists_of_mapM_error hresult
    obtain ⟨text, htext⟩ := exists_display hshows s
    cases hs.symm.trans htext

theorem plain_shows (shown : Shown) : ∃ text, plain.render shown = .ok text := by
  cases shown <;> exact ⟨_, rfl⟩

end Host

/-! ## The record of a file -/

/-- A text that starts with the name of a file and a colon. -/
def Names (file message : String) : Prop :=
  ∃ rest, message = file ++ ":" ++ rest

theorem Source.parse_of_error {parser : Parser} {text : String} {origin : Option String}
    (h : (parser text).label.hasError = true) :
    Source.parse parser text true origin =
      .error (.source (.parse
        (Source.syntaxComplaint ⟨parser text, Utf8.encode text, origin⟩))) := by
  simp only [Source.parse, h, Bool.and_self, if_true]

theorem Source.parse_of_clear {parser : Parser} {text : String} {origin : Option String}
    (h : (parser text).label.hasError = false) :
    Source.parse parser text true origin = .ok ⟨parser text, Utf8.encode text, origin⟩ := by
  simp only [Source.parse, h, Bool.and_false, Bool.false_eq_true, if_false]

theorem names_complainAt {s : Source} {file : String} (horigin : s.origin = some file)
    (hfile : file ≠ "") (offset : Nat) (text : String) :
    Names file (s.complainAt offset text).message := by
  let line : Int := (positionAt s.bytes offset).line
  let column : Int := (positionAt s.bytes offset).column
  refine ⟨toString line ++ ":" ++ toString column ++ ": " ++ text, ?_⟩
  simp only [Diagnostic.message, Source.complainAt, horigin, if_neg hfile, String.append_assoc]
  rfl

theorem names_syntaxComplaint {s : Source} {file : String} (horigin : s.origin = some file)
    (hfile : file ≠ "") : Names file (StructureError.message (.parse s.syntaxComplaint)) := by
  rw [StructureError.message, Source.syntaxComplaint]
  exact names_complainAt horigin hfile _ _

theorem names_file (file reason : String) :
    Names file (StructureError.message (.file file reason)) := by
  have hcolon : ": " = ":" ++ " " := rfl
  exact ⟨" " ++ reason, by simp only [StructureError.message, hcolon, String.append_assoc]⟩

namespace FileSystem

section Record

variable {fs : FileSystem} {parser : Parser} {p : Path}

/-- A file has an outline, or a failure that names it. -/
theorem outlineFile_cases (fs : FileSystem) (parser : Parser) (hp : p.text ≠ "") :
    (∃ o, fs.outlineFile parser p = .ok o) ∨
      ∃ e, fs.outlineFile parser p = .error (.source e) ∧ Names p.text e.message := by
  cases hread : fs.readSource p with
  | error e =>
    obtain ⟨reason, rfl⟩ := readSource_error hread
    exact Or.inr ⟨_, by rw [outlineFile, parseFile, hread]; rfl, names_file p.text reason⟩
  | ok text =>
    have hparse : fs.outlineFile parser p =
        (Source.parse parser text true (some p.text)).bind Source.outline := by
      rw [outlineFile, parseFile, hread]
      rfl
    cases herror : (parser text).label.hasError with
    | true =>
      rw [Source.parse_of_error herror] at hparse
      exact Or.inr ⟨_, hparse, names_syntaxComplaint rfl hp⟩
    | false =>
      rw [Source.parse_of_clear herror] at hparse
      exact Or.inl ⟨_, hparse.trans (Source.outline_of_clear herror)⟩

def recordOf (fs : FileSystem) (parser : Parser) (p : Path) : Record :=
  match fs.outlineFile parser p with
  | .ok o => ⟨p.text, some o, none⟩
  | .error e => ⟨p.text, none, some e.message⟩

theorem scanFile_eq (hp : p.text ≠ "") : fs.scanFile parser p = .ok (fs.recordOf parser p) := by
  rw [scanFile, recordOf]
  rcases fs.outlineFile_cases parser hp with ⟨o, ho⟩ | ⟨e, he, _⟩
  · rw [ho]
  · rw [he]
    rfl

/-- What the record of a file says: its outline, or else what is wrong with it. -/
structure Describes (fs : FileSystem) (parser : Parser) (p : Path) (r : Record) : Prop where
  file : r.file = p.text
  outline_or_error :
    (∃ o, fs.outlineFile parser p = .ok o ∧ r.outline = some o ∧ r.error = none) ∨
      ∃ e, fs.outlineFile parser p = .error (.source e) ∧ r.outline = none ∧
        r.error = some e.message ∧ Names p.text e.message

theorem describes_recordOf (hp : p.text ≠ "") : fs.Describes parser p (fs.recordOf parser p) := by
  rcases fs.outlineFile_cases parser hp with ⟨o, ho⟩ | ⟨e, he, hnames⟩
  · have hrecord : fs.recordOf parser p = ⟨p.text, some o, none⟩ := by rw [recordOf, ho]
    rw [hrecord]
    exact ⟨rfl, Or.inl ⟨o, ho, rfl, rfl⟩⟩
  · have hrecord : fs.recordOf parser p = ⟨p.text, none, some e.message⟩ := by
      rw [recordOf, he]
      rfl
    rw [hrecord]
    exact ⟨rfl, Or.inr ⟨e, he, rfl, rfl, hnames⟩⟩

theorem Describes.ok_eq {r : Record} (h : fs.Describes parser p r) : r.ok = r.outline.isSome := by
  rw [Record.ok]
  rcases h.outline_or_error with ⟨o, _, houtline, herror⟩ | ⟨e, _, houtline, herror, _⟩
  · rw [houtline, herror]
    rfl
  · rw [houtline, herror]
    rfl

end Record

/-! ## All records -/

section Scan

variable {fs : FileSystem} {host : Host} {parser : Parser} {root : Path} {endings : List String}
  {jobs : Int} {paths : List Path} {records : List Record} {f : Failure}

theorem inParallel_eq_true_iff : inParallel jobs paths = true ↔ 1 < jobs ∧ 1 < paths.length := by
  rw [inParallel, Bool.and_eq_true, decide_eq_true_eq, decide_eq_true_eq]

theorem scanPaths_of_no_workers (hparallel : inParallel jobs paths = true)
    (hstart : host.start jobs = .error f) : fs.scanPaths host parser jobs paths = .error f := by
  rw [scanPaths, if_pos hparallel, hstart]
  rfl

/-- Whether files are handed over by their paths or by the texts of them, the records
are those of the files. -/
theorem scanPaths_eq (fs : FileSystem) (parser : Parser)
    (hstart : inParallel jobs paths = true → host.start jobs = .ok ())
    (hpaths : ∀ p ∈ paths, ∀ part ∈ p.parts, Path.ProperPart part) :
    fs.scanPaths host parser jobs paths = .ok (paths.map (fs.recordOf parser)) := by
  have hfile : ∀ p ∈ paths, fs.scanFile parser p = .ok (fs.recordOf parser p) :=
    fun p hp => scanFile_eq (Path.text_ne_empty (hpaths p hp))
  rw [scanPaths]
  split
  · rename_i hparallel
    refine bind_eq_ok_iff.mpr ⟨(), hstart hparallel, ?_⟩
    rw [List.mapM_map]
    apply mapM_eq_ok_map
    intro p hp
    rw [Function.comp_apply, scanNamed, Path.ofText_text (hpaths p hp)]
    exact hfile p hp
  · exact mapM_eq_ok_map hfile

theorem scanTree_of_not_listed {e : OsError} (h : fs.listFiles root endings = .error e) :
    fs.scanTree host parser root endings jobs = .error (.refused e) := by
  rw [scanTree, h]

/-- A scan fails as the listing does, or it lacks workers, or it has the records of what
is listed. -/
theorem scanTree_cases (host : Host) (parser : Parser) (endings : List String) (jobs : Int)
    (hnamed : fs.WellNamed) (hroot : ∀ part ∈ root.parts, Path.ProperPart part) :
    (∃ e, fs.listFiles root endings = .error e ∧
      fs.scanTree host parser root endings jobs = .error (.refused e)) ∨
    (∃ paths f, fs.listFiles root endings = .ok paths ∧ inParallel jobs paths = true ∧
      host.start jobs = .error f ∧ fs.scanTree host parser root endings jobs = .error f) ∨
    ∃ paths, fs.listFiles root endings = .ok paths ∧
      (inParallel jobs paths = true → host.start jobs = .ok ()) ∧
      (∀ p ∈ paths, ∀ part ∈ p.parts, Path.ProperPart part) ∧
      fs.scanTree host parser root endings jobs = .ok (paths.map (fs.recordOf parser)) := by
  cases hlist : fs.listFiles root endings with
  | error e => exact Or.inl ⟨e, rfl, scanTree_of_not_listed hlist⟩
  | ok paths =>
    right
    have hproper := properPart_of_mem_listFiles hnamed hroot hlist
    have hscan : fs.scanTree host parser root endings jobs =
        fs.scanPaths host parser jobs paths := by rw [scanTree, hlist]
    rw [hscan]
    cases hparallel : inParallel jobs paths with
    | false =>
      have hstart : inParallel jobs paths = true → host.start jobs = .ok () := by simp [hparallel]
      exact Or.inr ⟨paths, rfl, hstart, hproper, fs.scanPaths_eq parser hstart hproper⟩
    | true =>
      cases hstart : host.start jobs with
      | error f => exact Or.inl ⟨paths, f, rfl, hparallel, rfl,
          scanPaths_of_no_workers hparallel hstart⟩
      | ok => exact Or.inr ⟨paths, rfl, fun _ => rfl, hproper,
          fs.scanPaths_eq parser (fun _ => hstart) hproper⟩

/-! ## Batch scans -/

/-- Without files that have to be handed over, or with workers, there are records. -/
theorem exists_scanPaths (parser : Parser)
    (hstart : inParallel jobs paths = true → host.start jobs = .ok ())
    (hpaths : ∀ p ∈ paths, p.text ≠ "") :
    ∃ records, fs.scanPaths host parser jobs paths = .ok records := by
  have hmapM : ∀ {α : Type} (f : α → Except Failure Record) (xs : List α),
      (∀ x ∈ xs, ∃ r, f x = .ok r) → ∃ rs, xs.mapM f = .ok rs := by
    intro α f xs hxs
    cases hresult : xs.mapM f with
    | ok rs => exact ⟨rs, rfl⟩
    | error e =>
      obtain ⟨x, hx, hfail⟩ := exists_of_mapM_error hresult
      obtain ⟨r, hr⟩ := hxs x hx
      cases hfail.symm.trans hr
  rw [scanPaths]
  split
  · rename_i hparallel
    obtain ⟨records, hrecords⟩ := hmapM (fs.scanNamed parser) (paths.map Path.text) fun name _ =>
      ⟨_, scanFile_eq (Path.text_ne_empty (Path.properPart_ofText name))⟩
    exact ⟨records, bind_eq_ok_iff.mpr ⟨(), hstart hparallel, hrecords⟩⟩
  · exact hmapM _ _ fun p hp => ⟨_, scanFile_eq (hpaths p hp)⟩

/-- Why a batch scan ends after the listing and before the output: the console cannot
show something, or workers cannot be had. -/
inductive Stalls (fs : FileSystem) (host : Host) (parser : Parser) (jobs : Int)
    (paths : List Path) : Failure → Prop where
  | found {f : Failure} (h : host.display (foundLine paths.length) = .error f) :
      Stalls fs host parser jobs paths f
  | activity {f : Failure} {seen : String}
      (hfound : host.display (foundLine paths.length) = .ok seen)
      (h : host.display (FileSystem.activity jobs paths) = .error f) :
      Stalls fs host parser jobs paths f
  | workers {f : Failure} {seen line : String}
      (hfound : host.display (foundLine paths.length) = .ok seen)
      (hline : host.display (FileSystem.activity jobs paths) = .ok line)
      (hparallel : inParallel jobs paths = true) (h : host.start jobs = .error f) :
      Stalls fs host parser jobs paths f
  | warnings {f : Failure} {seen line : String} {records : List Record}
      (hfound : host.display (foundLine paths.length) = .ok seen)
      (hline : host.display (FileSystem.activity jobs paths) = .ok line)
      (hrecords : fs.scanPaths host parser jobs paths = .ok records)
      (h : host.displayAll (FileSystem.warnings records) = .error f) :
      Stalls fs host parser jobs paths f

/-- It makes no difference that a line about workers is shown before they start, and a bar
goes after the last file was scanned: without workers there are records in any case. -/
theorem scanShown_eq (fs : FileSystem) (host : Host) (parser : Parser) (jobs : Int)
    (hpaths : ∀ p ∈ paths, p.text ≠ "") :
    fs.scanShown host parser jobs paths = do
      let found ← host.display (foundLine paths.length)
      let seen ← host.display (activity jobs paths)
      let records ← fs.scanPaths host parser jobs paths
      let rest ← host.displayAll (warnings records)
      return (records, found ++ seen ++ rest) := by
  rw [scanShown]
  cases hparallel : inParallel jobs paths with
  | true => rfl
  | false =>
    have hstart : inParallel jobs paths = true → host.start jobs = .ok () := by simp [hparallel]
    obtain ⟨records, hrecords⟩ := fs.exists_scanPaths parser hstart hpaths
    rw [hrecords]
    cases host.display (activity jobs paths) <;> rfl

theorem scanShown_error_iff (hpaths : ∀ p ∈ paths, p.text ≠ "") :
    fs.scanShown host parser jobs paths = .error f ↔ fs.Stalls host parser jobs paths f := by
  rw [scanShown_eq fs host parser jobs hpaths]
  constructor
  · intro h
    rcases bind_eq_error_iff.mp h with hfound | ⟨seen, hfound, h⟩
    · exact .found hfound
    rcases bind_eq_error_iff.mp h with hline | ⟨line, hline, h⟩
    · exact .activity hfound hline
    rcases bind_eq_error_iff.mp h with hrecords | ⟨records, hrecords, h⟩
    · by_cases hstart : inParallel jobs paths = true → host.start jobs = .ok ()
      · obtain ⟨records, hok⟩ := fs.exists_scanPaths parser hstart hpaths
        cases hok.symm.trans hrecords
      · obtain ⟨hparallel, hnot⟩ := Classical.not_imp.mp hstart
        cases hfail : host.start jobs with
        | ok => exact absurd hfail hnot
        | error g =>
          obtain rfl := Except.error.inj
            ((scanPaths_of_no_workers hparallel hfail).symm.trans hrecords)
          exact .workers hfound hline hparallel hfail
    · rcases bind_eq_error_iff.mp h with hrest | ⟨_, _, h⟩
      · exact .warnings hfound hline hrecords hrest
      · cases h
  · intro h
    cases h with
    | found h =>
      rw [h]
      rfl
    | activity hfound h =>
      rw [hfound, h]
      rfl
    | workers hfound hline hparallel h =>
      rw [hfound, hline, scanPaths_of_no_workers hparallel h]
      rfl
    | warnings hfound hline hrecords h =>
      rw [hfound, hline, hrecords]
      simp only [bind, Except.bind, h]

theorem scanPaths_of_scanShown {seen : String}
    (h : fs.scanShown host parser jobs paths = .ok (records, seen)) :
    fs.scanPaths host parser jobs paths = .ok records := by
  rw [scanShown] at h
  obtain ⟨found, _, h⟩ := bind_eq_ok_iff.mp h
  split at h
  · obtain ⟨line, _, h⟩ := bind_eq_ok_iff.mp h
    obtain ⟨records', hrecords, h⟩ := bind_eq_ok_iff.mp h
    obtain ⟨rest, _, h⟩ := bind_eq_ok_iff.mp h
    obtain rfl : records' = records := (Prod.mk.inj (Except.ok.inj h)).1
    exact hrecords
  · obtain ⟨records', hrecords, h⟩ := bind_eq_ok_iff.mp h
    obtain ⟨line, _, h⟩ := bind_eq_ok_iff.mp h
    obtain ⟨rest, _, h⟩ := bind_eq_ok_iff.mp h
    obtain rfl : records' = records := (Prod.mk.inj (Except.ok.inj h)).1
    exact hrecords

/-- Where the console shows everything, whoever has records shows them. -/
theorem exists_scanShown (hshows : ∀ shown, ∃ text, host.render shown = .ok text)
    (h : fs.scanPaths host parser jobs paths = .ok records) :
    ∃ seen, fs.scanShown host parser jobs paths = .ok (records, seen) := by
  obtain ⟨found, hfound⟩ := Host.exists_display hshows (foundLine paths.length)
  obtain ⟨line, hline⟩ := Host.exists_display hshows (activity jobs paths)
  obtain ⟨rest, hrest⟩ := Host.exists_displayAll hshows (warnings records)
  refine ⟨found ++ line ++ rest, ?_⟩
  simp only [scanShown, hfound, hline, h, bind, Except.bind, hrest]
  split <;> rfl

variable {settings : Settings} {out : Option Path} {layout : Record.Layout}

/-- What a batch scan that ends has done with the records: it counted those without an
error, and printed them or wrote them to its output. -/
structure Reported (fs : FileSystem) (settings : Settings) (out : Option Path)
    (layout : Record.Layout) (records : List Record) (report : ScanReport) (fs' : FileSystem) :
    Prop where
  count : report.count = records.countP Record.ok
  printed : out = none → report.printed = Record.printedText layout records ∧ fs' = fs
  written : ∀ p, out = some p → report.printed = "" ∧
    fs.writeThrough settings p (Utf8.encode (Record.fileText layout records)) = (.ok (), fs')

theorem reported_of_runScan {report : ScanReport} {fs' : FileSystem}
    (h : fs.runScan host settings parser root out layout endings jobs = (.ok report, fs')) :
    ∃ records, fs.scanTree host parser root endings jobs = .ok records ∧
      fs.Reported settings out layout records report fs' := by
  rw [runScan] at h
  rw [scanTree]
  cases hlist : fs.listFiles root endings with
  | error e =>
    rw [hlist] at h
    cases (Prod.mk.inj h).1
  | ok paths =>
    simp only [hlist] at h
    cases hshown : fs.scanShown host parser jobs paths with
    | error e =>
      rw [hshown] at h
      cases (Prod.mk.inj h).1
    | ok shown =>
      obtain ⟨records, seen⟩ := shown
      rw [hshown] at h
      refine ⟨records, scanPaths_of_scanShown hshown, ?_⟩
      cases out with
      | none =>
        obtain ⟨hreport, rfl⟩ := Prod.mk.inj h
        obtain rfl := Except.ok.inj hreport
        exact ⟨rfl, fun _ => ⟨rfl, rfl⟩, nofun⟩
      | some p =>
        simp only at h
        split at h
        · cases (Prod.mk.inj h).1
        · rename_i written hwrite
          obtain ⟨hreport, rfl⟩ := Prod.mk.inj h
          obtain rfl := Except.ok.inj hreport
          refine ⟨rfl, nofun, fun q hq => ?_⟩
          obtain rfl := Option.some.inj hq
          exact ⟨rfl, hwrite⟩

theorem text_ne_empty_of_mem_listFiles (hroot : root.anchor ≠ .relative)
    (h : fs.listFiles root endings = .ok paths) : ∀ p ∈ paths, p.text ≠ "" := by
  have hlisted : ∀ p ∈ paths, p.anchor ≠ .relative :=
    forall_mem_listTo (fun _ _ hdir _ => hdir) h hroot
  intro p hp he
  have hchars := congrArg String.toList he
  cases hanchor : p.anchor with
  | relative => exact hlisted p hp hanchor
  | root => simp [Path.text, hanchor, Anchor.text] at hchars
  | doubleRoot => simp [Path.text, hanchor, Anchor.text] at hchars

theorem runScan_of_not_listed {e : OsError} (h : fs.listFiles root endings = .error e) :
    fs.runScan host settings parser root out layout endings jobs = (.error (.refused e), fs) := by
  rw [runScan, h]

theorem runScan_of_not_shown (hlist : fs.listFiles root endings = .ok paths)
    (h : fs.scanShown host parser jobs paths = .error f) :
    fs.runScan host settings parser root out layout endings jobs = (.error f, fs) := by
  rw [runScan, hlist]
  simp only [h]

theorem runScan_of_unwritable {q : Path} {cause : OsCause} {shown : List Record × String}
    (hlist : fs.listFiles root endings = .ok paths)
    (hshown : fs.scanShown host parser jobs paths = .ok shown) (hq : fs.Unwritable q cause) :
    fs.runScan host settings parser root (some q) layout endings jobs =
      (.error (.refused ⟨cause, q.text, none⟩), fs) := by
  rw [runScan, hlist]
  simp only [hshown, hq.writeThrough_eq]

/-- A batch scan ends, unless it cannot list the files, shows no more, or cannot write its
output. -/
theorem runScan_cases (hs : fs.Sound) (host : Host) (settings : Settings) (parser : Parser)
    (root : Path) (out : Option Path) (layout : Record.Layout) (endings : List String)
    (jobs : Int) :
    (∃ e, fs.listFiles root endings = .error e) ∨
    (∃ paths f, fs.listFiles root endings = .ok paths ∧
      fs.scanShown host parser jobs paths = .error f) ∨
    (∃ paths shown q cause, fs.listFiles root endings = .ok paths ∧
      fs.scanShown host parser jobs paths = .ok shown ∧ out = some q ∧ fs.Unwritable q cause) ∨
    ∃ report fs',
      fs.runScan host settings parser root out layout endings jobs = (.ok report, fs') := by
  cases hlist : fs.listFiles root endings with
  | error e => exact Or.inl ⟨e, rfl⟩
  | ok paths =>
    right
    cases hshown : fs.scanShown host parser jobs paths with
    | error f => exact Or.inl ⟨paths, f, rfl, hshown⟩
    | ok shown =>
      right
      cases out with
      | none => exact Or.inr ⟨_, _, by simp only [runScan, hlist, hshown]; rfl⟩
      | some q =>
        rcases writeThrough_cases hs settings q
            (Utf8.encode (Record.fileText layout shown.1)) with ⟨cause, hcause⟩ | ⟨fs', hok⟩
        · exact Or.inl ⟨paths, shown, q, cause, rfl, hshown, rfl, hcause⟩
        · exact Or.inr ⟨_, _, by simp only [runScan, hlist, hshown, hok]; rfl⟩

theorem Sound.runScan (hs : fs.Sound) :
    (fs.runScan host settings parser root out layout endings jobs).2.Sound := by
  rw [FileSystem.runScan]
  cases fs.listFiles root endings with
  | error e => exact hs
  | ok paths =>
    simp only
    cases fs.scanShown host parser jobs paths with
    | error f => exact hs
    | ok shown =>
      cases out with
      | none => exact hs
      | some q =>
        have hwritten :=
          hs.writeThrough settings q (Utf8.encode (Record.fileText layout shown.1))
        simp only
        generalize fs.writeThrough settings q (Utf8.encode (Record.fileText layout shown.1)) =
          result at hwritten ⊢
        obtain ⟨_ | _, fs'⟩ := result
        · exact hwritten
        · exact hwritten

theorem count_of_runScan {report : ScanReport} (hnamed : fs.WellNamed)
    (hroot : ∀ part ∈ root.parts, Path.ProperPart part)
    (h : (fs.runScan host settings parser root out layout endings jobs).1 = .ok report) :
    ∃ records, fs.scanTree host parser root endings jobs = .ok records ∧
      report.count = records.countP fun r => r.outline.isSome := by
  obtain ⟨records, hrecords, hreported⟩ := reported_of_runScan (Prod.ext h rfl)
  refine ⟨records, hrecords, hreported.count.trans (List.countP_congr ?_)⟩
  intro r hr
  rcases scanTree_cases host parser endings jobs hnamed hroot with
    ⟨_, _, hscan⟩ | ⟨_, _, _, _, _, hscan⟩ | ⟨paths, _, _, hproper, hscan⟩
  · cases hscan.symm.trans hrecords
  · cases hscan.symm.trans hrecords
  · obtain rfl := Except.ok.inj (hscan.symm.trans hrecords)
    obtain ⟨p, hp, rfl⟩ := List.mem_map.mp hr
    rw [(describes_recordOf (Path.text_ne_empty (hproper p hp))).ok_eq]

/-! ## Other bytes in one file -/

theorem readBytes_content {loc : Location} {mode : Nat} {bytes : Bytes} {p : Path}
    (bytes' : Bytes) (hfile : fs.get? loc = some (.file mode bytes))
    (hp : ∀ e, fs.find p ≠ .ok (loc, e)) :
    (fs.put loc (.file mode bytes')).readBytes p = fs.readBytes p := by
  rcases find_content bytes' hfile p with hsame | ⟨hfind, _⟩
  · rw [readBytes, readBytes, hsame]
  · exact absurd hfind (hp _)

theorem recordOf_content {loc : Location} {mode : Nat} {bytes : Bytes} {p : Path}
    (bytes' : Bytes) (hfile : fs.get? loc = some (.file mode bytes))
    (hp : ∀ e, fs.find p ≠ .ok (loc, e)) :
    (fs.put loc (.file mode bytes')).recordOf parser p = fs.recordOf parser p := by
  simp only [recordOf, outlineFile, parseFile, readSource, readBytes_content bytes' hfile hp]

theorem file_recordOf (fs : FileSystem) (parser : Parser) (p : Path) :
    (fs.recordOf parser p).file = p.text := by
  rw [recordOf]
  split <;> rfl

/-- The listing and the workers do not depend on the bytes of a file, so a scan that fails
fails in the same way. -/
theorem scanTree_content_error {loc : Location} {mode : Nat} {bytes : Bytes}
    (hnamed : fs.WellNamed) (hroot : ∀ part ∈ root.parts, Path.ProperPart part) (bytes' : Bytes)
    (hfile : fs.get? loc = some (.file mode bytes))
    (h : fs.scanTree host parser root endings jobs = .error f) :
    (fs.put loc (.file mode bytes')).scanTree host parser root endings jobs = .error f := by
  have hsame := listFiles_content bytes' hfile root endings
  rcases scanTree_cases host parser endings jobs hnamed hroot with
    ⟨e, hlist, hscan⟩ | ⟨paths, f', hlist, hparallel, hstart, hscan⟩ | ⟨_, _, _, _, hscan⟩
  · exact (scanTree_of_not_listed (hsame.trans hlist)).trans (hscan.symm.trans h)
  · rw [scanTree, hsame.trans hlist]
    exact (scanPaths_of_no_workers hparallel hstart).trans (hscan.symm.trans h)
  · cases hscan.symm.trans h

theorem scanTree_content {loc : Location} {mode : Nat} {bytes : Bytes}
    (hnamed : fs.WellNamed) (hroot : ∀ part ∈ root.parts, Path.ProperPart part) (bytes' : Bytes)
    (hfile : fs.get? loc = some (.file mode bytes)) (hlist : fs.listFiles root endings = .ok paths)
    (h : fs.scanTree host parser root endings jobs = .ok records) :
    records = paths.map (fs.recordOf parser) ∧
      (fs.put loc (.file mode bytes')).scanTree host parser root endings jobs =
        .ok (paths.map ((fs.put loc (.file mode bytes')).recordOf parser)) := by
  rcases scanTree_cases host parser endings jobs hnamed hroot with
    ⟨_, _, hscan⟩ | ⟨_, _, _, _, _, hscan⟩ | ⟨listed, hlisted, hstart, hproper, hscan⟩
  · cases hscan.symm.trans h
  · cases hscan.symm.trans h
  · obtain rfl : listed = paths := Except.ok.inj (hlisted.symm.trans hlist)
    refine ⟨Except.ok.inj (h.symm.trans hscan), ?_⟩
    rw [scanTree, (listFiles_content bytes' hfile root endings).trans hlist]
    exact scanPaths_eq _ parser hstart hproper

end Scan

/-- Scanning a directory. Unless a name ends the listing, or several files are to be handed
to workers that cannot be had, there is one record for every file listed, in that order,
each with the outline of its file or with an error that names the file; with workers, and
where no link leads to a name that is too long and the paths are short, this is what
happens. A batch scan that ends counts the records with an outline. Other bytes in a file
`f` change no listing, no failure, no file field and no record but those whose path leads
to `f`. -/
theorem scanTree_isolates_files (fs : FileSystem) (hs : fs.Sound) (hnamed : fs.WellNamed)
    (host : Host) (parser : Parser) (root : Path)
    (hroot : ∀ part ∈ root.parts, Path.ProperPart part) (endings : List String) (jobs : Int) :
    let scan := fs.scanTree host parser root endings jobs
    ((∃ dir name, fs.EndsListing endings (leadBytes root) dir name ∧
        fs.listFiles root endings = .error ⟨.nameTooLong, (dir.child name).text, none⟩ ∧
        scan = .error (.refused ⟨.nameTooLong, (dir.child name).text, none⟩)) ∨
      (∃ paths f, fs.listFiles root endings = .ok paths ∧ 1 < jobs ∧ 1 < paths.length ∧
        host.start jobs = .error f ∧ scan = .error f) ∨
      ∃ paths records, fs.listFiles root endings = .ok paths ∧ scan = .ok records ∧
        List.Forall₂ (fs.Describes parser) paths records) ∧
    (fs.NamesOnce → fs.ShortTargets → fs.ShortPaths root →
      (1 < jobs → host.start jobs = .ok ()) → ∃ records, scan = .ok records) ∧
    (∀ settings out layout report,
      (fs.runScan host settings parser root out layout endings jobs).1 = .ok report →
      ∃ records, scan = .ok records ∧ report.count = records.countP fun r => r.outline.isSome) ∧
    ∀ f mode bytes bytes', fs.get? f = some (.file mode bytes) →
      let fs' := fs.put f (.file mode bytes')
      fs'.listFiles root endings = fs.listFiles root endings ∧
      (∀ e, scan = .error e → fs'.scanTree host parser root endings jobs = .error e) ∧
      ∀ paths records, fs.listFiles root endings = .ok paths → scan = .ok records →
        ∃ records', fs'.scanTree host parser root endings jobs = .ok records' ∧
          records'.map Record.file = records.map Record.file ∧
          ∀ (i : Nat) p, paths[i]? = some p → (∀ e, fs.find p ≠ .ok (f, e)) →
            records'[i]? = records[i]? := by
  intro scan
  refine ⟨?_, ?_, fun _ _ _ _ => count_of_runScan hnamed hroot, ?_⟩
  · rcases scanTree_cases host parser endings jobs hnamed hroot with
      ⟨e, hlist, hscan⟩ | ⟨paths, f, hlist, hparallel, hstart, hscan⟩ |
        ⟨paths, hlist, _, hproper, hscan⟩
    · obtain ⟨dir, name, hend, rfl⟩ := exists_endsListing hlist
      exact Or.inl ⟨dir, name, hend, hlist, hscan⟩
    · obtain ⟨hjobs, hlen⟩ := inParallel_eq_true_iff.mp hparallel
      exact Or.inr (Or.inl ⟨paths, f, hlist, hjobs, hlen, hstart, hscan⟩)
    · refine Or.inr (Or.inr ⟨paths, _, hlist, hscan, ?_⟩)
      rw [List.forall₂_map_right_iff, List.forall₂_same]
      exact fun p hp => describes_recordOf (Path.text_ne_empty (hproper p hp))
  · intro honce htargets hpaths hworkers
    obtain ⟨paths, hlist⟩ := exists_listFiles hs hnamed honce htargets hpaths endings
    have hproper := properPart_of_mem_listFiles hnamed hroot hlist
    have hstart : inParallel jobs paths = true → host.start jobs = .ok () :=
      fun hparallel => hworkers (inParallel_eq_true_iff.mp hparallel).1
    refine ⟨_, Eq.trans ?_ (fs.scanPaths_eq parser hstart hproper)⟩
    show fs.scanTree host parser root endings jobs = _
    rw [scanTree, hlist]
  · intro f mode bytes bytes' hfile fs'
    refine ⟨listFiles_content bytes' hfile root endings,
      fun _ hscan => scanTree_content_error hnamed hroot bytes' hfile hscan, ?_⟩
    intro paths records hlist hscan
    obtain ⟨hrecords, hrecords'⟩ := scanTree_content hnamed hroot bytes' hfile hlist hscan
    refine ⟨paths.map (fs'.recordOf parser), hrecords', ?_, ?_⟩
    · rw [hrecords, List.map_map, List.map_map]
      apply List.map_congr_left
      intro p _
      exact (fs'.file_recordOf parser p).trans (fs.file_recordOf parser p).symm
    · intro i p hp hleads
      rw [hrecords, List.getElem?_map, List.getElem?_map, hp]
      exact congrArg some (recordOf_content bytes' hfile hleads)

def emptyTree : Node :=
  .mk ⟨"program", 0, 0, true, false, false, false, none⟩ []

def brokenFile : FileSystem :=
  ofEntries [(["A.java"], .file 0o644 []), (["B.java"], .file 0o644 [0xFF])]

/-- A file that cannot be decoded has a record of its own, and once it is mended the
other record is the same. -/
theorem scan_with_broken_file :
    let scan := fun fs : FileSystem =>
      fs.scanTree .plain (fun _ => emptyTree) ⟨.relative, []⟩ defaultEndings 1
    let reason := "'utf-8' codec can't decode byte 0xff in position 0: invalid start byte"
    scan brokenFile =
      .ok [⟨"A.java", some ⟨[]⟩, none⟩, ⟨"B.java", none, some ("B.java: " ++ reason)⟩] ∧
    ∃ r, scan (brokenFile.put ["B.java"] (.file 0o644 [])) =
      .ok [⟨"A.java", some ⟨[]⟩, none⟩, r] ∧ r.file = "B.java" := by
  intro scan reason
  have hs : brokenFile.Sound := sound_of_forall (by decide) rfl (by decide)
  have hnamed : brokenFile.WellNamed := ⟨by decide, by decide⟩
  have hnames : brokenFile.sortedNames 2 ⟨.relative, []⟩ = ["A.java", "B.java"] :=
    List.mergeSort_of_pairwise (by decide +kernel)
  have hlist : brokenFile.listFiles ⟨.relative, []⟩ defaultEndings =
      .ok [⟨.relative, ["A.java"]⟩, ⟨.relative, ["B.java"]⟩] := by
    rw [listFiles, show brokenFile.depthBound = 81 + 1 from rfl,
      show leadBytes ⟨.relative, []⟩ = 2 from rfl, listTo, hnames]
    decide +kernel
  have hscan : scan brokenFile =
      .ok [⟨"A.java", some ⟨[]⟩, none⟩, ⟨"B.java", none, some ("B.java: " ++ reason)⟩] := by
    show brokenFile.scanTree .plain (fun _ => emptyTree) ⟨.relative, []⟩ defaultEndings 1 = _
    rw [scanTree, hlist]
    decide +kernel
  have hother : brokenFile.find ⟨.relative, ["A.java"]⟩ = .ok (["A.java"], .file 0o644 []) := by
    decide +kernel
  obtain ⟨_, _, _, hbytes⟩ := scanTree_isolates_files brokenFile hs hnamed .plain
    (fun _ => emptyTree) ⟨.relative, []⟩ (by decide) defaultEndings 1
  obtain ⟨_, _, hrecords⟩ := hbytes ["B.java"] 0o644 [0xFF] [] rfl
  obtain ⟨records, hmended, hfiles, hsame⟩ := hrecords _ _ hlist hscan
  have hfirst := hsame 0 _ rfl (by rw [hother]; simp)
  have hlength : records.length = 2 := by simpa using congrArg List.length hfiles
  obtain ⟨a, b, rfl⟩ := List.length_eq_two.mp hlength
  obtain rfl := Option.some.inj hfirst
  have hfile : b.file = "B.java" := by simpa using hfiles
  exact ⟨hscan, b, hmended, hfile⟩

def besideFarLink : FileSystem :=
  ofEntries [(["A.java"], .file 0o644 []), (["B.java"], .link longName)]

/-- A link that cannot be followed ends the scan of its directory, although the other
file has a record. -/
theorem scan_ended_by_link :
    let root : Path := ⟨.relative, []⟩
    besideFarLink.Sound ∧ besideFarLink.WellNamed ∧
      besideFarLink.scanFile (fun _ => emptyTree) (root.child "A.java") =
        .ok ⟨"A.java", some ⟨[]⟩, none⟩ ∧
      ∀ records,
        besideFarLink.scanTree .plain (fun _ => emptyTree) root defaultEndings 1 ≠ .ok records := by
  intro root
  refine ⟨sound_of_forall (by decide) rfl (by decide), ⟨by decide, by decide⟩,
    by decide +kernel, ?_⟩
  have hopened : besideFarLink.opened? 2 root = some [] := by decide +kernel
  have hfind : besideFarLink.find (root.child "B.java") = .error .nameTooLong :=
    find_of_farLink rfl (by decide +kernel) ⟨by decide, by decide, by decide⟩ rfl
  have hends : besideFarLink.EndsListing defaultEndings 2 root "B.java" :=
    ⟨mem_sortedNames.mpr ⟨[], hopened, by decide +kernel⟩, by decide +kernel,
      entersDirectory_of_find_error hopened rfl hfind, hfind⟩
  obtain ⟨e, he⟩ := hends.listTo_error 81
  have hlist : besideFarLink.listFiles root defaultEndings = .error e := he
  intro records hrecords
  rw [scanTree_of_not_listed hlist] at hrecords
  cases hrecords

end FileSystem

end ClassOutline
