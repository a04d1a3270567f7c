import ClassOutline.Proofs.FileSystem.Coverage
import ClassOutline.Proofs.Scan.Records

/-!
# The number of jobs changes no scan

With more than one job a file is handed over by the text of its path and the path is
read again. Nothing is lost on the way: what a text is read as has a text of its own that
reads back, and the names put behind it by the listing are parts that the text keeps
apart. So every file has the same record, whoever takes it.
-/

namespace ClassOutline

/-- Putting names behind a text, one after the other, and reading the result is going on
from what the text is read as. -/
theorem Path.ofText_foldl_entryText (text : String) {names : List String}
    (h : ∀ name ∈ names, ProperPart name) :
    ofText (names.foldl entryText text) = (ofText text).extend names := by
  induction names generalizing text with
  | nil => exact (extend_nil _).symm
  | cons name names ih =>
    have hname := h name (List.mem_cons_self ..)
    rw [List.foldl_cons, ih _ fun x hx => h x (List.mem_cons_of_mem _ hx),
      ofText_entryText hname, extend_cons]

namespace FileSystem

variable {fs : FileSystem} {root : Path} {endings : List String}

theorem scanNamed_text {p : Path} (parser : Parser)
    (h : ∀ part ∈ p.parts, Path.ProperPart part) :
    fs.scanNamed parser p.text = fs.scanFile parser p := by
  rw [scanNamed, Path.ofText_text h]

theorem start_eq_ok_iff {host : Host} {jobs : Int} :
    host.start jobs = .ok () ↔ jobs ≤ maxWorkers ∧ host.workers jobs = .ok () := by
  rw [Host.start]
  split
  · rename_i hmany
    exact iff_of_false nofun fun h => absurd hmany (Int.not_lt.mpr h.1)
  · rename_i hfew
    cases host.workers jobs <;> simp [Except.mapError, Int.not_lt.mp hfew]

theorem scanTree_jobs (host : Host) (parser : Parser) (hnamed : fs.WellNamed)
    (hroot : ∀ part ∈ root.parts, Path.ProperPart part) {jobs : Int}
    (hstart : ∀ paths, fs.listFiles root endings = .ok paths → 1 < jobs → 1 < paths.length →
      host.start jobs = .ok ()) :
    fs.scanTree host parser root endings jobs = fs.scanTree host parser root endings 1 := by
  cases hlist : fs.listFiles root endings with
  | error e => rw [scanTree_of_not_listed hlist, scanTree_of_not_listed hlist]
  | ok paths =>
    have hproper := properPart_of_mem_listFiles hnamed hroot hlist
    have hmany : inParallel jobs paths = true → host.start jobs = .ok () := by
      intro hparallel
      obtain ⟨hjobs, hlen⟩ := inParallel_eq_true_iff.mp hparallel
      exact hstart paths hlist hjobs hlen
    have hone : inParallel 1 paths = true → host.start 1 = .ok () := by simp [inParallel]
    simp only [scanTree, hlist]
    rw [scanPaths_eq fs parser hmany hproper, scanPaths_eq fs parser hone hproper]

theorem Reported.unique {settings : Settings} {out : Option Path} {layout : Record.Layout}
    {records : List Record} {report other : ScanReport} {fs' fs'' : FileSystem}
    (h : fs.Reported settings out layout records report fs')
    (h' : fs.Reported settings out layout records other fs'') :
    report.count = other.count ∧ report.printed = other.printed ∧ fs' = fs'' := by
  refine ⟨h.count.trans h'.count.symm, ?_⟩
  cases out with
  | none =>
    obtain ⟨hprinted, rfl⟩ := h.printed rfl
    obtain ⟨hprinted', rfl⟩ := h'.printed rfl
    exact ⟨hprinted.trans hprinted'.symm, rfl⟩
  | some p =>
    obtain ⟨hprinted, hwrite⟩ := h.written p rfl
    obtain ⟨hprinted', hwrite'⟩ := h'.written p rfl
    exact ⟨hprinted.trans hprinted'.symm, (Prod.mk.inj (hwrite.symm.trans hwrite')).2⟩

/-- A scan is the same with any number of jobs, whatever text the root is read from, if
there are workers where several files are handed to several: it fails as with one job, or
it has the same records in the same order, and a batch scan counts, prints and writes the
same. Workers that cannot be had are what it fails with else. For every file listed, the
record by the text of the path is the record by the path. Reading the text of a path read
gives that path again, and names put behind a text are parts behind those of the text. -/
theorem scanTree_same_for_any_jobs (fs : FileSystem) (hnamed : fs.WellNamed) (host : Host)
    (parser : Parser) (text : String) (endings : List String) (jobs : Int) :
    let root := Path.ofText text
    let scan := fs.scanTree host parser root endings
    Path.ofText root.text = root ∧
    (∀ names, (∀ name ∈ names, Path.ProperPart name) →
      Path.ofText (names.foldl Path.entryText root.text) = root.extend names) ∧
    (∀ paths, fs.listFiles root endings = .ok paths → ∀ p ∈ paths,
      fs.scanNamed parser p.text = fs.scanFile parser p) ∧
    (host.start jobs = .ok () ↔ jobs ≤ maxWorkers ∧ host.workers jobs = .ok ()) ∧
    ((∀ paths, fs.listFiles root endings = .ok paths → 1 < jobs → 1 < paths.length →
      host.start jobs = .ok ()) → scan jobs = scan 1) ∧
    (∀ paths f, fs.listFiles root endings = .ok paths → 1 < jobs → 1 < paths.length →
      host.start jobs = .error f → scan jobs = .error f) ∧
    ∀ settings out layout report report' fs' fs'',
      fs.runScan host settings parser root out layout endings jobs = (.ok report, fs') →
      fs.runScan host settings parser root out layout endings 1 = (.ok report', fs'') →
      report.count = report'.count ∧ report.printed = report'.printed ∧ fs' = fs'' := by
  intro root scan
  have hread : Path.ofText root.text = root := Path.ofText_text_ofText text
  have hroot : ∀ part ∈ root.parts, Path.ProperPart part := Path.properPart_ofText text
  refine ⟨hread, ?_, ?_, start_eq_ok_iff, scanTree_jobs host parser hnamed hroot, ?_, ?_⟩
  · intro names hnames
    rw [Path.ofText_foldl_entryText root.text hnames, hread]
  · intro paths hlist p hp
    exact scanNamed_text parser (properPart_of_mem_listFiles hnamed hroot hlist p hp)
  · intro paths f hlist hjobs hlen hstart
    show fs.scanTree host parser root endings jobs = .error f
    rw [scanTree, hlist]
    exact scanPaths_of_no_workers (inParallel_eq_true_iff.mpr ⟨hjobs, hlen⟩) hstart
  · intro settings out layout report report' fs' fs'' hrun hrun'
    obtain ⟨records, hrecords, hreported⟩ := reported_of_runScan hrun
    obtain ⟨records', hrecords', hreported'⟩ := reported_of_runScan hrun'
    have hsame : scan jobs = scan 1 := by
      refine scanTree_jobs host parser hnamed hroot fun paths hlist hjobs hlen => ?_
      cases hstart : host.start jobs with
      | ok => rfl
      | error f =>
        have hfail : fs.scanPaths host parser jobs paths = .error f :=
          scanPaths_of_no_workers (inParallel_eq_true_iff.mpr ⟨hjobs, hlen⟩) hstart
        rw [scanTree, hlist] at hrecords
        cases hfail.symm.trans hrecords
    obtain rfl : records = records' :=
      Except.ok.inj (hrecords.symm.trans (hsame.trans hrecords'))
    exact hreported.unique hreported'

def twoFiles : FileSystem :=
  ofEntries [(["d"], .directory), (["d", "A.java"], .file 0o644 []),
    (["d", "B.java"], .file 0o644 [])]

theorem listFiles_twoFiles : twoFiles.listFiles (Path.ofText ".//d/./") defaultEndings =
    .ok [⟨.relative, ["d", "A.java"]⟩, ⟨.relative, ["d", "B.java"]⟩] := by
  have hroot : Path.ofText ".//d/./" = ⟨.relative, ["d"]⟩ := by decide +kernel
  have hnames : twoFiles.sortedNames 0 ⟨.relative, ["d"]⟩ = ["A.java", "B.java"] :=
    List.mergeSort_of_pairwise (by decide +kernel)
  rw [hroot, listFiles, show twoFiles.depthBound = 122 + 1 from rfl,
    show leadBytes ⟨.relative, ["d"]⟩ = 0 from rfl, listTo, hnames]
  decide +kernel

theorem scanTree_twoFiles :
    twoFiles.scanTree .plain (fun _ => emptyTree) (Path.ofText ".//d/./") defaultEndings 1 =
      .ok [⟨"d/A.java", some ⟨[]⟩, none⟩, ⟨"d/B.java", some ⟨[]⟩, none⟩] := by
  rw [scanTree, listFiles_twoFiles]
  decide +kernel

/-- With four jobs, and a root whose text has more slashes and dots than it needs, the
records are those of one job. -/
theorem scan_of_two_files :
    let scan := twoFiles.scanTree .plain (fun _ => emptyTree) (Path.ofText ".//d/./")
      defaultEndings
    scan 4 = .ok [⟨"d/A.java", some ⟨[]⟩, none⟩, ⟨"d/B.java", some ⟨[]⟩, none⟩] ∧
      scan 4 = scan 1 := by
  intro scan
  have hnamed : twoFiles.WellNamed := ⟨by decide, by decide⟩
  obtain ⟨_, _, _, _, hjobs, _⟩ := scanTree_same_for_any_jobs twoFiles hnamed .plain
    (fun _ => emptyTree) ".//d/./" defaultEndings 4
  have hsame : scan 4 = scan 1 := hjobs fun _ _ _ _ => rfl
  exact ⟨hsame.trans scanTree_twoFiles, hsame⟩

/-- With more jobs than a pool can count there are no records, although one job has them. -/
theorem scan_with_too_many_jobs :
    let scan := twoFiles.scanTree .plain (fun _ => emptyTree) (Path.ofText ".//d/./")
      defaultEndings
    scan 1 = .ok [⟨"d/A.java", some ⟨[]⟩, none⟩, ⟨"d/B.java", some ⟨[]⟩, none⟩] ∧
      scan 2147483647 = .error (.noWorkers "Python int too large to convert to C int") := by
  refine ⟨scanTree_twoFiles, ?_⟩
  show twoFiles.scanTree .plain (fun _ => emptyTree) (Path.ofText ".//d/./") defaultEndings
    2147483647 = _
  rw [scanTree, listFiles_twoFiles]
  exact scanPaths_of_no_workers rfl rfl

end FileSystem

end ClassOutline
