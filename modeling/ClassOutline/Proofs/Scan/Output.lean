import ClassOutline.Proofs.Json.RoundTrip
import ClassOutline.Proofs.Scan.Records

/-!
# The output of a scan can be read back

Line by line, records are written without a line end inside, so cutting the text at its
line ends gives one line for every record, and each is read as the value of its record.
An array is read as a whole, whatever blanks follow. So the text determines the values
of the records, in a file as well as printed.
-/

namespace ClassOutline

namespace Record

def line (r : Record) : String :=
  String.ofList r.toJson.compact

theorem fileChars_lines_cons (r : Record) (records : List Record) :
    fileChars .lines (r :: records) = r.toJson.compact ++ '\n' :: fileChars .lines records := by
  simp only [fileChars, List.flatMap_cons, List.append_assoc, List.singleton_append]

theorem split_lines (records : List Record) :
    Split.text '\n' (fileText .lines records) = records.map line ++ [""] := by
  have hchars : Split.chars '\n' (fileChars .lines records) =
      records.map (fun r => r.toJson.compact) ++ [[]] := by
    induction records with
    | nil => rfl
    | cons r records ih =>
      rw [fileChars_lines_cons, Split.chars_append (Json.newline_not_mem_compact _), ih]
      rfl
  rw [Split.text, fileText, String.toList_ofList, hchars, List.map_append, List.map_map]
  rfl

theorem count_newline_lines (records : List Record) :
    (fileText .lines records).toList.count '\n' = records.length := by
  rw [fileText, String.toList_ofList]
  induction records with
  | nil => rfl
  | cons r records ih =>
    have hline := List.count_eq_zero_of_not_mem (Json.newline_not_mem_compact r.toJson)
    rw [fileChars_lines_cons, List.count_append, hline, List.count_cons_self, ih, List.length_cons]
    omega

theorem read?_line (r : Record) : Json.read? r.line = some r.toJson :=
  Json.read?_compact r.toJson

theorem printedText_lines (records : List Record) :
    printedText .lines records = fileText .lines records :=
  rfl

theorem printedText_array (records : List Record) :
    printedText .array records = fileText .array records ++ "\n" :=
  String.ofList_append

theorem read?_fileText (records : List Record) :
    Json.read? (fileText .array records) = some (.arr (records.map toJson)) := by
  have hread := Json.read?_indented 0 (.arr (records.map toJson)) [] (by simp)
  rwa [List.append_nil] at hread

theorem read?_printedText (records : List Record) :
    Json.read? (printedText .array records) = some (.arr (records.map toJson)) :=
  Json.read?_indented 0 (.arr (records.map toJson)) ['\n'] (List.forall_mem_singleton.mpr rfl)

/-- A text in a file determines the values of its records. -/
theorem map_toJson_of_fileText {layout : Layout} {records others : List Record}
    (h : fileText layout records = fileText layout others) :
    records.map toJson = others.map toJson := by
  cases layout with
  | lines =>
    have hlines : records.map line = others.map line := by
      have hsplit := congrArg (Split.text '\n') h
      rw [split_lines, split_lines] at hsplit
      exact List.append_cancel_right hsplit
    have hread := congrArg (List.map Json.read?) hlines
    simp only [List.map_map, Function.comp_def, read?_line] at hread
    have hsome := congrArg (List.map fun j => j.getD .null) hread
    simpa only [List.map_map, Function.comp_def, Option.getD_some] using hsome
  | array =>
    have hread := congrArg Json.read? h
    rw [read?_fileText, read?_fileText] at hread
    exact Json.arr.inj (Option.some.inj hread)

theorem fileText_of_printedText {layout : Layout} {records others : List Record}
    (h : printedText layout records = printedText layout others) :
    fileText layout records = fileText layout others := by
  cases layout with
  | lines => exact h
  | array =>
    rw [printedText_array, printedText_array] at h
    exact String.append_left_inj _ |>.mp h

end Record

namespace FileSystem

section Output

variable {fs : FileSystem} {host : Host} {settings : Settings} {parser : Parser} {root : Path}
  {layout : Record.Layout} {endings : List String} {jobs : Int} {records : List Record}

/-- Where the console shows everything, a batch scan that is to print its records does. -/
theorem runScan_printed (hshows : ∀ shown, ∃ text, host.render shown = .ok text)
    (h : fs.scanTree host parser root endings jobs = .ok records) :
    ∃ seen, fs.runScan host settings parser root none layout endings jobs =
      (.ok ⟨records.countP Record.ok, Record.printedText layout records, seen⟩, fs) := by
  rw [scanTree] at h
  cases hlist : fs.listFiles root endings with
  | error e =>
    rw [hlist] at h
    cases h
  | ok paths =>
    simp only [hlist] at h
    obtain ⟨seen, hshown⟩ := exists_scanShown hshows h
    refine ⟨seen, ?_⟩
    rw [runScan, hlist]
    simp only [hshown]

end Output

end FileSystem

/-- The output of a scan can be read back. In lines, the text of any records has one line
end for each record and nothing behind the last, and its lines are read as the values of
the records, in order. An array is read as the list of these values, in a file and as it
is printed. The two texts differ only in the line end behind a printed array. This is
what a batch scan prints, or else what is read from the file it writes. The text
determines the values. -/
theorem Record.output_reads_back (records : List Record) :
    ((fileText .lines records).toList.count '\n' = records.length ∧
      ∃ lines, Split.text '\n' (fileText .lines records) = lines ++ [""] ∧
        lines.map Json.read? = records.map fun r => some r.toJson) ∧
    (Json.read? (fileText .array records) = some (.arr (records.map toJson)) ∧
      Json.read? (printedText .array records) = some (.arr (records.map toJson))) ∧
    (printedText .lines records = fileText .lines records ∧
      printedText .array records = fileText .array records ++ "\n") ∧
    (∀ (fs : FileSystem) host settings parser root layout endings jobs, fs.Sound →
      fs.scanTree host parser root endings jobs = .ok records →
      ((∀ shown, ∃ text, host.render shown = .ok text) → ∃ seen,
        fs.runScan host settings parser root none layout endings jobs =
          (.ok ⟨records.countP ok, printedText layout records, seen⟩, fs)) ∧
      (∀ report fs',
        fs.runScan host settings parser root none layout endings jobs = (.ok report, fs') →
        report.printed = printedText layout records ∧ fs' = fs) ∧
      ∀ p report fs',
        fs.runScan host settings parser root (some p) layout endings jobs = (.ok report, fs') →
        report.printed = "" ∧ fs'.readSource p = .ok (fileText layout records)) ∧
    ∀ layout others, (fileText layout records = fileText layout others ∨
        printedText layout records = printedText layout others) →
      records.map toJson = others.map toJson := by
  refine ⟨⟨count_newline_lines records, records.map line, split_lines records, ?_⟩,
    ⟨read?_fileText records, read?_printedText records⟩,
    ⟨printedText_lines records, printedText_array records⟩, ?_, ?_⟩
  · rw [List.map_map]
    exact List.map_congr_left fun r _ => read?_line r
  · intro fs host settings parser root layout endings jobs hs hscan
    have hreported : ∀ {out report fs'},
        fs.runScan host settings parser root out layout endings jobs = (.ok report, fs') →
        fs.Reported settings out layout records report fs' := by
      intro out report fs' hrun
      obtain ⟨records', hrecords, h⟩ := FileSystem.reported_of_runScan hrun
      obtain rfl : records = records' := Except.ok.inj (hscan.symm.trans hrecords)
      exact h
    refine ⟨fun hshows => FileSystem.runScan_printed hshows hscan,
      fun report fs' hrun => (hreported hrun).printed rfl, fun p report fs' hrun => ?_⟩
    obtain ⟨hprinted, hwrite⟩ := (hreported hrun).written p rfl
    exact ⟨hprinted,
      FileSystem.readSource_of_readBytes (FileSystem.readBytes_writeThrough hs hwrite)⟩
  · intro layout others h
    rcases h with hfile | hprinted
    · exact map_toJson_of_fileText hfile
    · exact map_toJson_of_fileText (fileText_of_printedText hprinted)

/-- A file whose name has a quote and a line end. -/
def FileSystem.quotedName : FileSystem :=
  ofEntries [(["\"\n.java"], .file 0o644 [])]

/-- The record of such a file is one line, which is read back from the file written. -/
theorem Record.output_of_quoted_name :
    let r : Record := ⟨"\"\n.java", some ⟨[]⟩, none⟩
    ∃ report fs' text line,
      FileSystem.quotedName.runScan .plain ⟨0o022, "00000000", by decide⟩
        (fun _ => FileSystem.emptyTree) ⟨.relative, []⟩ (some ⟨.relative, ["out"]⟩) .lines
        defaultEndings 1 = (.ok report, fs') ∧
      fs'.readSource ⟨.relative, ["out"]⟩ = .ok text ∧ text.toList.count '\n' = 1 ∧
      Split.text '\n' text = [line, ""] ∧ Json.read? line = some r.toJson := by
  intro r
  have hs : FileSystem.quotedName.Sound := FileSystem.sound_of_forall (by decide) rfl (by decide)
  have hnames : FileSystem.quotedName.sortedNames 2 ⟨.relative, []⟩ = ["\"\n.java"] :=
    List.mergeSort_of_pairwise (by decide +kernel)
  have hlist : FileSystem.quotedName.listFiles ⟨.relative, []⟩ defaultEndings =
      .ok [⟨.relative, ["\"\n.java"]⟩] := by
    rw [FileSystem.listFiles, show FileSystem.quotedName.depthBound = 81 + 1 from rfl,
      show FileSystem.leadBytes ⟨.relative, []⟩ = 2 from rfl, FileSystem.listTo, hnames]
    decide +kernel
  have hscan : FileSystem.quotedName.scanTree .plain (fun _ => FileSystem.emptyTree)
      ⟨.relative, []⟩ defaultEndings 1 = .ok [r] := by
    rw [FileSystem.scanTree, hlist]
    decide +kernel
  obtain ⟨report, fs', hrun⟩ : ∃ report fs', FileSystem.quotedName.runScan .plain
      ⟨0o022, "00000000", by decide⟩ (fun _ => FileSystem.emptyTree) ⟨.relative, []⟩
      (some ⟨.relative, ["out"]⟩) .lines defaultEndings 1 = (.ok report, fs') := by
    have hrecords := hscan
    rw [FileSystem.scanTree, hlist] at hrecords
    obtain ⟨seen, hshown⟩ := FileSystem.exists_scanShown
      Host.plain_shows hrecords
    have hplace : FileSystem.quotedName.placeToWrite ⟨.relative, ["out"]⟩ =
        .ok (.vacant [] "out") := by decide +kernel
    simp only [FileSystem.runScan, hlist, hshown, FileSystem.writeThrough, hplace]
    exact ⟨_, _, rfl⟩
  obtain ⟨⟨hcount, lines, hsplit, hread⟩, _, _, hwritten, _⟩ := output_reads_back [r]
  obtain ⟨_, _, hfiles⟩ := hwritten _ _ _ _ _ _ _ _ hs hscan
  obtain ⟨_, hfile⟩ := hfiles _ _ _ hrun
  obtain ⟨line, rfl, hline⟩ := List.map_eq_singleton_iff.mp hread
  exact ⟨report, fs', _, line, hrun, hfile, hcount, hsplit, hline⟩

end ClassOutline
