import ClassOutline.Proofs.FileSystem.Replacing
import Mathlib.Data.Nat.Bitwise

/-!
# When a text can be written, and what is changed then

`Writable` says in terms of lookups when a text can be written to the path that a path
is resolved to. A text that is written is found there, with the permission bits that
`Permits` names, and no other entry is touched.

All this is about entries that are no links. Resolving replaces every link on its way,
so only a path that runs into a loop of links and leaves it again through `..`, or one on
whose way a link is overlooked, can still stand for one.

A file that is overwritten in place needs no more than a path that can be followed
(`Unwritable`), and is then read by that path (`readBytes_writeThrough`).
-/

namespace ClassOutline

theorem plainName_tidy {loc : Location} (hloc : ∀ name ∈ loc, PlainName name)
    (names : List String) : ∀ name ∈ tidy loc names, PlainName name := by
  induction names generalizing loc with
  | nil => exact hloc
  | cons name names ih =>
    rw [tidy, List.foldl_cons, ← tidy]
    apply ih
    split
    · exact hloc
    split
    · exact fun x hx => hloc x (List.dropLast_subset _ hx)
    · rename_i hskip hup
      intro x hx
      rcases List.mem_append.mp hx with hx | hx
      · exact hloc x hx
      · rw [List.mem_singleton.mp hx]
        exact ⟨hskip, hup⟩

/-- The bits of a new file are those of `0666` that the mask leaves. -/
theorem Settings.testBit_newMode (settings : Settings) (i : Nat) :
    settings.newMode.testBit i = (Nat.testBit 0o666 i && !settings.umask.testBit i) := by
  have hmask : (0o666 : Nat) &&& 0o777 = 0o666 := by decide
  have hall : Nat.testBit 0o666 i = (Nat.testBit 0o666 i && Nat.testBit 0o777 i) := by
    rw [← Nat.testBit_and, hmask]
  rw [Settings.newMode, Nat.testBit_and, Nat.testBit_xor, Nat.testBit_and, hall]
  cases Nat.testBit 0o666 i <;> cases Nat.testBit 0o777 i <;> simp

namespace FileSystem

section Entry

variable {fs : FileSystem} {p r : Path} {dir : Location}

theorem absolute_of_resolve (h : fs.resolve p = .ok r) : ∃ q, fs.absolute q = r := by
  rw [resolve] at h
  split at h
  · cases h
  · exact ⟨_, Except.ok.inj h⟩

theorem anchor_of_resolve (h : fs.resolve p = .ok r) : r.anchor ≠ .relative := by
  obtain ⟨q, rfl⟩ := absolute_of_resolve h
  rw [absolute]
  split <;> simp

theorem base_of_resolve (h : fs.resolve p = .ok r) : fs.base r = [] := by
  have hanchor := anchor_of_resolve h
  rw [base]
  split
  · contradiction
  · rfl

theorem plainName_of_resolve (hs : fs.Sound) (h : fs.resolve p = .ok r) :
    ∀ name ∈ r.parts, PlainName name := by
  obtain ⟨q, rfl⟩ := absolute_of_resolve h
  have hbase : ∀ name ∈ fs.base q, PlainName name := by
    rw [base]
    split
    · exact hs.plain
    · simp
  rw [absolute]
  split
  · exact plainName_tidy (by simp) _
  · exact plainName_tidy hbase _

theorem resolve_error {f : Failure} (h : fs.resolve p = .error f) :
    ∃ text, f = .linkLoop text := by
  rw [resolve] at h
  split at h
  · exact ⟨_, (Except.error.inj h).symm⟩
  · cases h

theorem plainName_name (hs : fs.Sound) (h : fs.resolve p = .ok r) (hne : r.parts ≠ []) :
    PlainName r.name := by
  apply plainName_of_resolve hs h
  rw [Path.name, List.getLast?_eq_some_getLast hne]
  exact List.getLast_mem hne

/-- What a lookup of a name in a directory finds, if the name stands for no link. -/
def placeIn (fs : FileSystem) (dir : Location) (name : String) : Place :=
  match fs.get? (dir ++ [name]) with
  | some e => .present (dir ++ [name]) e
  | none => .vacant dir name

theorem location_placeIn (fs : FileSystem) (dir : Location) (name : String) :
    (fs.placeIn dir name).location = dir ++ [name] := by
  rw [placeIn]
  split <;> rfl

theorem holds_placeIn (fs : FileSystem) (dir : Location) (name : String) :
    Place.entry? (fs.placeIn dir name) = fs.get? (dir ++ [name]) := by
  rw [placeIn]
  split <;> rename_i h <;> rw [h] <;> rfl

theorem walked_placeIn {name : String} (hname : PlainName name)
    (hshort : byteCount name ≤ maxNameBytes)
    (hlink : ∀ target, fs.get? (dir ++ [name]) ≠ some (.link target)) (n : Nat) :
    Walked fs false n dir [name] (fs.placeIn dir name) := by
  have hlooked : LookedUp false name [] := ⟨hname, by simp, Nat.not_lt.mpr hshort⟩
  rw [placeIn]
  cases hget : fs.get? (dir ++ [name]) with
  | none => exact .vacant hlooked hget
  | some e =>
    cases e with
    | file mode bytes => exact .file hlooked hget
    | directory => exact .directory hlooked hget .done
    | link target => exact absurd hget (hlink target)

/-- A path whose name stands for no link is looked up in its directory. -/
theorem place_of_directoryOf (hs : fs.Sound) (hr : fs.resolve p = .ok r) (hne : r.parts ≠ [])
    (hfits : byteCount r.text ≤ maxPathBytes) (hdir : fs.directoryOf r = .ok dir)
    (hshort : byteCount r.name ≤ maxNameBytes)
    (hlink : ∀ target, fs.get? (fs.entryAt r) ≠ some (.link target)) :
    fs.place r = .ok (fs.placeIn dir r.name) := by
  have hparent := (find_eq_ok_iff.mp (directoryOf_eq_ok_iff.mp hdir)).2
  rw [entryAt_eq hdir hne] at hlink
  have hwalked := hparent.concat (walked_placeIn (plainName_name hs hr hne) hshort hlink)
  have hparts : r.parent.parts ++ [r.name] = r.parts := congrArg Path.parts (Path.child_parent hne)
  rw [hparts] at hwalked
  exact follow_eq_ok_iff.mpr ⟨hfits, hwalked⟩

end Entry

/-! ## Success -/

def Exists (fs : FileSystem) (p : Path) : Prop :=
  ∃ found, fs.find p = .ok found

/-- When a text can be written to a path. A name of 241 bytes, and a path of 4081, leave
room for the bytes that a temporary name adds. -/
structure Writable (fs : FileSystem) (r : Path) (modeFrom : Option Path) : Prop where
  parent : fs.isDirectory r.parent = true
  short : byteCount r.name ≤ 241
  fits : byteCount r.text ≤ 4081
  free : fs.isDirectory r = false
  /-- Permission bits of a new file are not looked for behind a length that is not allowed. -/
  modeFrom_found : ¬ fs.Exists r → ∀ q, modeFrom = some q → fs.find q ≠ .error .nameTooLong

/-- The permission bits of a text written to a path: those of the file that is there, else
those of what `modeFrom` leads to, else those that the mask leaves. -/
structure Permits (fs : FileSystem) (settings : Settings) (r : Path) (modeFrom : Option Path)
    (mode : Nat) : Prop where
  kept : ∀ found, fs.find r = .ok found → mode = fs.modeOf found
  taken : ¬ fs.Exists r → ∀ q found, modeFrom = some q → fs.find q = .ok found →
    mode = fs.modeOf found
  fresh : ¬ fs.Exists r → (∀ q, modeFrom = some q → ¬ fs.Exists q) →
    ∀ i, mode.testBit i = (Nat.testBit 0o666 i && !settings.umask.testBit i)

section Write

variable {fs : FileSystem} {settings : Settings} {p r : Path} {modeFrom : Option Path}
  {mode : Nat} {found : Location × Entry}

theorem isDirectory_eq_true_iff :
    fs.isDirectory p = true ↔ ∃ x, fs.find p = .ok (x, .directory) := by
  rw [isDirectory]
  cases fs.find p with
  | error c => simp
  | ok found =>
    obtain ⟨x, e⟩ := found
    cases e <;> simp

theorem find?_eq_some_iff : fs.find? p = .ok (some found) ↔ fs.find p = .ok found := by
  rw [find?]
  split
  · rename_i hfind
    simp [hfind]
  · rename_i hfind
    simp [hfind]
  · rename_i hfind
    simp [hfind]

theorem find?_eq_none_iff :
    fs.find? p = .ok none ↔ ¬ fs.Exists p ∧ fs.find p ≠ .error .nameTooLong := by
  rw [find?, Exists]
  cases hfind : fs.find p with
  | ok found => simp
  | error c => cases c <;> simp

theorem find?_eq_error_iff {e : OsError} :
    fs.find? p = .error e ↔ fs.find p = .error .nameTooLong ∧ e = ⟨.nameTooLong, p.text, none⟩ := by
  rw [find?]
  cases hfind : fs.find p with
  | ok found => simp
  | error c => cases c <;> simp [eq_comm]

theorem modeFor_of_find (h : fs.find r = .ok found) :
    fs.modeFor settings r modeFrom = .ok (fs.modeOf found) := by
  unfold modeFor
  rw [find?_eq_some_iff.mpr h]

/-- Permission bits of a new file come from what a path leads to, if it leads anywhere. -/
theorem modeFor_of_vacant (h : fs.find? r = .ok none) :
    fs.modeFor settings r modeFrom = match modeFrom with
      | none => .ok settings.newMode
      | some q => (fs.find? q).map fun found => (found.map fs.modeOf).getD settings.newMode := by
  unfold modeFor
  rw [h]
  cases modeFrom with
  | none => rfl
  | some q =>
    cases hfound : fs.find? q with
    | error e => simp only [hfound]; rfl
    | ok found => cases found <;> simp only [hfound] <;> rfl

theorem find?_of_modeFor (h : fs.modeFor settings r modeFrom = .ok mode)
    (hexists : ¬ fs.Exists r) : fs.find? r = .ok none := by
  unfold modeFor at h
  cases hfound : fs.find? r with
  | error e =>
    rw [hfound] at h
    cases h
  | ok found =>
    cases found with
    | none => rfl
    | some found => exact absurd ⟨found, find?_eq_some_iff.mp hfound⟩ hexists

theorem permits_of_modeFor (h : fs.modeFor settings r modeFrom = .ok mode) :
    fs.Permits settings r modeFrom mode := by
  refine ⟨?_, ?_, ?_⟩
  · intro found hfind
    exact Except.ok.inj (h.symm.trans (modeFor_of_find hfind))
  · intro hexists q found hq hfind
    rw [modeFor_of_vacant (find?_of_modeFor h hexists), hq] at h
    simp only [find?_eq_some_iff.mpr hfind] at h
    exact (Except.ok.inj h).symm
  · intro hexists hq i
    rw [← settings.testBit_newMode]
    rw [modeFor_of_vacant (find?_of_modeFor h hexists)] at h
    cases modeFrom with
    | none => rw [← Except.ok.inj h]
    | some q =>
      cases hfound : fs.find? q with
      | error e =>
        simp only [hfound] at h
        cases h
      | ok found =>
        cases found with
        | some found => exact absurd ⟨found, find?_eq_some_iff.mp hfound⟩ (hq q rfl)
        | none =>
          simp only [hfound] at h
          rw [← Except.ok.inj h]
          rfl

theorem exists_modeFor (hlong : fs.find r ≠ .error .nameTooLong)
    (hfrom : ¬ fs.Exists r → ∀ q, modeFrom = some q → fs.find q ≠ .error .nameTooLong) :
    ∃ mode, fs.modeFor settings r modeFrom = .ok mode := by
  by_cases hexists : fs.Exists r
  · obtain ⟨found, hfind⟩ := hexists
    exact ⟨_, modeFor_of_find hfind⟩
  rw [modeFor_of_vacant (find?_eq_none_iff.mpr ⟨hexists, hlong⟩)]
  cases modeFrom with
  | none => exact ⟨_, rfl⟩
  | some q =>
    by_cases hq : fs.Exists q
    · obtain ⟨found, hfind⟩ := hq
      exact ⟨_, by simp only [find?_eq_some_iff.mpr hfind]; rfl⟩
    · exact ⟨_, by simp only [find?_eq_none_iff.mpr ⟨hq, hfrom hexists q rfl⟩]; rfl⟩

theorem modeFrom_found_of_modeFor (h : fs.modeFor settings r modeFrom = .ok mode)
    (hexists : ¬ fs.Exists r) {q : Path} (hq : modeFrom = some q) :
    fs.find q ≠ .error .nameTooLong := by
  intro hlong
  rw [modeFor_of_vacant (find?_of_modeFor h hexists), hq] at h
  simp only [find?_eq_error_iff.mpr ⟨hlong, rfl⟩] at h
  cases h

theorem stageable_iff (hr : fs.resolve p = .ok r) : fs.Stageable settings r ↔
    fs.isDirectory r.parent = true ∧ byteCount r.name ≤ 241 ∧ byteCount r.text ≤ 4081 := by
  have hbytes := byteCount_text_temporaryName settings (anchor_of_resolve hr)
  have hparent : (∃ dir, fs.directoryOf r = .ok dir) ↔ fs.isDirectory r.parent = true := by
    simp only [directoryOf_eq_ok_iff, isDirectory_eq_true_iff]
  rw [← hparent]
  constructor
  · intro h
    have hfits := h.fits
    have hshort := h.short
    simp only [temporaryBytes, maxNameBytes, maxPathBytes] at hbytes hfits hshort
    exact ⟨h.directory, by omega, by omega⟩
  · rintro ⟨hdir, hshort, hfits⟩
    refine ⟨?_, hdir, ?_⟩ <;> simp only [temporaryBytes, maxNameBytes, maxPathBytes] at hbytes ⊢ <;>
      omega

/-- Replacing asks for what writing does, as long as no link is to be replaced. -/
theorem replaceable_iff_writable (hs : fs.Sound) (hr : fs.resolve p = .ok r)
    (hlink : ∀ target, fs.get? (fs.entryAt r) ≠ some (.link target)) :
    (∃ mode, fs.Replaceable settings r modeFrom mode) ↔ fs.Writable r modeFrom := by
  by_cases hne : r.parts = []
  · -- The root is a directory for either side.
    have hroot : fs.find r = .ok ([], .directory) := by
      refine find_eq_ok_iff.mpr ⟨?_, ?_⟩
      · rw [Path.byteCount_text, hne]
        cases r.anchor <;> decide
      · rw [hne, base_of_resolve hr]
        exact .done
    constructor
    · rintro ⟨mode, h⟩
      exact absurd hne h.parts_ne_nil
    · intro h
      have hdir := isDirectory_eq_true_iff.mpr ⟨_, hroot⟩
      rw [h.free] at hdir
      cases hdir
  have hlookup : ∀ {dir}, fs.directoryOf r = .ok dir → byteCount r.name ≤ 241 →
      byteCount r.text ≤ 4081 → fs.place r = .ok (fs.placeIn dir r.name) := by
    intro dir hdir hshort hfits
    exact place_of_directoryOf hs hr hne (Nat.le_trans hfits (by decide)) hdir
      (Nat.le_trans hshort (by decide)) hlink
  have hfree : ∀ {dir}, fs.directoryOf r = .ok dir → byteCount r.name ≤ 241 →
      byteCount r.text ≤ 4081 →
      (fs.get? (fs.entryAt r) ≠ some .directory ↔ fs.isDirectory r = false) := by
    intro dir hdir hshort hfits
    rw [isDirectory, find, hlookup hdir hshort hfits, placeIn, entryAt_eq hdir hne]
    cases hget : fs.get? (dir ++ [r.name]) with
    | none => simp
    | some e => cases e <;> simp
  constructor
  · rintro ⟨mode, hstage, hmode, hentry⟩
    obtain ⟨dir, hdir⟩ := hstage.directory
    obtain ⟨hparent, hshort, hfits⟩ := (stageable_iff hr).mp hstage
    exact ⟨hparent, hshort, hfits, (hfree hdir hshort hfits).mp hentry,
      fun hexists q hq => modeFrom_found_of_modeFor hmode hexists hq⟩
  · intro h
    have hstage : fs.Stageable settings r := (stageable_iff hr).mpr ⟨h.parent, h.short, h.fits⟩
    obtain ⟨dir, hdir⟩ := hstage.directory
    have hlong : fs.find r ≠ .error .nameTooLong := by
      rw [find, hlookup hdir h.short h.fits, placeIn]
      cases fs.get? (dir ++ [r.name]) <;> simp
    obtain ⟨mode, hmode⟩ : ∃ mode, fs.modeFor settings r modeFrom = .ok mode :=
      exists_modeFor hlong h.modeFrom_found
    exact ⟨mode, hstage, hmode, (hfree hdir h.short h.fits).mpr h.free⟩

theorem writeSource_ok_iff (hr : fs.resolve p = .ok r) (text : String) :
    (fs.writeSource settings p text modeFrom).1 = .ok () ↔
      ∃ mode, fs.Replaceable settings r modeFrom mode := by
  rcases fs.writeSource_cases settings p text modeFrom with
    ⟨e, he, hnot⟩ | ⟨r', mode, hr', hok, hrep⟩
  · rw [he]
    exact ⟨fun h => (nomatch h), fun ⟨mode, h⟩ => absurd h (hnot r mode hr)⟩
  · obtain rfl : r' = r := Except.ok.inj (hr'.symm.trans hr)
    rw [hok]
    exact ⟨fun _ => ⟨mode, hrep⟩, fun _ => rfl⟩

/-- A path that can be replaced is looked up at the entry that its name stands for. -/
theorem Replaceable.place (hs : fs.Sound) (h : fs.Replaceable settings r modeFrom mode)
    (hr : fs.resolve p = .ok r)
    (hlink : ∀ target, fs.get? (fs.entryAt r) ≠ some (.link target)) :
    ∃ place : Place, fs.place r = .ok place ∧ place.location = fs.entryAt r ∧
      place.entry? = fs.get? (fs.entryAt r) := by
  obtain ⟨dir, hdir⟩ := h.directory
  obtain ⟨_, hshort, hfits⟩ := (stageable_iff hr).mp h.toStageable
  have hplace := place_of_directoryOf hs hr h.parts_ne_nil (Nat.le_trans hfits (by decide)) hdir
    (Nat.le_trans hshort (by decide)) hlink
  rw [entryAt_eq hdir h.parts_ne_nil]
  exact ⟨_, hplace, location_placeIn .., holds_placeIn ..⟩

/-- A text that was written is found at the path that the path is resolved to. -/
theorem find_put_entryAt {bits : Nat} (hs : fs.Sound) (hr : fs.resolve p = .ok r)
    (hlink : ∀ target, fs.get? (fs.entryAt r) ≠ some (.link target))
    (hrep : fs.Replaceable settings r modeFrom bits) (mode : Nat) (bytes : Bytes) :
    (fs.put (fs.entryAt r) (.file mode bytes)).find r =
      .ok (fs.entryAt r, .file mode bytes) := by
  obtain ⟨place, hplace, hloc, hentry⟩ := hrep.place hs hr hlink
  obtain ⟨hfits, hwalked⟩ := follow_eq_ok_iff.mp hplace
  have hput := hwalked.put hs (hs.base r) (by rw [hentry]; exact hrep.free) mode bytes
  rw [hloc] at hput
  exact find_eq_ok_iff.mpr ⟨hfits, hput⟩

end Write

/-- Writing a text to the path that a path is resolved to. Whatever fails, everything is
as before, and a loop of links that is found by resolving is a failure. Unless a link has
the name of the resolved path, the text can be written exactly to a path that is
`Writable`; it is then found there with the permission bits that are due, no other entry
differs, and no temporary file is left. A path that runs into no loop is resolved to where
its names lead, which is no link. -/
theorem writeSource_changes_one_entry (fs : FileSystem) (hs : fs.Sound) (settings : Settings)
    (p : Path) (text : String) (modeFrom : Option Path) :
    let result := fs.writeSource settings p text modeFrom
    (∀ e, result.1 = .error e → result.2 = fs) ∧
    (∀ e, fs.resolve p = .error e → result.1 = .error e) ∧
    (∀ r, fs.resolve p = .ok r → (∀ target, fs.get? (fs.entryAt r) ≠ some (.link target)) →
      (result.1 = .ok () ↔ fs.Writable r modeFrom) ∧
      (result.1 = .ok () → ∃ mode, fs.Permits settings r modeFrom mode ∧
        result.2.find r = .ok (fs.entryAt r, .file mode (Utf8.encode text)) ∧
        (∀ other, other ≠ fs.entryAt r → result.2.get? other = fs.get? other) ∧
        result.2.staged = fs.staged ∧ result.2.workingDirectory = fs.workingDirectory ∧
        result.2.directoryModes = fs.directoryModes)) ∧
    ∀ k x, Leads fs (startOf p) p.parts k x →
      fs.resolve p = .ok (Location.path (fs.locate x)) ∧
        fs.entryAt (Location.path (fs.locate x)) = fs.locate x ∧
        ∀ target, fs.get? (fs.locate x) ≠ some (.link target) := by
  intro result
  refine ⟨?_, ?_, ?_, ?_⟩
  · intro e he
    rcases fs.writeSource_cases settings p text modeFrom with ⟨_, hfail, _⟩ | ⟨_, _, _, hok, _⟩
    · exact congrArg Prod.snd hfail
    · have hfst : result.1 = .ok () := congrArg Prod.fst hok
      rw [he] at hfst
      cases hfst
  · intro e he
    show (fs.writeSource settings p text modeFrom).1 = .error e
    rw [writeSource, he]
  · intro r hr hlink
    have hiff : result.1 = .ok () ↔ ∃ mode, fs.Replaceable settings r modeFrom mode :=
      writeSource_ok_iff hr text
    refine ⟨hiff.trans (replaceable_iff_writable hs hr hlink), ?_⟩
    intro hok
    rcases fs.writeSource_cases settings p text modeFrom with
      ⟨e, hfail, _⟩ | ⟨r', mode, hr', hput, hrep⟩
    · have hfst : result.1 = .error e := congrArg Prod.fst hfail
      rw [hok] at hfst
      cases hfst
    · obtain rfl : r' = r := Except.ok.inj (hr'.symm.trans hr)
      have hsnd : result.2 = fs.put (fs.entryAt r') (.file mode (Utf8.encode text)) :=
        congrArg Prod.snd hput
      rw [hsnd]
      exact ⟨mode, permits_of_modeFor hrep.mode_eq, find_put_entryAt hs hr hlink hrep mode _,
        fun other hother => fs.get?_put_of_ne hother _, rfl, rfl, rfl⟩
  · intro k x hleads
    exact resolve_entryAt_of_leads hs hleads

def danglingLink : FileSystem :=
  ofEntries [(["C.java"], .file 0o640 []), (["L"], .link "N.java")]

theorem sound_danglingLink : danglingLink.Sound :=
  sound_of_forall (by decide) rfl (by decide)

/-- Writing through a link to a free name makes the file there, with permission bits
that are asked for, and keeps the link. -/
theorem write_through_dangling_link :
    let result := danglingLink.writeSource ⟨0o022, "00000000", by decide⟩ ⟨.relative, ["L"]⟩ "t"
      (some ⟨.relative, ["C.java"]⟩)
    result.1 = .ok () ∧ result.2.get? ["L"] = some (.link "N.java") ∧
      result.2.find ⟨.root, ["N.java"]⟩ = .ok (["N.java"], .file 0o640 (Utf8.encode "t")) := by
  intro result
  obtain ⟨_, _, hwrites, _⟩ := writeSource_changes_one_entry danglingLink sound_danglingLink
    ⟨0o022, "00000000", by decide⟩ ⟨.relative, ["L"]⟩ "t" (some ⟨.relative, ["C.java"]⟩)
  have hresolve : danglingLink.resolve ⟨.relative, ["L"]⟩ = .ok ⟨.root, ["N.java"]⟩ := by
    decide +kernel
  have hentry : danglingLink.entryAt ⟨.root, ["N.java"]⟩ = ["N.java"] := by decide +kernel
  have hfree : danglingLink.get? ["N.java"] = none := by decide
  have hmissing : danglingLink.find ⟨.root, ["N.java"]⟩ = .error .notFound := by decide +kernel
  have hfrom : danglingLink.find ⟨.relative, ["C.java"]⟩ = .ok (["C.java"], .file 0o640 []) := by
    decide +kernel
  have hvacant : ¬ danglingLink.Exists ⟨.root, ["N.java"]⟩ := by
    rintro ⟨x, hx⟩
    rw [hmissing] at hx
    cases hx
  obtain ⟨hiff, hok⟩ := hwrites ⟨.root, ["N.java"]⟩ hresolve (by rw [hentry, hfree]; simp)
  have hwritten : result.1 = .ok () := by
    refine hiff.mpr ⟨by decide +kernel, by decide +kernel, by decide +kernel, by decide +kernel, ?_⟩
    intro _ q hq
    obtain rfl := Option.some.inj hq
    rw [hfrom]
    simp
  obtain ⟨mode, hmode, hfind, hother, _⟩ := hok hwritten
  obtain rfl : mode = 0o640 := hmode.taken hvacant _ _ rfl hfrom
  rw [hentry] at hfind hother
  exact ⟨hwritten, hother ["L"] (by decide), hfind⟩

/-! ### Lengths that are not allowed -/

def longName : String :=
  String.ofList (List.replicate 256 'x')

theorem slash_not_mem_replicate (n : Nat) {c : Char} (h : '/' ≠ c) :
    '/' ∉ (String.ofList (List.replicate n c)).toList := by
  rw [String.toList_ofList]
  exact fun hmem => h (List.eq_of_mem_replicate hmem)

theorem byteCount_longName : byteCount longName = 256 :=
  calc byteCount longName = (Utf8.encodeChars longName.toList).length := rfl
    _ = (Utf8.encodeChars (List.replicate 256 'x')).length :=
      congrArg (fun cs => (Utf8.encodeChars cs).length) String.toList_ofList
    _ = 256 := by decide +kernel

theorem slash_not_mem_longName : '/' ∉ longName.toList :=
  slash_not_mem_replicate 256 (by decide)

theorem find_of_farLink {fs : FileSystem} {p : Path} {name : String} (hparts : p.parts = [name])
    (hfits : byteCount p.text ≤ maxPathBytes) (hn : LookedUp false name [])
    (hget : fs.get? (fs.base p ++ [name]) = some (.link longName)) :
    fs.find p = .error .nameTooLong := by
  have hplace : fs.place p = .error .nameTooLong := by
    rw [place, follow_of_short hfits, hparts]
    exact walk_long_link hn hget slash_not_mem_longName (by rw [byteCount_longName]; decide)
  rw [find, hplace]

def farLink : FileSystem :=
  ofEntries [(["m"], .link longName)]

def wideName : String :=
  String.ofList (List.replicate 240 'w')

theorem byteCount_wideName : byteCount wideName = 240 :=
  calc byteCount wideName = (Utf8.encodeChars wideName.toList).length := rfl
    _ = (Utf8.encodeChars (List.replicate 240 'w')).length :=
      congrArg (fun cs => (Utf8.encodeChars cs).length) String.toList_ofList
    _ = 240 := by decide +kernel

theorem wideName_ne {name : String} (h : byteCount name ≠ 240) : wideName ≠ name :=
  fun he => h (he ▸ byteCount_wideName)

theorem plainName_wideName : PlainName wideName :=
  ⟨not_or.mpr ⟨wideName_ne (by decide), wideName_ne (by decide)⟩, wideName_ne (by decide)⟩

theorem properPart_wideName : Path.ProperPart wideName :=
  ⟨wideName_ne (by decide), wideName_ne (by decide), slash_not_mem_replicate 240 (by decide)⟩

theorem byteCount_wide_path (n : Nat) :
    byteCount (Location.path (List.replicate (n + 1) wideName)).text = (n + 1) * 241 := by
  have hjoin := Path.byteCount_join_replicate n wideName
  have hslash : byteCount Anchor.root.text = 1 := by decide
  rw [byteCount_wideName] at hjoin
  rw [Path.byteCount_text, if_neg (by simp [Location.path]), ← hjoin, Nat.add_comm]
  exact congrArg _ hslash

theorem byteCount_below_wide (name : String) :
    byteCount (Location.path (List.replicate 16 wideName ++ [name])).text ≤
      3857 + byteCount name := by
  have hconcat := Location.byteCount_concat_le (List.replicate 16 wideName) name
  have hwide : byteCount (Location.path (List.replicate 16 wideName)).text = 16 * 241 :=
    byteCount_wide_path 15
  rw [hwide] at hconcat
  exact hconcat

/-- Where sixteen directories with that name are one in the other, a lookup goes on below the
last one. -/
theorem Walked.below_wide {fs : FileSystem} {n : Nat} {rest : List String} {place : Place}
    (h : Walked fs false n (List.replicate 16 wideName) rest place)
    (hdir : ∀ k ≤ 16, fs.get? (List.replicate k wideName) = some .directory) :
    Walked fs false n [] (List.replicate 16 wideName ++ rest) place := by
  refine Walked.below_directories (by rwa [List.nil_append]) (fun name hname => ?_) ?_
  · rw [List.eq_of_mem_replicate hname, byteCount_wideName]
    exact ⟨plainName_wideName, by decide⟩
  · intro above habove
    obtain ⟨hlength, heq⟩ := List.prefix_replicate_iff.mp habove
    rw [List.nil_append, heq]
    exact hdir _ hlength

theorem find_wide {fs : FileSystem}
    (hdir : ∀ k ≤ 16, fs.get? (List.replicate k wideName) = some .directory) :
    fs.find (Location.path (List.replicate 16 wideName)) =
      .ok (List.replicate 16 wideName, .directory) := by
  have hwalked := Walked.below_wide (n := maxLinks) .done hdir
  rw [List.append_nil] at hwalked
  exact find_eq_ok_iff.mpr ⟨by rw [byteCount_wide_path]; decide, hwalked⟩

def deepTree : FileSystem :=
  ofEntries ((List.range 16).map fun n => (List.replicate (n + 1) wideName, .directory))

theorem get?_deepTree {n : Nat} (h : n ≤ 16) :
    deepTree.get? (List.replicate n wideName) = some .directory := by
  have hall : ∀ {es : List (Location × Entry)} {loc : Location}, (∀ x ∈ es, x.2 = .directory) →
      (loc, Entry.directory) ∈ es → es.lookup loc = some .directory := by
    intro es loc hes hmem
    cases hlookup : es.lookup loc with
    | some e => exact congrArg some (hes _ (mem_of_lookup hlookup))
    | none =>
      have hne := List.lookup_eq_none_iff.mp hlookup _ hmem
      simp at hne
  rw [get?]
  split
  · rfl
  · rename_i hne
    apply hall
    · intro x hx
      obtain ⟨k, _, rfl⟩ := List.mem_map.mp hx
      rfl
    · have hpos : n ≠ 0 := fun h0 => hne (by rw [h0]; rfl)
      refine List.mem_map.mpr ⟨n - 1, List.mem_range.mpr (by omega), ?_⟩
      rw [Nat.sub_add_cancel (Nat.pos_of_ne_zero hpos)]

theorem get?_deepTree_eq_none {loc : Location}
    (h : ∀ k ≤ 16, loc ≠ List.replicate k wideName) : deepTree.get? loc = none := by
  have hroot : loc ≠ [] := h 0 (by omega)
  rw [get?, if_neg hroot]
  refine List.lookup_eq_none_iff.mpr fun x hx => ?_
  obtain ⟨k, hk, rfl⟩ := List.mem_map.mp hx
  have hlt := List.mem_range.mp hk
  simpa using h (k + 1) (by omega)

theorem get?_deepTree_ne_link (loc : Location) (target : String) :
    deepTree.get? loc ≠ some (.link target) := by
  rw [get?]
  split
  · simp
  · intro h
    obtain ⟨k, _, hk⟩ := List.mem_map.mp (mem_of_lookup h)
    cases (Prod.mk.inj hk).2

theorem sound_deepTree : deepTree.Sound :=
  sound_of_forall (by simp [deepTree, ofEntries]) rfl fun x hx => by
    obtain ⟨n, hn, rfl⟩ := List.mem_map.mp hx
    rw [List.dropLast_replicate]
    exact get?_deepTree (Nat.le_of_lt (List.mem_range.mp hn))

/-- A name can be short enough, and its directory be there, while its path is too long:
then nothing is written. Neither is a new file if `modeFrom`, whose own names are short,
leads to a name that is too long. -/
theorem not_written_for_length :
    let settings : Settings := ⟨0o022, "00000000", by decide⟩
    (deepTree.Sound ∧
      deepTree.resolve ⟨.relative, List.replicate 17 wideName⟩ =
        .ok ⟨.root, List.replicate 17 wideName⟩ ∧
      deepTree.isDirectory ⟨.root, List.replicate 16 wideName⟩ = true ∧
      byteCount wideName ≤ 241 ∧
      deepTree.isDirectory ⟨.root, List.replicate 17 wideName⟩ = false ∧
      (deepTree.writeSource settings ⟨.relative, List.replicate 17 wideName⟩ "t" none).1 ≠
        .ok ()) ∧
    farLink.Sound ∧ farLink.resolve ⟨.relative, ["n"]⟩ = .ok ⟨.root, ["n"]⟩ ∧
      farLink.isDirectory ⟨.root, []⟩ = true ∧ byteCount "n" ≤ 241 ∧
      farLink.isDirectory ⟨.root, ["n"]⟩ = false ∧ byteCount "m" ≤ 255 ∧
      (farLink.writeSource settings ⟨.relative, ["n"]⟩ "t" (some ⟨.relative, ["m"]⟩)).1 ≠
        .ok () := by
  intro settings
  have hplain : ∀ n, ∀ name ∈ List.replicate n wideName, PlainName name :=
    fun n name hname => (List.eq_of_mem_replicate hname) ▸ plainName_wideName
  have hdeep : deepTree.resolve ⟨.relative, List.replicate 17 wideName⟩ =
      .ok (Location.path (List.replicate 17 wideName)) := by
    have hleads : Leads deepTree ⟨.working 0, []⟩ (List.replicate 17 wideName) 0
        ⟨.working 0, List.replicate 17 wideName⟩ :=
      leads_of_unlinked (hplain 17) fun above _ target => get?_deepTree_ne_link _ target
    exact resolve_of_leads (p := ⟨.relative, List.replicate 17 wideName⟩) sound_deepTree hleads
  have hparent : deepTree.find (Location.path (List.replicate 16 wideName)) =
      .ok (List.replicate 16 wideName, .directory) := find_wide fun _ => get?_deepTree
  have hlong : deepTree.find (Location.path (List.replicate 17 wideName)) =
      .error .nameTooLong := find_of_long (by rw [byteCount_wide_path]; decide)
  have hfar : farLink.resolve ⟨.relative, ["n"]⟩ = .ok ⟨.root, ["n"]⟩ := by decide +kernel
  refine ⟨⟨sound_deepTree, hdeep, isDirectory_eq_true_iff.mpr ⟨_, hparent⟩, ?_, ?_, ?_⟩,
    sound_of_forall (by decide) rfl (by decide), hfar, by decide +kernel, by decide,
    by decide +kernel, by decide, ?_⟩
  · rw [byteCount_wideName]
    decide
  · show deepTree.isDirectory (Location.path (List.replicate 17 wideName)) = false
    rw [isDirectory, hlong]
  · intro hok
    obtain ⟨mode, hrep⟩ := (writeSource_ok_iff hdeep "t").mp hok
    have hfits := ((stageable_iff hdeep).mp hrep.toStageable).2.2
    rw [byteCount_wide_path] at hfits
    exact absurd hfits (by decide)
  · intro hok
    obtain ⟨mode, hrep⟩ := (writeSource_ok_iff hfar "t").mp hok
    have hmissing : farLink.find ⟨.root, ["n"]⟩ = .error .notFound := by decide +kernel
    have hvacant : ¬ farLink.Exists ⟨.root, ["n"]⟩ := by
      rintro ⟨x, hx⟩
      rw [hmissing] at hx
      cases hx
    have hfrom : farLink.find ⟨.relative, ["m"]⟩ = .error .nameTooLong :=
      find_of_farLink rfl (by decide +kernel) ⟨by decide, by decide, by decide⟩ rfl
    exact modeFrom_found_of_modeFor hrep.mode_eq hvacant rfl hfrom

/-! ## Writing through -/

section Output

variable {fs : FileSystem} {p : Path}

/-- Why a path cannot be opened for writing. -/
def Unwritable (fs : FileSystem) (p : Path) (cause : OsCause) : Prop :=
  fs.placeToWrite p = .error cause ∨
    cause = .isDirectory ∧ ∃ x, fs.placeToWrite p = .ok (.present x .directory)

theorem Unwritable.writeThrough_eq {cause : OsCause} (h : fs.Unwritable p cause)
    (settings : Settings) (bytes : Bytes) :
    fs.writeThrough settings p bytes = (.error ⟨cause, p.text, none⟩, fs) := by
  rw [writeThrough]
  rcases h with hplace | ⟨rfl, x, hplace⟩
  · rw [hplace]
  · rw [hplace]

theorem writeThrough_cases (hs : fs.Sound) (settings : Settings) (p : Path) (bytes : Bytes) :
    (∃ cause, fs.Unwritable p cause) ∨ ∃ fs', fs.writeThrough settings p bytes = (.ok (), fs') := by
  cases hplace : fs.placeToWrite p with
  | error cause => exact Or.inl ⟨cause, Or.inl hplace⟩
  | ok place =>
    have hlink := ((follow_eq_ok_iff.mp hplace).2.get?_location hs (hs.base p)).2
    rw [writeThrough, hplace]
    cases place with
    | vacant parent name => exact Or.inr ⟨_, rfl⟩
    | present x e =>
      cases e with
      | file mode old => exact Or.inr ⟨_, rfl⟩
      | directory => exact Or.inl ⟨.isDirectory, Or.inr ⟨rfl, x, hplace⟩⟩
      | link target => exact absurd rfl (hlink target)

theorem Sound.writeThrough (hs : fs.Sound) (settings : Settings) (p : Path) (bytes : Bytes) :
    (fs.writeThrough settings p bytes).2.Sound := by
  have hput : ∀ {place : Place}, fs.placeToWrite p = .ok place →
      place.entry? ≠ some .directory → ∀ mode,
      (fs.put place.location (.file mode bytes)).Sound := by
    intro place hplace hdir mode
    obtain ⟨_, hwalked⟩ := follow_eq_ok_iff.mp hplace
    rw [← (hwalked.get?_location hs (hs.base p)).1] at hdir
    exact hs.put (hwalked.get?_dropLast hs (hs.base p)) hdir _
  rw [FileSystem.writeThrough]
  split
  · rename_i mode _ hplace
    exact hput hplace (by simp [Place.entry?]) mode
  · exact hs
  · rename_i hplace
    exact hput hplace (by simp [Place.entry?]) settings.newMode
  · exact hs

/-- Names that lead to a place where a file is to be written lead there for a reader. -/
theorem Walked.reading {n : Nat} {here : Location} {names : List String} {place : Place}
    (h : Walked fs true n here names place) : Walked fs false n here names place := by
  have hlooked : ∀ {name rest}, LookedUp true name rest → LookedUp false name rest :=
    fun hn => ⟨hn.plain, by simp, hn.short⟩
  induction h with
  | done => exact .done
  | skip hn _ ih => exact .skip hn ih
  | up hn _ ih => exact .up hn ih
  | vacant hn hget => exact .vacant (hlooked hn) hget
  | file hn hget => exact .file (hlooked hn) hget
  | directory hn hget _ ih => exact .directory (hlooked hn) hget ih
  | link hn hget _ ih => exact .link (hlooked hn) hget ih

/-- What was written through a path is read by it. -/
theorem readBytes_writeThrough {fs' : FileSystem} {settings : Settings} {bytes : Bytes}
    (hs : fs.Sound) (h : fs.writeThrough settings p bytes = (.ok (), fs')) :
    fs'.readBytes p = .ok bytes := by
  have hput : ∀ {place : Place}, fs.placeToWrite p = .ok place →
      place.entry? ≠ some .directory → ∀ mode,
      (fs.put place.location (.file mode bytes)).readBytes p = .ok bytes := by
    intro place hplace hdir mode
    obtain ⟨hfits, hwalked⟩ := follow_eq_ok_iff.mp hplace
    have hput := (hwalked.put hs (hs.base p) hdir mode bytes).reading
    rw [readBytes, find_eq_ok_iff.mpr ⟨hfits, hput⟩]
  rw [writeThrough] at h
  split at h
  · rename_i loc mode old hplace
    obtain rfl := (Prod.mk.inj h).2
    exact hput hplace (by simp [Place.entry?]) mode
  · cases (Prod.mk.inj h).1
  · rename_i parent name hplace
    obtain rfl := (Prod.mk.inj h).2
    exact hput hplace (by simp [Place.entry?]) settings.newMode
  · cases (Prod.mk.inj h).1

end Output

end FileSystem

end ClassOutline
