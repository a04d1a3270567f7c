import ClassOutline.Proofs.FileSystem.Following
import ClassOutline.Proofs.Text.Decoding
import ClassOutline.SourceFile

/-!
# Writing all or nothing

Replacing a file either fails and gives back the file system it was given, with no
temporary file left, or it puts one file in one place. `Replaceable` says which of
the two happens. The steps in between are seen here only.
-/

namespace ClassOutline

/-- Number of bytes that a temporary name adds to a name. -/
def temporaryBytes : Nat := 14

theorem name_temporaryName (settings : Settings) (r : Path) :
    (temporaryName settings r).name = "." ++ r.name ++ "." ++ settings.tag ++ ".tmp" := by
  rw [temporaryName, Path.name, Path.child, List.getLast?_concat]
  rfl

theorem parent_temporaryName (settings : Settings) (r : Path) :
    (temporaryName settings r).parent = r.parent := by
  rw [temporaryName, Path.parent, Path.child, List.dropLast_concat]

theorem byteCount_temporaryName (settings : Settings) (r : Path) :
    byteCount (temporaryName settings r).name = byteCount r.name + temporaryBytes := by
  have hdot : byteCount "." = 1 := by decide
  have htmp : byteCount ".tmp" = 4 := by decide
  rw [name_temporaryName]
  simp only [byteCount_append, settings.tag_bytes, hdot, htmp, tagBytes, temporaryBytes]
  omega

/-- The text of a path from the root gets longer by what its name gets longer by. -/
theorem byteCount_text_temporaryName (settings : Settings) {r : Path}
    (h : r.anchor ≠ .relative) :
    byteCount (temporaryName settings r).text = byteCount r.text + temporaryBytes := by
  have hbytes := byteCount_temporaryName settings r
  have htext : byteCount (temporaryName settings r).text =
      r.parent.stemBytes + byteCount (temporaryName settings r).name := by
    rw [name_temporaryName, temporaryName, Path.byteCount_child]
  rw [htext, hbytes, ← Nat.add_assoc]
  congr 1
  by_cases hparts : r.parts = []
  · have hanchored : ¬ (r.anchor = .relative ∧ r.parts = []) := fun h' => h h'.1
    rw [Path.byteCount_text, if_neg hanchored, Path.stemBytes, Path.parent, Path.name, hparts]
    rfl
  · rw [← Path.byteCount_child, Path.child_parent hparts]

namespace FileSystem

def withStaged (fs : FileSystem) (f : StagedFile) : FileSystem :=
  { fs with staged := f :: fs.staged }

section Staged

variable (fs : FileSystem) (f : StagedFile)

theorem unstage_withStaged : (fs.withStaged f).unstage = fs := rfl

theorem setStagedMode_withStaged (mode : Nat) :
    (fs.withStaged f).setStagedMode mode = fs.withStaged { f with mode := mode } := rfl

/-- A file under its temporary name is in the way of no lookup. -/
theorem find_withStaged (p : Path) : (fs.withStaged f).find p = fs.find p := by
  have hwalk : (fs.withStaged f).walk false maxLinks (fs.base p) p.parts =
      fs.walk false maxLinks (fs.base p) p.parts :=
    @walk_congr fs (fs.withStaged f) (fun _ => rfl) false maxLinks (fs.base p) p.parts
  have hplace : (fs.withStaged f).place p = fs.place p := by
    rw [place, place, follow, follow, ← hwalk]
    rfl
  rw [find, find, hplace]

theorem modeFor_withStaged (settings : Settings) (r : Path) (modeFrom : Option Path) :
    (fs.withStaged f).modeFor settings r modeFrom = fs.modeFor settings r modeFrom := by
  have hmode : (fs.withStaged f).modeOf = fs.modeOf := rfl
  simp only [modeFor, find?, find_withStaged, hmode]

theorem entryAt_withStaged (r : Path) : (fs.withStaged f).entryAt r = fs.entryAt r := by
  simp only [entryAt, directoryOf, find_withStaged]

/-- What it takes to make the temporary file next to a path. -/
structure Stageable (settings : Settings) (r : Path) : Prop where
  fits : byteCount (temporaryName settings r).text ≤ maxPathBytes
  directory : ∃ dir, fs.directoryOf r = .ok dir
  short : byteCount r.name + temporaryBytes ≤ maxNameBytes

theorem stage_cases (settings : Settings) (r : Path) (bytes : Bytes) :
    (∃ e, fs.stage (temporaryName settings r) bytes = (.error e, fs) ∧
      ¬ fs.Stageable settings r) ∨
      fs.stage (temporaryName settings r) bytes =
          (.ok (), fs.withStaged ⟨temporaryName settings r, temporaryMode, bytes⟩) ∧
        fs.Stageable settings r := by
  have hdir : fs.directoryOf (temporaryName settings r) = fs.directoryOf r := by
    rw [directoryOf, directoryOf, parent_temporaryName]
  rw [stage, hdir, byteCount_temporaryName]
  split
  · rename_i hlong
    exact Or.inl ⟨_, rfl, fun h => absurd hlong (Nat.not_lt.mpr h.fits)⟩
  rename_i hfits
  split
  · rename_i c hc
    refine Or.inl ⟨_, rfl, fun h => ?_⟩
    obtain ⟨dir, hok⟩ := h.directory
    rw [hc] at hok
    cases hok
  · rename_i dir hok
    split
    · rename_i hlong
      exact Or.inl ⟨_, rfl, fun h => absurd hlong (Nat.not_lt.mpr h.short)⟩
    · rename_i hshort
      exact Or.inr ⟨rfl, Nat.le_of_not_lt hfits, ⟨dir, hok⟩, Nat.le_of_not_lt hshort⟩

theorem entryAt_of_nil {r : Path} (h : r.parts = []) : fs.entryAt r = [] := by
  rw [entryAt, h]
  split <;> simp_all

theorem publish_cases (r : Path) :
    (∃ e, (fs.withStaged f).publish r = (.error e, fs.withStaged f) ∧
      fs.get? (fs.entryAt r) = some .directory) ∨
      (fs.withStaged f).publish r =
          (.ok (), fs.put (fs.entryAt r) (.file f.mode f.bytes)) ∧
        fs.get? (fs.entryAt r) ≠ some .directory := by
  have hentry := fs.entryAt_withStaged f r
  have hget : (fs.withStaged f).get? (fs.entryAt r) = fs.get? (fs.entryAt r) := rfl
  simp only [publish, hentry, hget]
  simp only [withStaged]
  split
  · rename_i hroot
    rw [fs.entryAt_of_nil hroot]
    exact Or.inl ⟨_, rfl, fs.get?_root⟩
  split
  · rename_i hdir
    exact Or.inl ⟨_, rfl, hdir⟩
  · rename_i hdir
    exact Or.inr ⟨rfl, hdir⟩

end Staged

structure Replaceable (fs : FileSystem) (settings : Settings) (r : Path) (modeFrom : Option Path)
    (mode : Nat) : Prop extends fs.Stageable settings r where
  mode_eq : fs.modeFor settings r modeFrom = .ok mode
  free : fs.get? (fs.entryAt r) ≠ some .directory

/-- What replacing a file does: it fails and changes nothing, or the entry of the path's
name holds the file. -/
theorem replaceFile_cases (fs : FileSystem) (settings : Settings) (r : Path) (bytes : Bytes)
    (modeFrom : Option Path) :
    (∃ e, fs.replaceFile settings r bytes modeFrom = (.error e, fs) ∧
      ∀ mode, ¬ fs.Replaceable settings r modeFrom mode) ∨
      ∃ mode, fs.replaceFile settings r bytes modeFrom =
          (.ok (), fs.put (fs.entryAt r) (.file mode bytes)) ∧
        fs.Replaceable settings r modeFrom mode := by
  rw [replaceFile]
  rcases fs.stage_cases settings r bytes with ⟨e, he, hnot⟩ | ⟨hok, hstage⟩
  · exact Or.inl ⟨e, by rw [he], fun _ h => hnot h.toStageable⟩
  simp only [hok, modeFor_withStaged]
  cases hmode : fs.modeFor settings r modeFrom with
  | error e =>
    refine Or.inl ⟨e, by rw [unstage_withStaged], fun mode h => ?_⟩
    have hok := h.mode_eq
    rw [hmode] at hok
    cases hok
  | ok mode =>
    simp only [setStagedMode_withStaged]
    rcases fs.publish_cases ⟨temporaryName settings r, mode, bytes⟩ r with
      ⟨e, he, hdirectory⟩ | ⟨hput, hfree⟩
    · exact Or.inl ⟨e, by simp only [he, unstage_withStaged], fun _ h => h.free hdirectory⟩
    · exact Or.inr ⟨mode, by rw [hput], hstage, hmode, hfree⟩

theorem writeSource_cases (fs : FileSystem) (settings : Settings) (p : Path) (text : String)
    (modeFrom : Option Path) :
    (∃ e, fs.writeSource settings p text modeFrom = (.error e, fs) ∧
      ∀ r mode, fs.resolve p = .ok r → ¬ fs.Replaceable settings r modeFrom mode) ∨
      ∃ r mode, fs.resolve p = .ok r ∧
        fs.writeSource settings p text modeFrom =
          (.ok (), fs.put (fs.entryAt r) (.file mode (Utf8.encode text))) ∧
        fs.Replaceable settings r modeFrom mode := by
  rw [writeSource]
  cases hr : fs.resolve p with
  | error e => exact Or.inl ⟨e, rfl, fun _ _ h => nomatch h⟩
  | ok r =>
    rcases fs.replaceFile_cases settings r (Utf8.encode text) modeFrom with
      ⟨e, he, hnot⟩ | ⟨mode, hmode, hrep⟩
    · refine Or.inl ⟨_, by simp only [he]; rfl, fun r' mode h => ?_⟩
      rw [← Except.ok.inj h]
      exact hnot mode
    · exact Or.inr ⟨r, mode, rfl, by simp only [hmode], hrep⟩

/-! ## The entry that is replaced -/

section Entry

variable {fs : FileSystem} {p r : Path} {loc : Location}

theorem directoryOf_eq_ok_iff {dir : Location} :
    fs.directoryOf r = .ok dir ↔ fs.find r.parent = .ok (dir, .directory) := by
  rw [directoryOf]
  cases fs.find r.parent with
  | error c => simp
  | ok found =>
    obtain ⟨x, e⟩ := found
    cases e <;> simp

theorem Replaceable.entryAt_ne_nil {settings : Settings} {modeFrom : Option Path} {mode : Nat}
    (h : fs.Replaceable settings r modeFrom mode) : fs.entryAt r ≠ [] :=
  fun he => h.free (he ▸ fs.get?_root)

theorem Replaceable.parts_ne_nil {settings : Settings} {modeFrom : Option Path} {mode : Nat}
    (h : fs.Replaceable settings r modeFrom mode) : r.parts ≠ [] :=
  fun hparts => h.entryAt_ne_nil (fs.entryAt_of_nil hparts)

theorem entryAt_eq {dir : Location} (hdir : fs.directoryOf r = .ok dir) (hne : r.parts ≠ []) :
    fs.entryAt r = dir ++ [r.name] := by
  rw [entryAt, hdir, Path.name, List.getLast?_eq_some_getLast hne]
  rfl

theorem Replaceable.sound {settings : Settings} {modeFrom : Option Path} {mode : Nat}
    (h : fs.Replaceable settings r modeFrom mode) (hs : fs.Sound) (bytes : Bytes) :
    (fs.put (fs.entryAt r) (.file mode bytes)).Sound := by
  obtain ⟨dir, hdir⟩ := h.directory
  obtain ⟨_, hwalked⟩ := find_eq_ok_iff.mp (directoryOf_eq_ok_iff.mp hdir)
  refine hs.put ?_ h.free _
  rw [entryAt_eq hdir h.parts_ne_nil, List.dropLast_concat]
  exact (hwalked.get?_location hs (hs.base _)).1

/-- The entry that the path of a location without links stands for is at the location. -/
theorem entryAt_of_unlinked (hplain : ∀ name ∈ loc, PlainName name) (hlink : fs.Unlinked [] loc) :
    fs.entryAt (Location.path loc) = loc := by
  rcases eq_or_ne loc [] with rfl | hne
  · exact fs.entryAt_of_nil rfl
  cases hdir : fs.directoryOf (Location.path loc) with
  | error c => rw [entryAt, hdir, Location.path]
  | ok dir =>
    have hwalked := (find_eq_ok_iff.mp (directoryOf_eq_ok_iff.mp hdir)).2
    have hloc : dir = loc.dropLast := hwalked.location_of_unlinked
      (fun name hname => hplain name (List.dropLast_subset _ hname))
      (fun above habove => hlink above (habove.trans loc.dropLast_prefix))
    have hname : (Location.path loc).name = loc.getLast hne := by
      rw [Path.name, Location.path, List.getLast?_eq_some_getLast hne]
      rfl
    rw [entryAt_eq hdir hne, hloc, hname]
    exact List.dropLast_append_getLast hne

/-- A path whose names lead somewhere is resolved to the path of that location, and no
link is there. -/
theorem resolve_entryAt_of_leads {k : Nat} {x : Waypoint} (hs : fs.Sound)
    (hleads : Leads fs (startOf p) p.parts k x) :
    fs.resolve p = .ok (Location.path (fs.locate x)) ∧
      fs.entryAt (Location.path (fs.locate x)) = fs.locate x ∧
      ∀ target, fs.get? (fs.locate x) ≠ some (.link target) := by
  have hlink := unlinked_of_leads hs hleads
  exact ⟨resolve_of_leads hs hleads,
    entryAt_of_unlinked (plainName_locate hs hleads) hlink, hlink _ List.prefix_rfl⟩

/-- Where a lookup of a path succeeds, the path is resolved to where the lookup ends. -/
theorem resolve_of_place {place : Place} (hs : fs.Sound)
    (hseen : ¬ fs.Overlooks (startOf p) p.parts) (h : fs.place p = .ok place) :
    fs.resolve p = .ok (Location.path place.location) ∧
      fs.entryAt (Location.path place.location) = place.location := by
  have hwalked := (follow_eq_ok_iff.mp h).2
  obtain ⟨k, x, hleads, hx⟩ := hwalked.leads (locate_startOf fs p) hseen
  obtain ⟨hresolve, hentry, _⟩ := resolve_entryAt_of_leads hs hleads
  rw [hx] at hresolve hentry
  exact ⟨hresolve, hentry⟩

/-- A path that leads to a file or a directory is resolved to where that stands. -/
theorem resolve_of_find {x : Location} {e : Entry} (hs : fs.Sound)
    (hseen : ¬ fs.Overlooks (startOf p) p.parts) (h : fs.find p = .ok (x, e)) :
    fs.resolve p = .ok (Location.path x) ∧ fs.entryAt (Location.path x) = x ∧
      fs.get? x = some e := by
  have hfound := find_eq_ok_iff.mp h
  obtain ⟨hresolve, hentry⟩ := resolve_of_place hs hseen (follow_eq_ok_iff.mpr hfound)
  exact ⟨hresolve, hentry, (hfound.2.get?_location hs (hs.base p)).1⟩

/-- Where a lookup of a path succeeds, a file put at the entry that the path stands
for is read by that path. -/
theorem readBytes_put {place : Place} (hs : fs.Sound)
    (hseen : ¬ fs.Overlooks (startOf p) p.parts) (hr : fs.resolve p = .ok r)
    (hdir : fs.get? (fs.entryAt r) ≠ some .directory) (hplace : fs.place p = .ok place)
    (mode : Nat) (bytes : Bytes) :
    (fs.put (fs.entryAt r) (.file mode bytes)).readBytes p = .ok bytes := by
  obtain ⟨hresolve, hentry⟩ := resolve_of_place hs hseen hplace
  obtain rfl : r = Location.path place.location := Except.ok.inj (hr.symm.trans hresolve)
  obtain ⟨hshort, hwalked⟩ := follow_eq_ok_iff.mp hplace
  rw [hentry] at hdir ⊢
  rw [(hwalked.get?_location hs (hs.base p)).1] at hdir
  have hput : (fs.put place.location (.file mode bytes)).find p =
      .ok (place.location, .file mode bytes) :=
    find_eq_ok_iff.mpr ⟨hshort, hwalked.put hs (hs.base p) hdir mode bytes⟩
  rw [readBytes, hput]

end Entry

theorem Sound.writeSource {fs : FileSystem} (hs : fs.Sound) (settings : Settings) (p : Path)
    (text : String) (modeFrom : Option Path) :
    (fs.writeSource settings p text modeFrom).2.Sound := by
  rcases fs.writeSource_cases settings p text modeFrom with ⟨_, hfail, _⟩ | ⟨_, _, _, hok, hrep⟩
  · rwa [hfail]
  · rw [hok]
    exact hrep.sound hs _

end FileSystem

end ClassOutline
