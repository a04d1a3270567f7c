import ClassOutline.Proofs.FileSystem.Writing

/-!
# Reading and writing undo each other

Writing what was read changes nothing, what was written is read, and the last of two
texts written stays. Writing goes to the path that a path is resolved to, while reading
follows the path itself, so the laws rest on the two leading to one entry, before the
writing and after it: resolving reads nothing but links, and an entry that is none can
be replaced without changing where any path is resolved to. Behind a loop of links the
two can part, and so they can over a link that resolving does not see.
-/

namespace ClassOutline

namespace FileSystem

/-! ## Resolving reads links only -/

def SameLinks (fs fs' : FileSystem) : Prop :=
  ∀ loc target, fs'.get? loc = some (.link target) ↔ fs.get? loc = some (.link target)

section Links

variable {fs fs' : FileSystem}

theorem SameLinks.targetAt?_eq (h : SameLinks fs fs')
    (hworking : fs'.workingDirectory = fs.workingDirectory) (w : Waypoint) :
    fs'.targetAt? w = fs.targetAt? w := by
  have hloc : fs'.locate w = fs.locate w := by
    rw [locate, locate]
    cases w.start <;> simp only [locateStart, hworking]
  ext target
  rw [targetAt?_eq_some_iff, targetAt?_eq_some_iff, hloc, h]

theorem SameLinks.expandWith_eq (h : SameLinks fs fs')
    (hworking : fs'.workingDirectory = fs.workingDirectory)
    (replace : Waypoint → Waypoint → String → Expansion) (here : Waypoint) (names : List String) :
    fs'.expandWith replace here names = fs.expandWith replace here names := by
  induction names generalizing here with
  | nil => rfl
  | cons name rest ih =>
    rw [expandWith, expandWith, h.targetAt?_eq hworking]
    simp only [ih]

theorem SameLinks.expand_eq (h : SameLinks fs fs')
    (hworking : fs'.workingDirectory = fs.workingDirectory) (n : Nat) (busy : List Waypoint)
    (here : Waypoint) (names : List String) :
    fs'.expand n busy here names = fs.expand n busy here names := by
  induction n generalizing busy here names with
  | zero => rfl
  | succ n ih =>
    rw [expand, expand, h.expandWith_eq hworking]
    simp only [ih]

/-- An entry that is no link can be put in place of one that is none. -/
theorem sameLinks_put {loc : Location} {e : Entry} (hne : loc ≠ [])
    (hold : ∀ target, fs.get? loc ≠ some (.link target)) (hnew : ∀ target, e ≠ .link target) :
    SameLinks fs (fs.put loc e) := by
  intro other target
  by_cases hother : other = loc
  · rw [hother, fs.get?_put_self hne]
    exact ⟨fun h => absurd (Option.some.inj h) (hnew target), fun h => absurd h (hold target)⟩
  · rw [fs.get?_put_of_ne hother]

theorem linkCount_put {loc : Location} {e : Entry} (hne : loc ≠ [])
    (hold : ∀ target, fs.get? loc ≠ some (.link target)) (hnew : ∀ target, e ≠ .link target) :
    (fs.put loc e).linkCount = fs.linkCount := by
  rw [get?, if_neg hne] at hold
  rw [linkCount_eq, linkCount_eq]
  apply countP_putEntry
  · cases e with
    | link target => exact absurd rfl (hnew target)
    | file => rfl
    | directory => rfl
  · intro d hd
    cases d with
    | link target => exact absurd hd (hold target)
    | file => rfl
    | directory => rfl

/-- Where a path is resolved to, if the result of resolving it can still be looked up. -/
theorem resolve_put {p r : Path} {loc : Location} {e : Entry} {place : Place} (hne : loc ≠ [])
    (hold : ∀ target, fs.get? loc ≠ some (.link target)) (hnew : ∀ target, e ≠ .link target)
    (hr : fs.resolve p = .ok r) (hplace : (fs.put loc e).place r = .ok place) :
    (fs.put loc e).resolve p = .ok r := by
  have hexpand := (sameLinks_put hne hold hnew).expand_eq rfl
  have hbound : (fs.put loc e).expansionBound = fs.expansionBound := by
    rw [expansionBound, expansionBound, linkCount_put hne hold hnew]
  have habsolute : ∀ q, (fs.put loc e).absolute q = fs.absolute q := fun _ => rfl
  rw [resolve] at hr ⊢
  simp only [hbound, hexpand, habsolute] at hr ⊢
  split at hr
  · cases hr
  · obtain rfl := Except.ok.inj hr
    rw [hplace]

end Links

/-! ## Writing twice -/

section Replace

variable {fs : FileSystem} {settings settings' : Settings} {p r : Path} {modeFrom : Option Path}
  {mode : Nat}

/-- A text can be written over a file whatever temporary name is taken for it. -/
theorem Replaceable.of_umask (h : fs.Replaceable settings r modeFrom mode)
    (hr : fs.resolve p = .ok r) (hmask : settings'.umask = settings.umask) :
    fs.Replaceable settings' r modeFrom mode := by
  have hnew : settings'.newMode = settings.newMode := by
    rw [Settings.newMode, Settings.newMode, hmask]
  refine ⟨(stageable_iff hr).mpr ((stageable_iff hr).mp h.toStageable), ?_, h.free⟩
  have hmode := h.mode_eq
  simp only [modeFor, hnew] at hmode ⊢
  exact hmode

theorem Replaceable.writeSource_eq (h : fs.Replaceable settings r modeFrom mode)
    (hr : fs.resolve p = .ok r) (text : String) :
    fs.writeSource settings p text modeFrom =
      (.ok (), fs.put (fs.entryAt r) (.file mode (Utf8.encode text))) := by
  rcases fs.writeSource_cases settings p text modeFrom with
    ⟨_, _, hnot⟩ | ⟨r', mode', hr', hok, hrep⟩
  · exact absurd h (hnot r mode hr)
  · obtain rfl : r' = r := Except.ok.inj (hr'.symm.trans hr)
    obtain rfl : mode' = mode := Except.ok.inj (hrep.mode_eq.symm.trans h.mode_eq)
    exact hok

/-- What stands at the entry that is replaced is found by the resolved path. -/
theorem Replaceable.find_eq {e : Entry} (hs : fs.Sound)
    (h : fs.Replaceable settings r modeFrom mode) (hr : fs.resolve p = .ok r)
    (hlink : ∀ target, fs.get? (fs.entryAt r) ≠ some (.link target))
    (hget : fs.get? (fs.entryAt r) = some e) : fs.find r = .ok (fs.entryAt r, e) := by
  obtain ⟨place, hplace, hloc, hentry⟩ := h.place hs hr hlink
  rw [hget] at hentry
  cases place with
  | vacant parent name => cases hentry
  | present x d =>
    obtain rfl : d = e := Option.some.inj hentry
    rw [← hloc]
    exact find_eq_ok_iff.mpr (follow_eq_ok_iff.mp hplace)

/-- Once a file was put there, a path can be replaced again, with the same permission
bits and at the same entry. -/
theorem Replaceable.put (hs : fs.Sound) (h : fs.Replaceable settings r modeFrom mode)
    (hr : fs.resolve p = .ok r) (hlink : ∀ target, fs.get? (fs.entryAt r) ≠ some (.link target))
    (bytes : Bytes) :
    let fs' := fs.put (fs.entryAt r) (.file mode bytes)
    fs'.resolve p = .ok r ∧ fs'.entryAt r = fs.entryAt r ∧
      fs'.Replaceable settings r modeFrom mode := by
  intro fs'
  have hfind : fs'.find r = .ok (fs.entryAt r, .file mode bytes) :=
    find_put_entryAt hs hr hlink h mode bytes
  have hresolve : fs'.resolve p = .ok r :=
    resolve_put h.entryAt_ne_nil hlink (by simp) hr
      (follow_eq_ok_iff.mpr (find_eq_ok_iff.mp hfind))
  obtain ⟨dir, hdir⟩ := h.directory
  -- The directory stands above the entry, so the way to it is another one.
  have hdir' : fs'.directoryOf r = .ok dir := by
    have hne : dir ≠ fs.entryAt r := by
      rw [entryAt_eq hdir h.parts_ne_nil]
      simp
    exact directoryOf_eq_ok_iff.mpr
      (find_put_of_ne (directoryOf_eq_ok_iff.mp hdir) h.free hlink hne _)
  have hentry : fs'.entryAt r = fs.entryAt r := by
    rw [entryAt_eq hdir h.parts_ne_nil, entryAt_eq hdir' h.parts_ne_nil]
  refine ⟨hresolve, hentry, ⟨h.fits, ⟨dir, hdir'⟩, h.short⟩, modeFor_of_find hfind, ?_⟩
  rw [hentry, fs.get?_put_self h.entryAt_ne_nil]
  simp

theorem exists_replaceable {text : String}
    (h : (fs.writeSource settings p text modeFrom).1 = .ok ()) :
    ∃ r mode, fs.resolve p = .ok r ∧ fs.Replaceable settings r modeFrom mode := by
  rcases fs.writeSource_cases settings p text modeFrom with
    ⟨e, he, _⟩ | ⟨r, mode, hr, _, hrep⟩
  · rw [he] at h
    cases h
  · exact ⟨r, mode, hr, hrep⟩

end Replace

section Read

variable {fs : FileSystem} {p : Path} {text : String} {bytes : Bytes}

theorem readBytes_eq_ok_iff :
    fs.readBytes p = .ok bytes ↔ ∃ x mode, fs.find p = .ok (x, .file mode bytes) := by
  rw [readBytes]
  cases fs.find p with
  | error c => simp
  | ok found =>
    obtain ⟨x, e⟩ := found
    cases e <;> simp

/-- The bytes that were read are put where they were read, with the bits that they had. -/
theorem Replaceable.put_eq_self {settings : Settings} {r : Path} {modeFrom : Option Path}
    {mode : Nat} (hrep : fs.Replaceable settings r modeFrom mode) (hs : fs.Sound)
    (hseen : ¬ fs.Overlooks (startOf p) p.parts) (hr : fs.resolve p = .ok r)
    (h : fs.readBytes p = .ok bytes) : fs.put (fs.entryAt r) (.file mode bytes) = fs := by
  obtain ⟨x, bits, hfound⟩ := readBytes_eq_ok_iff.mp h
  obtain ⟨hx, hentry, hget⟩ := resolve_of_find hs hseen hfound
  obtain rfl : r = Location.path x := Except.ok.inj (hr.symm.trans hx)
  rw [← hentry] at hget
  have hfind := hrep.find_eq hs hr (by simp [hget]) hget
  obtain rfl : bits = mode := Except.ok.inj ((modeFor_of_find hfind).symm.trans hrep.mode_eq)
  exact FileSystem.put_eq_self hrep.entryAt_ne_nil hget

theorem readSource_error {e : Failure} (h : fs.readSource p = .error e) :
    ∃ reason, e = .source (.file p.text reason) := by
  rw [readSource] at h
  split at h
  · exact ⟨_, (Except.error.inj h).symm⟩
  · split at h
    · exact ⟨_, (Except.error.inj h).symm⟩
    · cases h

theorem readSource_of_readBytes (h : fs.readBytes p = .ok (Utf8.encode text)) :
    fs.readSource p = .ok text := by
  rw [readSource, h]
  simp only [Utf8.decode_encode]

/-- A text that was read is the one whose bytes the file holds. -/
theorem readBytes_of_readSource (h : fs.readSource p = .ok text) :
    fs.readBytes p = .ok (Utf8.encode text) := by
  rw [readSource] at h
  cases hbytes : fs.readBytes p with
  | error e =>
    rw [hbytes] at h
    cases h
  | ok bytes =>
    rw [hbytes] at h
    cases hdecode : Utf8.decode bytes with
    | error e => simp [hdecode] at h
    | ok decoded =>
      obtain rfl : decoded = text := by simpa [hdecode] using h
      rw [Utf8.encode_of_decode hdecode]

end Read

/-- The laws of reading and writing, for a text `t` that is written to a path. Unless
resolving overlooks a link, nothing changes if the text was read from that path, and it is
read again by the path, if that led to a file before. Unless a link has the name of the path
`r` that the path is resolved to, the text is read by `r`, and a text written after it leaves
what it leaves when written alone. On the way of a path whose names lead somewhere no link is
overlooked; it is resolved to where they lead, which is no link. -/
theorem readSource_writeSource_laws (fs : FileSystem) (hs : fs.Sound)
    (settings settings' : Settings) (hmask : settings'.umask = settings.umask) (p : Path)
    (t u : String) (modeFrom : Option Path) :
    let written := fs.writeSource settings p t modeFrom
    (written.1 = .ok () →
      (¬ fs.Overlooks (startOf p) p.parts →
        (fs.readSource p = .ok t → written.2 = fs) ∧
        ∀ bytes, fs.readBytes p = .ok bytes → written.2.readSource p = .ok t) ∧
      ∀ r, fs.resolve p = .ok r → (∀ target, fs.get? (fs.entryAt r) ≠ some (.link target)) →
        written.2.readSource r = .ok t ∧
        written.2.writeSource settings' p u modeFrom = fs.writeSource settings' p u modeFrom) ∧
    ∀ k x, Leads fs (startOf p) p.parts k x → ¬ fs.Overlooks (startOf p) p.parts ∧
      fs.resolve p = .ok (Location.path (fs.locate x)) ∧
        fs.entryAt (Location.path (fs.locate x)) = fs.locate x ∧
        ∀ target, fs.get? (fs.locate x) ≠ some (.link target) := by
  intro written
  refine ⟨?_, ?_⟩
  · intro hok
    obtain ⟨r, mode, hr, hrep⟩ := exists_replaceable hok
    have hwritten : written = (.ok (), fs.put (fs.entryAt r) (.file mode (Utf8.encode t))) :=
      hrep.writeSource_eq hr t
    rw [hwritten]
    refine ⟨fun hseen => ⟨?_, ?_⟩, ?_⟩
    · intro hread
      exact hrep.put_eq_self hs hseen hr (readBytes_of_readSource hread)
    · intro bytes hbytes
      obtain ⟨x, bits, hfound⟩ := readBytes_eq_ok_iff.mp hbytes
      have hplace : fs.place p = .ok (.present x (.file bits bytes)) :=
        follow_eq_ok_iff.mpr (find_eq_ok_iff.mp hfound)
      exact readSource_of_readBytes (readBytes_put hs hseen hr hrep.free hplace mode _)
    · intro r' hr' hlink
      obtain rfl : r = r' := Except.ok.inj (hr.symm.trans hr')
      have hfind := find_put_entryAt hs hr hlink hrep mode (Utf8.encode t)
      obtain ⟨hresolve, hentry, hagain⟩ := hrep.put hs hr hlink (Utf8.encode t)
      refine ⟨readSource_of_readBytes (by rw [readBytes, hfind]), ?_⟩
      rw [(hagain.of_umask hresolve hmask).writeSource_eq hresolve, hentry, put_put,
        (hrep.of_umask hr hmask).writeSource_eq hr]
  · intro k x hleads
    exact ⟨hleads.not_overlooks, resolve_entryAt_of_leads hs hleads⟩

/-- Reading a text and writing it back through a link changes nothing, although the
link and the file behind it are two entries, and a line end of two characters stays. -/
theorem write_back_through_link :
    let file : FileSystem :=
      ofEntries [(["C.java"], .file 0o640 (Utf8.encode "a\r\n")), (["L"], .link "C.java")]
    file.readSource ⟨.relative, ["L"]⟩ = .ok "a\r\n" ∧
      (file.writeSource ⟨0o022, "00000000", by decide⟩ ⟨.relative, ["L"]⟩ "a\r\n" none).2 =
        file := by
  intro file
  have hs : file.Sound := sound_of_forall (by decide) rfl (by decide)
  have hread : file.readSource ⟨.relative, ["L"]⟩ = .ok "a\r\n" := by decide +kernel
  have hok : (file.writeSource ⟨0o022, "00000000", by decide⟩ ⟨.relative, ["L"]⟩ "a\r\n" none).1 =
      .ok () := by decide +kernel
  have hget : file.get? ["C.java"] = some (.file 0o640 (Utf8.encode "a\r\n")) := by decide
  have hleads : Leads file (startOf ⟨.relative, ["L"]⟩) ["L"] 1 ⟨.working 0, ["C.java"]⟩ :=
    leads_of_link (by decide) (by decide +kernel) (by decide) (by decide) fun next h => by
      rw [show file.locate _ = ["C.java"] from rfl, hget] at h
      cases h
  obtain ⟨hlaws, _⟩ := readSource_writeSource_laws file hs ⟨0o022, "00000000", by decide⟩
    ⟨0o022, "00000001", by decide⟩ rfl ⟨.relative, ["L"]⟩ "a\r\n" "" none
  exact ⟨hread, ((hlaws hok).1 hleads.not_overlooks).1 hread⟩

/-- A loop of links; a directory with a link to a directory in it, and a way to that
directory that leads over the link. -/
def tangledLinks : FileSystem :=
  ofEntries [(["d"], .directory), (["d", "s"], .directory), (["d", "e"], .link "s"),
    (["l"], .link "d/e/.."), (["loop"], .link "loop")]

/-- Behind a loop that is left through `..`, a text that was written is not read at the
path that its path is resolved to: the way there leads over the link that gave way to the
file. -/
theorem not_read_behind_loop :
    let behind : Path := ⟨.relative, ["loop", "..", "l", "e"]⟩
    let written := tangledLinks.writeSource ⟨0o022, "00000000", by decide⟩ behind "t" none
    tangledLinks.Sound ∧ written.1 = .ok () ∧
      tangledLinks.resolve behind = .ok ⟨.root, ["l", "e"]⟩ ∧
      written.2.readSource ⟨.root, ["l", "e"]⟩ ≠ .ok "t" :=
  ⟨sound_of_forall (by decide) rfl (by decide), by decide +kernel⟩

/-! ### A link that is overlooked -/

/-- Sixteen directories, one in the other, and in the last one a link to the root, whose own
path is too long to be looked up; `l` makes the way there short. -/
def overlookedLink : FileSystem :=
  ((deepTree.put (List.replicate 17 wideName) (.link "/")).put ["l"]
    (.link (Path.join (List.replicate 16 wideName)))).put ["x"] (.file 0o644 (Utf8.encode "s"))

/-- A path to the file `x` that leads over the link. -/
def overLink : Path :=
  ⟨.relative, ["l", wideName, "..", "x"]⟩

theorem wide_ne_single {k : Nat} {name : String} (h : byteCount name ≠ 240) :
    List.replicate k wideName ≠ [name] :=
  fun he => wideName_ne h (List.eq_of_mem_replicate (he ▸ List.mem_singleton_self name)).symm

theorem get?_overlookedLink_of_ne {loc : Location} (hl : loc ≠ ["l"]) (hx : loc ≠ ["x"]) :
    overlookedLink.get? loc = (deepTree.put (List.replicate 17 wideName) (.link "/")).get? loc := by
  rw [overlookedLink, get?_put_of_ne _ hx, get?_put_of_ne _ hl]

theorem get?_overlookedLink_wide {k : Nat} (h : k ≤ 16) :
    overlookedLink.get? (List.replicate k wideName) = some .directory := by
  have hne : List.replicate k wideName ≠ List.replicate 17 wideName := fun he => by
    have hlength := congrArg List.length he
    simp only [List.length_replicate] at hlength
    omega
  rw [get?_overlookedLink_of_ne (wide_ne_single (by decide)) (wide_ne_single (by decide)),
    get?_put_of_ne _ hne, get?_deepTree h]

theorem get?_overlookedLink_far :
    overlookedLink.get? (List.replicate 16 wideName ++ [wideName]) = some (.link "/") := by
  rw [← List.replicate_succ',
    get?_overlookedLink_of_ne (wide_ne_single (by decide)) (wide_ne_single (by decide)),
    get?_put_self _ (by simp)]

theorem get?_overlookedLink_single :
    overlookedLink.get? ["l"] = some (.link (Path.join (List.replicate 16 wideName))) ∧
      overlookedLink.get? ["x"] = some (.file 0o644 (Utf8.encode "s")) := by
  rw [overlookedLink, get?_put_of_ne _ (by decide), get?_put_self _ (by decide),
    get?_put_self _ (by decide)]
  exact ⟨rfl, rfl⟩

theorem get?_overlookedLink_below :
    overlookedLink.get? (List.replicate 16 wideName ++ ["x"]) = none := by
  have hlength : ∀ loc : Location, loc.length ≠ 17 →
      List.replicate 16 wideName ++ ["x"] ≠ loc := by
    rintro loc hloc rfl
    exact hloc (by simp)
  have hlast : ∀ k, List.replicate 16 wideName ++ ["x"] ≠ List.replicate k wideName := fun k he =>
    wideName_ne (show byteCount "x" ≠ 240 by decide)
      (List.eq_of_mem_replicate (he ▸ List.mem_append_right _ (List.mem_singleton_self "x"))).symm
  rw [get?_overlookedLink_of_ne (hlength _ (by decide)) (hlength _ (by decide)),
    get?_put_of_ne _ (hlast 17), get?_deepTree_eq_none fun k _ => hlast k]

theorem sound_overlookedLink : overlookedLink.Sound := by
  have hvacant : ∀ {fs : FileSystem} {loc : Location}, fs.get? loc = none →
      fs.get? loc ≠ some .directory := fun h he => nomatch h.symm.trans he
  have hnone : ∀ name, byteCount name ≠ 240 → deepTree.get? [name] = none := fun name hname =>
    get?_deepTree_eq_none fun k _ he => wide_ne_single (k := k) hname he.symm
  have hfar : deepTree.get? (List.replicate 17 wideName) = none :=
    get?_deepTree_eq_none fun k hk he => by
      have hlength := congrArg List.length he
      simp only [List.length_replicate] at hlength
      omega
  have hparent : deepTree.get? (List.replicate 17 wideName).dropLast = some .directory := by
    rw [List.dropLast_replicate]
    exact get?_deepTree (by decide)
  have hs := sound_deepTree.put hparent (hvacant hfar) (.link "/")
  have hl : (deepTree.put (List.replicate 17 wideName) (.link "/")).get? ["l"] = none := by
    rw [get?_put_of_ne _ (wide_ne_single (by decide)).symm, hnone _ (by decide)]
  have hx : ((deepTree.put (List.replicate 17 wideName) (.link "/")).put ["l"]
      (.link (Path.join (List.replicate 16 wideName)))).get? ["x"] = none := by
    rw [get?_put_of_ne _ (by decide), get?_put_of_ne _ (wide_ne_single (by decide)).symm,
      hnone _ (by decide)]
  exact (hs.put (get?_root _) (hvacant hl) _).put (get?_root _) (hvacant hx) _

theorem find_overLink :
    overlookedLink.find overLink = .ok (["x"], .file 0o644 (Utf8.encode "s")) := by
  have hfits : byteCount overLink.text ≤ maxPathBytes := by
    have hx : byteCount overLink.text ≤ _ :=
      Path.byteCount_child_le ⟨.relative, ["l", wideName, ".."]⟩ "x"
    have hup : byteCount (Path.text ⟨.relative, ["l", wideName, ".."]⟩) ≤ _ :=
      Path.byteCount_child_le ⟨.relative, ["l", wideName]⟩ ".."
    have hwide : byteCount (Path.text ⟨.relative, ["l", wideName]⟩) ≤ _ :=
      Path.byteCount_child_le ⟨.relative, ["l"]⟩ wideName
    have hl : byteCount (Path.text ⟨.relative, ["l"]⟩) = 1 := by decide
    have htwo : byteCount ".." = 2 ∧ byteCount "x" = 1 := by decide
    rw [byteCount_wideName] at hwide
    rw [maxPathBytes]
    omega
  have hlooked : LookedUp false wideName ["..", "x"] :=
    ⟨plainName_wideName, by simp, by rw [byteCount_wideName]; decide⟩
  have hbase : linkBase (List.replicate 16 wideName) "/" = [] := if_pos (by decide)
  have htarget : targetParts "/" = [""] := by decide
  have hroot : Walked overlookedLink false 38 [] (targetParts "/" ++ ["..", "x"])
      (.present ["x"] (.file 0o644 (Utf8.encode "s"))) := by
    rw [htarget]
    exact .skip (Or.inl rfl) (.up rfl (.file ⟨by decide, by decide, by decide⟩
      get?_overlookedLink_single.2))
  have hbelow : Walked overlookedLink false 39 []
      (List.replicate 16 wideName ++ [wideName, "..", "x"])
      (.present ["x"] (.file 0o644 (Utf8.encode "s"))) :=
    Walked.below_wide (.link hlooked get?_overlookedLink_far (hbase ▸ hroot)) fun _ =>
      get?_overlookedLink_wide
  have hproper : ∀ name ∈ List.replicate 16 wideName, Path.ProperPart name :=
    fun name hname => (List.eq_of_mem_replicate hname) ▸ properPart_wideName
  have hstart : linkBase [] (Path.join (List.replicate 16 wideName)) = [] := ite_self _
  refine find_eq_ok_iff.mpr ⟨hfits, .link ⟨by decide, by decide, by decide⟩
    get?_overlookedLink_single.1 ?_⟩
  show Walked overlookedLink false 39 (linkBase [] (Path.join (List.replicate 16 wideName))) _ _
  rw [hstart, targetParts_join (by simp) hproper]
  exact hbelow

theorem unlinked_overlookedLink :
    overlookedLink.Unlinked [] (List.replicate 16 wideName ++ ["x"]) := by
  intro above habove target
  rw [List.nil_append]
  rcases List.prefix_concat_iff.mp habove with rfl | habove
  · rw [get?_overlookedLink_below]
    simp
  · obtain ⟨hlength, heq⟩ := List.prefix_replicate_iff.mp habove
    rw [heq, get?_overlookedLink_wide hlength]
    simp

/-- The link `l` is replaced by its target. -/
theorem targetAt?_overlookedLink : overlookedLink.targetAt? ⟨.working 0, ["l"]⟩ =
    some (Path.join (List.replicate 16 wideName)) :=
  targetAt?_eq_some_iff.mpr ⟨by decide, get?_overlookedLink_single.1⟩

theorem leads_overlookedLink :
    let target := Path.join (List.replicate 16 wideName)
    Leads overlookedLink (Waypoint.towards ⟨.working 0, []⟩ target) (Path.split target) 0
      ⟨.working 0, List.replicate 16 wideName⟩ := by
  intro target
  have hproper : ∀ name ∈ List.replicate 16 wideName, Path.ProperPart name :=
    fun name hname => (List.eq_of_mem_replicate hname) ▸ properPart_wideName
  have hplain : ∀ name ∈ List.replicate 16 wideName, PlainName name :=
    fun name hname => (List.eq_of_mem_replicate hname) ▸ plainName_wideName
  rw [Waypoint.towards, isAbsolute_join hproper, Path.split_join (by simp) hproper]
  exact leads_of_unlinked hplain fun above habove =>
    unlinked_overlookedLink above (habove.trans (List.prefix_append _ _))

/-- Resolving would look for the link to the root by a path that is too long. -/
theorem maxPathBytes_lt_far : maxPathBytes <
    byteCount (Waypoint.extend ⟨.working 0, List.replicate 16 wideName⟩ wideName).path.text := by
  have hanchor : byteCount Anchor.relative.text = 0 := by decide
  have htext : ∀ (names : List String) (name : String),
      byteCount (Waypoint.extend ⟨.working 0, names⟩ name).path.text =
        byteCount (Path.join (names ++ [name])) := by
    intro names name
    have hpath : (Waypoint.extend ⟨.working 0, names⟩ name).path = ⟨.relative, names ++ [name]⟩ :=
      rfl
    rw [hpath, Path.byteCount_text, if_neg (by simp), hanchor, Nat.zero_add]
  have hjoin := Path.byteCount_join_replicate 16 wideName
  rw [byteCount_wideName, List.replicate_succ'] at hjoin
  rw [htext, maxPathBytes]
  omega

/-- Behind a link to a directory, a name with no link seen behind it is taken back by `..`. -/
theorem expand_overLink {fs : FileSystem} {target : String} {names : List String}
    (ht : fs.targetAt? ⟨.working 0, ["l"]⟩ = some target)
    (hleads : Leads fs (Waypoint.towards ⟨.working 0, []⟩ target) (Path.split target) 0
      ⟨.working 0, names⟩)
    (hfar : fs.targetAt? (Waypoint.extend ⟨.working 0, names⟩ wideName) = none)
    (hend : fs.targetAt? (Waypoint.extend ⟨.working 0, names⟩ "x") = none) :
    fs.expand fs.expansionBound [] (startOf overLink) overLink.parts =
      .reached ⟨.working 0, names ++ ["x"]⟩ := by
  obtain ⟨n, hn⟩ : ∃ n, fs.expansionBound = n + 1 := ⟨_, rfl⟩
  have hbusy : ∀ w ∈ [Waypoint.mk (.working 0) ["l"]], Busy fs 0 w := by
    intro w hw
    obtain rfl := List.mem_singleton.mp hw
    exact ⟨⟨.working 0, []⟩, "l", target, 0, _, rfl, ht, hleads, Nat.le_refl 0⟩
  have htarget := expand_of_leads hleads (List.nodup_singleton _) hbusy (Nat.le_of_eq hn)
  calc fs.expand fs.expansionBound [] ⟨.working 0, []⟩ ["l", wideName, "..", "x"]
      = fs.expand (n + 1) [] ⟨.working 0, []⟩ ["l", wideName, "..", "x"] := by rw [hn]
    _ = fs.expand (n + 1) [] ⟨.working 0, names⟩ [wideName, "..", "x"] :=
        expand_link (by decide) ht List.not_mem_nil htarget
    _ = fs.expand (n + 1) [] (Waypoint.extend ⟨.working 0, names⟩ wideName) ["..", "x"] :=
        expand_plain plainName_wideName hfar
    _ = fs.expand (n + 1) [] ⟨.working 0, names⟩ ["x"] := by
        rw [expand_up rfl, Waypoint.ascend_extend]
    _ = fs.expand (n + 1) [] ⟨.working 0, names ++ ["x"]⟩ [] := expand_plain (by decide) hend
    _ = .reached ⟨.working 0, names ++ ["x"]⟩ := by rw [expand, expandWith]

theorem plainName_below : ∀ name ∈ List.replicate 16 wideName ++ ["x"], PlainName name := by
  intro name hname
  rcases List.mem_append.mp hname with hname | hname
  · rw [List.eq_of_mem_replicate hname]
    exact plainName_wideName
  · rw [List.mem_singleton.mp hname]
    decide

theorem resolve_overLink :
    overlookedLink.resolve overLink =
      .ok (Location.path (List.replicate 16 wideName ++ ["x"])) := by
  have hfar : overlookedLink.targetAt? (Waypoint.extend ⟨.working 0, List.replicate 16 wideName⟩
      wideName) = none := by rw [targetAt?, if_pos maxPathBytes_lt_far]
  have hend := targetAt?_eq_none (w := Waypoint.extend ⟨.working 0, List.replicate 16 wideName⟩ "x")
    (unlinked_overlookedLink _ List.prefix_rfl)
  exact resolve_of_expand
    (expand_overLink targetAt?_overlookedLink leads_overlookedLink hfar hend) plainName_below
    plainName_below unlinked_overlookedLink

theorem writable_below :
    overlookedLink.Writable (Location.path (List.replicate 16 wideName ++ ["x"])) none := by
  have hdir : ∀ k ≤ 16, overlookedLink.get? (List.replicate k wideName) = some .directory :=
    fun _ => get?_overlookedLink_wide
  have hlooked : LookedUp false "x" [] := ⟨by decide, by decide, by decide⟩
  have hparent : (Location.path (List.replicate 16 wideName ++ ["x"])).parent =
      Location.path (List.replicate 16 wideName) :=
    congrArg (Path.mk .root) List.dropLast_concat
  have hname : (Location.path (List.replicate 16 wideName ++ ["x"])).name = "x" := by
    rw [Path.name, Location.path, List.getLast?_concat]
    rfl
  have hfits : byteCount (Location.path (List.replicate 16 wideName ++ ["x"])).text ≤ 4081 :=
    Nat.le_trans (byteCount_below_wide "x") (by decide +kernel)
  have hplace : overlookedLink.place (Location.path (List.replicate 16 wideName ++ ["x"])) =
      .ok (.vacant (List.replicate 16 wideName) "x") :=
    follow_eq_ok_iff.mpr ⟨Nat.le_trans hfits (by decide),
      Walked.below_wide (.vacant hlooked get?_overlookedLink_below) hdir⟩
  refine ⟨?_, ?_, hfits, ?_, ?_⟩
  · rw [hparent]
    exact isDirectory_eq_true_iff.mpr ⟨_, find_wide hdir⟩
  · rw [hname]
    decide
  · rw [isDirectory, find, hplace]
  · intro _ q hq
    cases hq

/-- Where a link is overlooked, what is written is not read: the text goes to another file than
the one that the path leads to, whatever text it is. -/
theorem not_read_over_overlooked_link (settings : Settings) (text : String) :
    let written := overlookedLink.writeSource settings overLink text none
    overlookedLink.Sound ∧ overlookedLink.Overlooks (startOf overLink) overLink.parts ∧
      overlookedLink.readSource overLink = .ok "s" ∧ written.1 = .ok () ∧
      written.2 ≠ overlookedLink ∧ written.2.readSource overLink = .ok "s" := by
  intro written
  have hs := sound_overlookedLink
  have hoverlooks : overlookedLink.Overlooks (startOf overLink) overLink.parts :=
    .beyond (by decide) targetAt?_overlookedLink leads_overlookedLink
      (.here plainName_wideName get?_overlookedLink_far maxPathBytes_lt_far)
  have hentry := entryAt_of_unlinked plainName_below unlinked_overlookedLink
  have hlink : ∀ target, overlookedLink.get? (overlookedLink.entryAt
      (Location.path (List.replicate 16 wideName ++ ["x"]))) ≠ some (.link target) := by
    rw [hentry, get?_overlookedLink_below]
    simp
  obtain ⟨mode, hrep⟩ : ∃ mode, overlookedLink.Replaceable settings _ none mode :=
    (replaceable_iff_writable hs resolve_overLink hlink).mpr writable_below
  have hwritten : written = _ := hrep.writeSource_eq resolve_overLink text
  rw [hentry] at hwritten
  have hread : overlookedLink.readSource overLink = .ok "s" :=
    readSource_of_readBytes (readBytes_eq_ok_iff.mpr ⟨_, _, find_overLink⟩)
  refine ⟨hs, hoverlooks, hread, by rw [hwritten], ?_, ?_⟩
  · rw [hwritten]
    intro hsame
    have hget := congrArg (fun fs => fs.get? (List.replicate 16 wideName ++ ["x"])) hsame
    simp only [get?_overlookedLink_below] at hget
    rw [get?_put_self _ (by simp)] at hget
    cases hget
  · rw [hwritten]
    have hother : ["x"] ≠ List.replicate 16 wideName ++ ["x"] := fun he => by
      have hlength := congrArg List.length he
      simp at hlength
    rw [hentry] at hlink
    have hkept := find_put_of_ne find_overLink (hentry ▸ hrep.free) hlink hother
      (.file mode (Utf8.encode text))
    exact readSource_of_readBytes (readBytes_eq_ok_iff.mpr ⟨_, _, hkept⟩)

end FileSystem

end ClassOutline
