import ClassOutline.FileSystem.Listing
import ClassOutline.Proofs.FileSystem.Writing

/-!
# What a listing depends on

A listing reads names and the kinds of entries, never the bytes of a file: with other
bytes in a file every path leads where it led (`find_content`) and the same files are
listed (`listFiles_content`). A listing ends early for one reason only, a name whose path
is too long or leads over a link to a name that is (`EndsListing`).
-/

namespace ClassOutline

/-! ## Steps that can fail -/

section Except

variable {α β ε : Type} {x : Except ε α} {f : α → Except ε β} {xs : List α} {ys : List β} {e : ε}

theorem bind_eq_ok_iff {y : β} : (x >>= f) = .ok y ↔ ∃ a, x = .ok a ∧ f a = .ok y := by
  cases x with
  | error e => exact ⟨fun h => (nomatch h), fun ⟨_, h, _⟩ => (nomatch h)⟩
  | ok a => exact ⟨fun h => ⟨a, rfl, h⟩, fun ⟨_, h, hf⟩ => Except.ok.inj h ▸ hf⟩

theorem bind_eq_error_iff :
    (x >>= f) = .error e ↔ x = .error e ∨ ∃ a, x = .ok a ∧ f a = .error e := by
  cases x with
  | error d => exact ⟨fun h => Or.inl (Except.error.inj h ▸ rfl), fun h => h.elim (· ▸ rfl) nofun⟩
  | ok a => exact ⟨fun h => Or.inr ⟨a, rfl, h⟩, fun h => h.elim nofun fun ⟨_, h, hf⟩ =>
      Except.ok.inj h ▸ hf⟩

theorem mapM_eq_ok_map {g : α → β} (h : ∀ a ∈ xs, f a = .ok (g a)) :
    xs.mapM f = .ok (xs.map g) := by
  induction xs with
  | nil => rfl
  | cons a xs ih =>
    obtain ⟨ha, hxs⟩ := List.forall_mem_cons.mp h
    rw [List.mapM_cons, ha, ih hxs]
    rfl

theorem exists_of_mapM_ok (h : xs.mapM f = .ok ys) : ∀ a ∈ xs, ∃ y, f a = .ok y := by
  induction xs generalizing ys with
  | nil => simp
  | cons a xs ih =>
    rw [List.mapM_cons, bind_eq_ok_iff] at h
    obtain ⟨y, hy, h⟩ := h
    obtain ⟨zs, hzs, _⟩ := bind_eq_ok_iff.mp h
    exact List.forall_mem_cons.mpr ⟨⟨y, hy⟩, ih hzs⟩

theorem exists_of_mapM_error (h : xs.mapM f = .error e) : ∃ a ∈ xs, f a = .error e := by
  induction xs with
  | nil => cases h
  | cons a xs ih =>
    rw [List.mapM_cons, bind_eq_error_iff] at h
    rcases h with ha | ⟨b, _, h⟩
    · exact ⟨a, List.mem_cons_self .., ha⟩
    · rcases bind_eq_error_iff.mp h with hxs | ⟨_, _, h⟩
      · obtain ⟨c, hc, hf⟩ := ih hxs
        exact ⟨c, List.mem_cons_of_mem _ hc, hf⟩
      · cases h

theorem exists_of_mem_mapM {y : β} (h : xs.mapM f = .ok ys) (hy : y ∈ ys) :
    ∃ a ∈ xs, f a = .ok y := by
  induction xs generalizing ys with
  | nil =>
    cases h
    cases hy
  | cons a xs ih =>
    rw [List.mapM_cons, bind_eq_ok_iff] at h
    obtain ⟨z, hz, h⟩ := h
    obtain ⟨zs, hzs, h⟩ := bind_eq_ok_iff.mp h
    obtain rfl : z :: zs = ys := Except.ok.inj h
    rcases List.mem_cons.mp hy with rfl | hy
    · exact ⟨a, List.mem_cons_self .., hz⟩
    · obtain ⟨b, hb, hf⟩ := ih hzs hy
      exact ⟨b, List.mem_cons_of_mem _ hb, hf⟩

end Except

namespace FileSystem

section Listing

variable {fs : FileSystem} {endings : List String} {p : Path} {e : OsError} {lead : Nat}

/-! ## What is listed -/

theorem opened?_eq_some_iff {loc : Location} : fs.opened? lead p = some loc ↔
    byteCount p.text + lead ≤ maxPathBytes ∧ fs.find p = .ok (loc, .directory) := by
  rw [opened?]
  split
  · rename_i hlong
    exact iff_of_false nofun fun h => absurd hlong (Nat.not_lt.mpr h.1)
  · rename_i hshort
    cases fs.find p with
    | error c => simp
    | ok found =>
      obtain ⟨x, d⟩ := found
      cases d <;> simp [Nat.le_of_not_lt hshort]

theorem isDirectory_of_opened {loc : Location} (h : fs.opened? lead p = some loc) :
    fs.isDirectory p = true :=
  isDirectory_eq_true_iff.mpr ⟨loc, (opened?_eq_some_iff.mp h).2⟩

theorem mem_sortedNames {name : String} :
    name ∈ fs.sortedNames lead p ↔ ∃ loc, fs.opened? lead p = some loc ∧ name ∈ fs.namesIn loc := by
  rw [sortedNames]
  cases fs.opened? lead p <;> simp

/-- The name that a location has in a directory. -/
def nameBelow? (dir key : Location) : Option String :=
  match key.getLast? with
  | some name => if key.dropLast = dir then some name else none
  | none => none

theorem namesIn_eq (fs : FileSystem) (dir : Location) :
    fs.namesIn dir = (fs.entries.map Prod.fst).filterMap (nameBelow? dir) := by
  rw [namesIn, List.filterMap_map]
  rfl

theorem exists_of_mem_namesIn {loc : Location} {name : String} (h : name ∈ fs.namesIn loc) :
    ∃ x ∈ fs.entries, name ∈ x.1 := by
  obtain ⟨x, hx, hname⟩ := List.mem_filterMap.mp h
  refine ⟨x, hx, ?_⟩
  split at hname
  · rename_i last hlast
    split at hname
    · rw [← Option.some.inj hname]
      exact List.mem_of_getLast? hlast
    · cases hname
  · cases hname

theorem exists_of_mem_filesAmong {names : List String} {paths : List Path}
    (h : fs.filesAmong p names = .ok paths) :
    ∀ q ∈ paths, ∃ name ∈ names, q = p.child name := by
  induction names generalizing paths with
  | nil =>
    cases h
    simp
  | cons name rest ih =>
    rw [filesAmong, bind_eq_ok_iff] at h
    obtain ⟨isFile, _, h⟩ := h
    obtain ⟨found, hfound, h⟩ := bind_eq_ok_iff.mp h
    obtain rfl := Except.ok.inj h
    have htail : ∀ q ∈ found, ∃ x ∈ name :: rest, q = p.child x := by
      intro q hq
      obtain ⟨x, hx, hqx⟩ := ih hfound q hq
      exact ⟨x, List.mem_cons_of_mem _ hx, hqx⟩
    cases isFile with
    | false => exact htail
    | true => exact List.forall_mem_cons.mpr ⟨⟨name, List.mem_cons_self .., rfl⟩, htail⟩

/-- What holds of a path and is handed down to the entries of a directory holds of
every path listed. -/
theorem forall_mem_listTo {P : Path → Prop}
    (hchild : ∀ dir name, P dir → name ∈ fs.sortedNames lead dir → P (dir.child name)) {n : Nat}
    {paths : List Path} (h : fs.listTo endings lead n p = .ok paths) (hp : P p) :
    ∀ q ∈ paths, P q := by
  induction n generalizing p paths with
  | zero =>
    cases h
    simp
  | succ n ih =>
    rw [listTo, bind_eq_ok_iff] at h
    obtain ⟨files, hfiles, h⟩ := h
    obtain ⟨below, hbelow, h⟩ := bind_eq_ok_iff.mp h
    obtain rfl := Except.ok.inj h
    intro q hq
    rcases List.mem_append.mp hq with hq | hq
    · obtain ⟨name, hname, rfl⟩ := exists_of_mem_filesAmong hfiles q hq
      exact hchild p name hp (List.mem_filter.mp hname).1
    · obtain ⟨listed, hlisted, hq⟩ := List.mem_flatten.mp hq
      obtain ⟨name, hname, hlist⟩ := exists_of_mem_mapM hbelow hlisted
      exact ih hlist (hchild p name hp (List.mem_filter.mp hname).1) q hq

/-! ## What ends a listing -/

/-- A name that ends a listing: it is in a directory that is opened, is taken for no
directory and has one of the endings, and its path is too long or leads over a link to a
name that is. -/
structure EndsListing (fs : FileSystem) (endings : List String) (lead : Nat) (dir : Path)
    (name : String) : Prop where
  listed : name ∈ fs.sortedNames lead dir
  ending : hasEnding endings name = true
  noDirectory : fs.entersDirectory lead dir name = false
  tooLong : fs.find (dir.child name) = .error .nameTooLong

theorem isFile_eq_error_iff :
    fs.isFile p = .error e ↔
      fs.find p = .error .nameTooLong ∧ e = ⟨.nameTooLong, p.text, none⟩ := by
  rw [← find?_eq_error_iff, isFile]
  cases fs.find? p with
  | error d => simp
  | ok found =>
    rcases found with _ | ⟨x, d⟩
    · simp
    · cases d <;> simp

theorem isFile_eq_true_iff :
    fs.isFile p = .ok true ↔ ∃ loc mode bytes, fs.find p = .ok (loc, .file mode bytes) := by
  simp only [← find?_eq_some_iff]
  rw [isFile]
  cases fs.find? p with
  | error d => simp
  | ok found =>
    rcases found with _ | ⟨x, d⟩
    · simp
    · cases d <;> simp

theorem filesAmong_error {names : List String} (h : fs.filesAmong p names = .error e) :
    ∃ name ∈ names, fs.isFile (p.child name) = .error e := by
  induction names with
  | nil => cases h
  | cons name rest ih =>
    rw [filesAmong, bind_eq_error_iff] at h
    rcases h with hfile | ⟨isFile, _, h⟩
    · exact ⟨name, List.mem_cons_self .., hfile⟩
    · rcases bind_eq_error_iff.mp h with hrest | ⟨_, _, h⟩
      · obtain ⟨x, hx, hxe⟩ := ih hrest
        exact ⟨x, List.mem_cons_of_mem _ hx, hxe⟩
      · cases h

theorem exists_endsListing {n : Nat} (h : fs.listTo endings lead n p = .error e) :
    ∃ dir name, fs.EndsListing endings lead dir name ∧
      e = ⟨.nameTooLong, (dir.child name).text, none⟩ := by
  induction n generalizing p with
  | zero => cases h
  | succ n ih =>
    rw [listTo, bind_eq_error_iff] at h
    rcases h with hfiles | ⟨files, _, h⟩
    · obtain ⟨name, hname, hfile⟩ := filesAmong_error hfiles
      obtain ⟨hlisted, hkept⟩ := List.mem_filter.mp hname
      obtain ⟨henters, hending⟩ := Bool.and_eq_true_iff.mp hkept
      obtain ⟨hlong, he⟩ := isFile_eq_error_iff.mp hfile
      exact ⟨p, name, ⟨hlisted, hending, by simpa using henters, hlong⟩, he⟩
    · rcases bind_eq_error_iff.mp h with hbelow | ⟨_, _, h⟩
      · obtain ⟨name, _, hlist⟩ := exists_of_mapM_error hbelow
        exact ih hlist
      · cases h

/-- A name in the directory that is listed does end the listing. -/
theorem EndsListing.listTo_error {name : String} (h : fs.EndsListing endings lead p name)
    (n : Nat) : ∃ e, fs.listTo endings lead (n + 1) p = .error e := by
  have hfile : fs.isFile (p.child name) = .error ⟨.nameTooLong, (p.child name).text, none⟩ :=
    isFile_eq_error_iff.mpr ⟨h.tooLong, rfl⟩
  have hall : ∀ names, name ∈ names → ∃ e, fs.filesAmong p names = .error e := by
    intro names hname
    induction names with
    | nil => cases hname
    | cons x rest ih =>
      simp only [filesAmong, bind_eq_error_iff]
      cases hx : fs.isFile (p.child x) with
      | error e => exact ⟨e, Or.inl rfl⟩
      | ok isFile =>
        rcases List.mem_cons.mp hname with rfl | hrest
        · rw [hfile] at hx
          cases hx
        · obtain ⟨e, he⟩ := ih hrest
          exact ⟨e, Or.inr ⟨isFile, rfl, Or.inl he⟩⟩
  have hkept : (!fs.entersDirectory lead p name && hasEnding endings name) = true := by
    rw [h.ending, h.noDirectory]
    rfl
  obtain ⟨e, he⟩ := hall ((fs.sortedNames lead p).filter fun name =>
    !fs.entersDirectory lead p name && hasEnding endings name)
    (List.mem_filter.mpr ⟨h.listed, hkept⟩)
  exact ⟨e, by rw [listTo, bind_eq_error_iff]; exact Or.inl he⟩

/-! ## Names that can be looked up -/

/-- What a file system of a running machine has in addition: names of entries can be
written in paths, and none is too long. -/
structure WellNamed (fs : FileSystem) : Prop where
  proper : ∀ x ∈ fs.entries, ∀ name ∈ x.1, Path.ProperPart name
  short : ∀ x ∈ fs.entries, ∀ name ∈ x.1, byteCount name ≤ maxNameBytes

/-- No link leads to a name that is too long. -/
def ShortTargets (fs : FileSystem) : Prop :=
  ∀ loc target, fs.get? loc = some (.link target) →
    ∀ name ∈ targetParts target, byteCount name ≤ maxNameBytes

theorem walkWith_ne_nameTooLong {writing : Bool}
    {follow : Location → List String → Except OsCause Place} {here : Location}
    {names : List String} (htargets : fs.ShortTargets)
    (hfollow : ∀ base names, (∀ name ∈ names, byteCount name ≤ maxNameBytes) →
      follow base names ≠ .error .nameTooLong)
    (hnames : ∀ name ∈ names, byteCount name ≤ maxNameBytes) :
    fs.walkWith writing follow here names ≠ .error .nameTooLong := by
  induction names generalizing here with
  | nil => simp [walkWith]
  | cons name rest ih =>
    obtain ⟨hname, hrest⟩ := List.forall_mem_cons.mp hnames
    rw [walkWith]
    split
    · exact ih hrest
    split
    · exact ih hrest
    split
    · simp
    rw [if_neg (Nat.not_lt.mpr hname)]
    split
    · split <;> simp
    · exact ih hrest
    · split <;> simp
    · rename_i target hget
      apply hfollow
      intro x hx
      rcases List.mem_append.mp hx with hx | hx
      · exact htargets _ target hget x hx
      · exact hrest x hx

theorem walk_ne_nameTooLong {writing : Bool} {n : Nat} {here : Location} {names : List String}
    (htargets : fs.ShortTargets) (hnames : ∀ name ∈ names, byteCount name ≤ maxNameBytes) :
    fs.walk writing n here names ≠ .error .nameTooLong := by
  induction n generalizing here names with
  | zero => exact walkWith_ne_nameTooLong htargets (by simp) hnames
  | succ n ih => exact walkWith_ne_nameTooLong htargets (fun _ _ hshort => ih hshort) hnames

theorem find_ne_nameTooLong (htargets : fs.ShortTargets)
    (hfits : byteCount p.text ≤ maxPathBytes)
    (hparts : ∀ name ∈ p.parts, byteCount name ≤ maxNameBytes) :
    fs.find p ≠ .error .nameTooLong := by
  have hwalk : fs.place p ≠ .error .nameTooLong := by
    rw [place, follow_of_short hfits]
    exact walk_ne_nameTooLong htargets hparts
  intro h
  rcases find_error_iff.mp h with h | ⟨h, _⟩
  · exact hwalk h
  · cases h

/-- Where no link leads to a name that is too long, only the length of its path makes a
name end a listing. -/
theorem EndsListing.long {name : String} (hnamed : fs.WellNamed) (htargets : fs.ShortTargets)
    (h : fs.EndsListing endings lead p name) : maxPathBytes < byteCount (p.child name).text := by
  refine Nat.lt_of_not_le fun hfits => find_ne_nameTooLong htargets hfits ?_ h.tooLong
  obtain ⟨loc, hopened, hmem⟩ := mem_sortedNames.mp h.listed
  obtain ⟨x, hx, hname⟩ := exists_of_mem_namesIn hmem
  intro part hpart
  rcases List.mem_append.mp hpart with hpart | hpart
  · exact (find_eq_ok_iff.mp (opened?_eq_some_iff.mp hopened).2).2.short part hpart
  · rw [List.mem_singleton.mp hpart]
    exact hnamed.short x hx name hname

theorem properPart_of_mem_listFiles {root : Path} {paths : List Path} (hnamed : fs.WellNamed)
    (hroot : ∀ part ∈ root.parts, Path.ProperPart part)
    (h : fs.listFiles root endings = .ok paths) :
    ∀ q ∈ paths, ∀ part ∈ q.parts, Path.ProperPart part := by
  refine forall_mem_listTo ?_ h hroot
  intro dir name hdir hname part hpart
  obtain ⟨_, _, hmem⟩ := mem_sortedNames.mp hname
  obtain ⟨x, hx, hin⟩ := exists_of_mem_namesIn hmem
  rcases List.mem_append.mp hpart with hpart | hpart
  · exact hdir part hpart
  · rw [List.mem_singleton.mp hpart]
    exact hnamed.proper x hx name hin

end Listing

/-! ## Other bytes in a file -/

/-- The second result is the first one, or both have reached a location and found the
two entries there. -/
def Renewed (loc : Location) (old new : Entry) (a b : Except OsCause Place) : Prop :=
  b = a ∨ a = .ok (.present loc old) ∧ b = .ok (.present loc new)

section Content

variable {fs : FileSystem} {loc : Location} {mode : Nat} {bytes : Bytes}

theorem ne_nil_of_file (hfile : fs.get? loc = some (.file mode bytes)) : loc ≠ [] := by
  rintro rfl
  rw [fs.get?_root] at hfile
  cases hfile

theorem walkWith_content {writing : Bool}
    {follow follow' : Location → List String → Except OsCause Place} (bytes' : Bytes)
    (hfile : fs.get? loc = some (.file mode bytes))
    (hfollow : ∀ base names, Renewed loc (.file mode bytes) (.file mode bytes')
      (follow base names) (follow' base names)) (here : Location) (names : List String) :
    Renewed loc (.file mode bytes) (.file mode bytes') (fs.walkWith writing follow here names)
      ((fs.put loc (.file mode bytes')).walkWith writing follow' here names) := by
  induction names generalizing here with
  | nil => exact Or.inl rfl
  | cons name rest ih =>
    simp only [walkWith]
    split
    · exact ih here
    split
    · exact ih here.dropLast
    split
    · exact Or.inl rfl
    split
    · exact Or.inl rfl
    by_cases hloc : here ++ [name] = loc
    · rw [hloc, hfile, fs.get?_put_self (ne_nil_of_file hfile)]
      simp only
      split
      · exact Or.inr ⟨rfl, rfl⟩
      · exact Or.inl rfl
    · rw [fs.get?_put_of_ne hloc]
      cases fs.get? (here ++ [name]) with
      | none => exact Or.inl rfl
      | some e =>
        cases e with
        | file => exact Or.inl rfl
        | directory => exact ih _
        | link target => exact hfollow _ _

theorem walk_content (bytes' : Bytes) (hfile : fs.get? loc = some (.file mode bytes))
    (writing : Bool) (n : Nat) (here : Location) (names : List String) :
    Renewed loc (.file mode bytes) (.file mode bytes') (fs.walk writing n here names)
      ((fs.put loc (.file mode bytes')).walk writing n here names) := by
  induction n generalizing here names with
  | zero => exact walkWith_content bytes' hfile (fun _ _ => Or.inl rfl) here names
  | succ n ih => exact walkWith_content bytes' hfile ih here names

/-- Whatever a path led to, it still leads to, with the new bytes if that is the file. -/
theorem find_content (bytes' : Bytes) (hfile : fs.get? loc = some (.file mode bytes)) (p : Path) :
    (fs.put loc (.file mode bytes')).find p = fs.find p ∨
      fs.find p = .ok (loc, .file mode bytes) ∧
        (fs.put loc (.file mode bytes')).find p = .ok (loc, .file mode bytes') := by
  have hbase : (fs.put loc (.file mode bytes')).base p = fs.base p := rfl
  have hplace : Renewed loc (.file mode bytes) (.file mode bytes') (fs.place p)
      ((fs.put loc (.file mode bytes')).place p) := by
    rw [place, place, follow, follow, hbase]
    split
    · exact Or.inl rfl
    · exact walk_content bytes' hfile false maxLinks (fs.base p) p.parts
  rcases hplace with hsame | ⟨hold, hnew⟩
  · exact Or.inl (by rw [find, find, hsame])
  · exact Or.inr ⟨by rw [find, hold], by rw [find, hnew]⟩

theorem isFile_content (bytes' : Bytes) (hfile : fs.get? loc = some (.file mode bytes))
    (p : Path) : (fs.put loc (.file mode bytes')).isFile p = fs.isFile p := by
  rw [isFile, isFile, find?, find?]
  rcases find_content bytes' hfile p with hsame | ⟨hold, hnew⟩
  · rw [hsame]
  · rw [hold, hnew]

theorem opened?_content (bytes' : Bytes) (hfile : fs.get? loc = some (.file mode bytes))
    (lead : Nat) (p : Path) :
    (fs.put loc (.file mode bytes')).opened? lead p = fs.opened? lead p := by
  rw [opened?, opened?]
  rcases find_content bytes' hfile p with hsame | ⟨hold, hnew⟩
  · rw [hsame]
  · rw [hold, hnew]

theorem namesIn_content (bytes' : Bytes) (hfile : fs.get? loc = some (.file mode bytes))
    (dir : Location) : (fs.put loc (.file mode bytes')).namesIn dir = fs.namesIn dir := by
  rw [get?, if_neg (ne_nil_of_file hfile)] at hfile
  rw [namesIn_eq, namesIn_eq, put, map_fst_putEntry hfile]

theorem sortedNames_content (bytes' : Bytes) (hfile : fs.get? loc = some (.file mode bytes))
    (lead : Nat) (p : Path) :
    (fs.put loc (.file mode bytes')).sortedNames lead p = fs.sortedNames lead p := by
  simp only [sortedNames, opened?_content bytes' hfile, namesIn_content bytes' hfile]

theorem entersDirectory_content (bytes' : Bytes) (hfile : fs.get? loc = some (.file mode bytes))
    (lead : Nat) (p : Path) :
    (fs.put loc (.file mode bytes')).entersDirectory lead p = fs.entersDirectory lead p := by
  funext name
  simp only [entersDirectory, opened?_content bytes' hfile]
  cases fs.opened? lead p with
  | none => rfl
  | some dir =>
    by_cases hloc : dir ++ [name] = loc
    · simp only [hloc, hfile, fs.get?_put_self (ne_nil_of_file hfile)]
    · simp only [fs.get?_put_of_ne hloc]

theorem depthBound_content (bytes' : Bytes) (hfile : fs.get? loc = some (.file mode bytes)) :
    (fs.put loc (.file mode bytes')).depthBound = fs.depthBound := by
  rw [get?, if_neg (ne_nil_of_file hfile)] at hfile
  have hcount : (fs.put loc (.file mode bytes')).directoryCount = fs.directoryCount := by
    rw [directoryCount_eq, directoryCount_eq]
    refine countP_putEntry rfl fun d hd => ?_
    rw [← Option.some.inj (hfile.symm.trans hd)]
    rfl
  rw [depthBound, depthBound, hcount]

theorem listTo_content (bytes' : Bytes) (hfile : fs.get? loc = some (.file mode bytes))
    (endings : List String) (lead n : Nat) (p : Path) :
    (fs.put loc (.file mode bytes')).listTo endings lead n p = fs.listTo endings lead n p := by
  have hamong : ∀ p names,
      (fs.put loc (.file mode bytes')).filesAmong p names = fs.filesAmong p names := by
    intro p names
    induction names with
    | nil => rfl
    | cons name rest ih => simp only [filesAmong, isFile_content bytes' hfile, ih]
  induction n generalizing p with
  | zero => rfl
  | succ n ih =>
    simp only [listTo, hamong, sortedNames_content bytes' hfile,
      entersDirectory_content bytes' hfile, ih]

/-- The same files are listed, whatever bytes are in a file. -/
theorem listFiles_content (bytes' : Bytes) (hfile : fs.get? loc = some (.file mode bytes))
    (root : Path) (endings : List String) :
    (fs.put loc (.file mode bytes')).listFiles root endings = fs.listFiles root endings := by
  rw [listFiles, listFiles, depthBound_content bytes' hfile, listTo_content bytes' hfile]

end Content

end FileSystem

end ClassOutline
