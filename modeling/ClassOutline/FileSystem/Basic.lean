import ClassOutline.Path

/-!
# File systems as values

A file system is a list of entries by location, the root directory being always there. Files that
were created under a temporary name and have not got their final name yet are kept apart: such a
name is different from every other name, so they never get in the way of an entry.

Putting an entry changes what its own location holds and nothing else (`get?_put_self`,
`get?_put_of_ne`).
-/

namespace ClassOutline

/-- What a location holds. -/
inductive Entry where
  | file (mode : Nat) (bytes : Bytes)
  | directory
  | link (target : String)
  deriving DecidableEq, Repr

/-- A file that still has its temporary name. -/
structure StagedFile where
  name : Path
  mode : Nat
  bytes : Bytes
  deriving DecidableEq, Repr

/-- State of a file system, with the directory that relative paths start from. -/
structure FileSystem where
  entries : List (Location × Entry)
  staged : List StagedFile
  workingDirectory : Location
  /-- Permission bits of directories that do not have the usual ones. -/
  directoryModes : List (Location × Nat)
  deriving DecidableEq, Repr

namespace FileSystem

def ofEntries (entries : List (Location × Entry)) : FileSystem :=
  ⟨entries, [], [], []⟩

/-- What a location holds, without following links. -/
def get? (fs : FileSystem) (loc : Location) : Option Entry :=
  if loc = [] then some .directory else fs.entries.lookup loc

/-- Permission bits of what a location holds. Those of a link are never asked for: whoever asks
follows it first. -/
def modeOf (fs : FileSystem) : Location × Entry → Nat
  | (_, .file mode _) => mode
  | (loc, .directory) => (fs.directoryModes.lookup loc).getD 0o755
  | (_, .link _) => 0o777

/-- Puts an entry into a list of entries: in place of the one at its location, or at the end. -/
def putEntry (loc : Location) (e : Entry) : List (Location × Entry) → List (Location × Entry)
  | [] => [(loc, e)]
  | x :: xs => if x.1 = loc then (loc, e) :: xs else x :: putEntry loc e xs

theorem lookup_putEntry_self (loc : Location) (e : Entry) (es : List (Location × Entry)) :
    (putEntry loc e es).lookup loc = some e := by
  induction es with
  | nil => simp [putEntry]
  | cons x xs ih =>
    obtain ⟨key, value⟩ := x
    by_cases h : key = loc
    · simp [putEntry, h]
    · have hne : (loc == key) = false := by simpa using fun h' => h h'.symm
      simp [putEntry, h, List.lookup_cons, hne, ih]

theorem lookup_putEntry_of_ne {loc other : Location} (h : other ≠ loc) (e : Entry)
    (es : List (Location × Entry)) :
    (putEntry loc e es).lookup other = es.lookup other := by
  have hne : (other == loc) = false := by simpa using h
  induction es with
  | nil => simp [putEntry, List.lookup_cons, hne]
  | cons x xs ih =>
    obtain ⟨key, value⟩ := x
    by_cases hx : key = loc
    · simp [putEntry, hx, List.lookup_cons, hne]
    · simp [putEntry, hx, List.lookup_cons, ih]

/-- Putting an entry that is there already changes nothing. -/
theorem putEntry_eq_self {loc : Location} {e : Entry} {es : List (Location × Entry)}
    (h : es.lookup loc = some e) : putEntry loc e es = es := by
  induction es with
  | nil => simp at h
  | cons x xs ih =>
    obtain ⟨key, value⟩ := x
    by_cases hx : key = loc
    · have he : value = e := by simpa [List.lookup_cons, hx] using h
      simp [putEntry, hx, he]
    · have hne : (loc == key) = false := by simpa using fun h' => hx h'.symm
      have hxs : xs.lookup loc = some e := by simpa [List.lookup_cons, hne] using h
      simp [putEntry, hx, ih hxs]

/-- The last of two entries put at one location stays. -/
theorem putEntry_putEntry (loc : Location) (d e : Entry) (es : List (Location × Entry)) :
    putEntry loc e (putEntry loc d es) = putEntry loc e es := by
  induction es with
  | nil => simp [putEntry]
  | cons x xs ih =>
    by_cases hx : x.1 = loc <;> simp [putEntry, hx, ih]

/-- An entry put over another one leaves the locations as they are. -/
theorem map_fst_putEntry {loc : Location} {d : Entry} {es : List (Location × Entry)}
    (h : es.lookup loc = some d) (e : Entry) :
    (putEntry loc e es).map Prod.fst = es.map Prod.fst := by
  induction es with
  | nil => simp at h
  | cons x xs ih =>
    obtain ⟨key, value⟩ := x
    by_cases hx : key = loc
    · simp [putEntry, hx]
    · have hne : (loc == key) = false := by simpa using fun h' => hx h'.symm
      have hxs : xs.lookup loc = some d := by simpa [List.lookup_cons, hne] using h
      simp [putEntry, hx, ih hxs]

/-- Entries of a kind are as many as before if neither the entry that is put nor one that it is put
over is of the kind. -/
theorem countP_putEntry {kind : Entry → Bool} {loc : Location} {e : Entry}
    {es : List (Location × Entry)} (hnew : kind e = false)
    (hold : ∀ d, es.lookup loc = some d → kind d = false) :
    (putEntry loc e es).countP (fun x => kind x.2) = es.countP (fun x => kind x.2) := by
  induction es with
  | nil => simp [putEntry, hnew]
  | cons x xs ih =>
    obtain ⟨key, value⟩ := x
    by_cases hx : key = loc
    · have hvalue : kind value = false := hold value (by simp [hx])
      simp [putEntry, hx, hnew, hvalue]
    · have hne : (loc == key) = false := by simpa using fun h' => hx h'.symm
      rw [putEntry, if_neg hx, List.countP_cons, List.countP_cons, ih]
      simpa [List.lookup_cons, hne] using hold

def put (fs : FileSystem) (loc : Location) (e : Entry) : FileSystem :=
  { fs with entries := putEntry loc e fs.entries }

theorem get?_put_self (fs : FileSystem) {loc : Location} (h : loc ≠ []) (e : Entry) :
    (fs.put loc e).get? loc = some e := by
  simp [get?, put, h, lookup_putEntry_self]

theorem get?_put_of_ne (fs : FileSystem) {loc other : Location} (h : other ≠ loc) (e : Entry) :
    (fs.put loc e).get? other = fs.get? other := by
  simp [get?, put, lookup_putEntry_of_ne h]

theorem put_put (fs : FileSystem) (loc : Location) (d e : Entry) :
    (fs.put loc d).put loc e = fs.put loc e := by
  simp only [put, putEntry_putEntry]

theorem put_eq_self {fs : FileSystem} {loc : Location} {e : Entry} (hne : loc ≠ [])
    (h : fs.get? loc = some e) : fs.put loc e = fs := by
  rw [get?, if_neg hne] at h
  rw [put, putEntry_eq_self h]

/-- The names of the entries directly below a location. -/
def namesIn (fs : FileSystem) (loc : Location) : List String :=
  fs.entries.filterMap fun x =>
    match x.1.getLast? with
    | some name => if x.1.dropLast = loc then some name else none
    | none => none

def linkCount (fs : FileSystem) : Nat :=
  fs.entries.countP fun x => match x.2 with
    | .link _ => true
    | _ => false

def directoryCount (fs : FileSystem) : Nat :=
  fs.entries.countP fun x => match x.2 with
    | .directory => true
    | _ => false

def base (fs : FileSystem) (p : Path) : Location :=
  match p.anchor with
  | .relative => fs.workingDirectory
  | _ => []

end FileSystem

end ClassOutline
