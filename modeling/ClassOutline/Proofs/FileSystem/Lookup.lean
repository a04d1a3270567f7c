import ClassOutline.Proofs.Path
import Mathlib.Data.List.Induction

/-!
# Lookups that succeed

`Walked` says what a lookup that succeeds has met, one name at a time; it is the
same as the lookup (`walked_of_walk`, `walk_of_walked`). In a sound file system the place reached is
what the location holds, and a file put there is found by the same path again.
-/

namespace ClassOutline

/-- A name that stands for an entry, unlike the empty one and the dots. -/
def PlainName (name : String) : Prop :=
  ¬ (name = "" ∨ name = ".") ∧ name ≠ ".."

instance (name : String) : Decidable (PlainName name) :=
  inferInstanceAs (Decidable (¬ (name = "" ∨ name = ".") ∧ name ≠ ".."))

def Place.location : Place → Location
  | .present loc _ => loc
  | .vacant parent name => parent ++ [name]

def Place.entry? : Place → Option Entry
  | .present _ e => some e
  | .vacant _ _ => none

def Entry.isDirectory : Entry → Bool
  | .directory => true
  | _ => false

def Entry.isLink : Entry → Bool
  | .link _ => true
  | _ => false

def linkBase (parent : Location) (target : String) : Location :=
  if isAbsolute target then [] else parent

namespace FileSystem

theorem directoryCount_eq (fs : FileSystem) :
    fs.directoryCount = fs.entries.countP fun x => x.2.isDirectory :=
  rfl

theorem linkCount_eq (fs : FileSystem) : fs.linkCount = fs.entries.countP fun x => x.2.isLink :=
  rfl

/-- A name that is looked up with the given names after it. -/
structure LookedUp (writing : Bool) (name : String) (rest : List String) : Prop where
  plain : PlainName name
  ending : ¬ (writing = true ∧ rest = [""])
  short : ¬ maxNameBytes < byteCount name

/-- The place that names lead to from a directory, over at most so many links. -/
inductive Walked (fs : FileSystem) (writing : Bool) :
    Nat → Location → List String → Place → Prop where
  | done {n : Nat} {here : Location} : Walked fs writing n here [] (.present here .directory)
  | skip {n : Nat} {here : Location} {name : String} {rest : List String} {place : Place}
      (hn : name = "" ∨ name = ".") (h : Walked fs writing n here rest place) :
      Walked fs writing n here (name :: rest) place
  | up {n : Nat} {here : Location} {name : String} {rest : List String} {place : Place}
      (hn : name = "..") (h : Walked fs writing n here.dropLast rest place) :
      Walked fs writing n here (name :: rest) place
  | vacant {n : Nat} {here : Location} {name : String} (hn : LookedUp writing name [])
      (hget : fs.get? (here ++ [name]) = none) :
      Walked fs writing n here [name] (.vacant here name)
  | file {n : Nat} {here : Location} {name : String} {mode : Nat} {bytes : Bytes}
      (hn : LookedUp writing name []) (hget : fs.get? (here ++ [name]) = some (.file mode bytes)) :
      Walked fs writing n here [name] (.present (here ++ [name]) (.file mode bytes))
  | directory {n : Nat} {here : Location} {name : String} {rest : List String} {place : Place}
      (hn : LookedUp writing name rest) (hget : fs.get? (here ++ [name]) = some .directory)
      (h : Walked fs writing n (here ++ [name]) rest place) :
      Walked fs writing n here (name :: rest) place
  | link {n : Nat} {here : Location} {name target : String} {rest : List String} {place : Place}
      (hn : LookedUp writing name rest) (hget : fs.get? (here ++ [name]) = some (.link target))
      (h : Walked fs writing n (linkBase here target) (targetParts target ++ rest) place) :
      Walked fs writing (n + 1) here (name :: rest) place

section Walk

variable {fs : FileSystem} {writing : Bool} {here : Location} {names : List String} {place : Place}
  {n : Nat}

/-- One step of a lookup, with the lookup of fewer links to take over at a link. -/
theorem walk_eq (fs : FileSystem) (writing : Bool) (n : Nat) :
    fs.walk writing n = fs.walkWith writing (match n with
      | 0 => fun _ _ => .error .linkLoop
      | m + 1 => fs.walk writing m) := by
  cases n <;> rfl

theorem walk_directory {name : String} {rest : List String} (hn : LookedUp writing name rest)
    (hget : fs.get? (here ++ [name]) = some .directory) :
    fs.walk writing n here (name :: rest) = fs.walk writing n (here ++ [name]) rest := by
  rw [walk_eq, walkWith, if_neg hn.plain.1, if_neg hn.plain.2, if_neg hn.ending, if_neg hn.short,
    hget]

theorem walked_of_walkWith {follow : Location → List String → Except OsCause Place}
    (hfollow : ∀ {base names}, follow base names = .ok place →
      ∃ m, n = m + 1 ∧ Walked fs writing m base names place)
    (h : fs.walkWith writing follow here names = .ok place) :
    Walked fs writing n here names place := by
  induction names generalizing here with
  | nil =>
    rw [walkWith] at h
    rw [← Except.ok.inj h]
    exact .done
  | cons name rest ih =>
    rw [walkWith] at h
    by_cases hskip : name = "" ∨ name = "."
    · rw [if_pos hskip] at h
      exact .skip hskip (ih h)
    rw [if_neg hskip] at h
    by_cases hup : name = ".."
    · rw [if_pos hup] at h
      exact .up hup (ih h)
    rw [if_neg hup] at h
    by_cases hending : writing = true ∧ rest = [""]
    · rw [if_pos hending] at h
      cases h
    rw [if_neg hending] at h
    by_cases hlong : maxNameBytes < byteCount name
    · rw [if_pos hlong] at h
      cases h
    rw [if_neg hlong] at h
    have hn : LookedUp writing name rest := ⟨⟨hskip, hup⟩, hending, hlong⟩
    split at h
    case h_1 hget =>
      split at h
      case isTrue hrest =>
        subst hrest
        rw [← Except.ok.inj h]
        exact .vacant hn hget
      case isFalse => cases h
    case h_2 hget => exact .directory hn hget (ih h)
    case h_3 hget =>
      split at h
      case isTrue hrest =>
        subst hrest
        rw [← Except.ok.inj h]
        exact .file hn hget
      case isFalse => cases h
    case h_4 hget =>
      obtain ⟨m, rfl, hm⟩ := hfollow h
      exact .link hn hget hm

theorem walked_of_walk (h : fs.walk writing n here names = .ok place) :
    Walked fs writing n here names place := by
  induction n generalizing here names with
  | zero =>
    rw [walk] at h
    refine walked_of_walkWith (fun hf => ?_) h
    cases hf
  | succ n ih =>
    rw [walk] at h
    exact walked_of_walkWith (fun hf => ⟨n, rfl, ih hf⟩) h

theorem walk_of_walked (h : Walked fs writing n here names place) :
    fs.walk writing n here names = .ok place := by
  induction h with
  | done => rw [walk_eq, walkWith]
  | skip hn _ ih =>
    rw [walk_eq, walkWith, if_pos hn, ← walk_eq]
    exact ih
  | @up n here name rest place hn _ ih =>
    have hskip : ¬ (name = "" ∨ name = ".") := by simp [hn]
    rw [walk_eq, walkWith, if_neg hskip, if_pos hn, ← walk_eq]
    exact ih
  | vacant hn hget =>
    rw [walk_eq, walkWith, if_neg hn.plain.1, if_neg hn.plain.2, if_neg hn.ending,
      if_neg hn.short, hget]
    rfl
  | file hn hget =>
    rw [walk_eq, walkWith, if_neg hn.plain.1, if_neg hn.plain.2, if_neg hn.ending,
      if_neg hn.short, hget]
    rfl
  | directory hn hget _ ih =>
    rw [walk_eq, walkWith, if_neg hn.plain.1, if_neg hn.plain.2, if_neg hn.ending,
      if_neg hn.short, hget, ← walk_eq]
    exact ih
  | link hn hget _ ih =>
    rw [walk_eq, walkWith, if_neg hn.plain.1, if_neg hn.plain.2, if_neg hn.ending,
      if_neg hn.short, hget]
    exact ih

/-- Lookups read nothing but what locations hold. -/
theorem walk_congr {fs' : FileSystem} (h : ∀ loc, fs'.get? loc = fs.get? loc) (writing : Bool)
    (n : Nat) (here : Location) (names : List String) :
    fs'.walk writing n here names = fs.walk writing n here names := by
  induction n generalizing here names with
  | zero =>
    rw [walk, walk]
    induction names generalizing here with
    | nil => rfl
    | cons name rest ih => simp only [walkWith, h, ih]
  | succ n ihn =>
    rw [walk, walk]
    induction names generalizing here with
    | nil => rfl
    | cons name rest ih => simp only [walkWith, h, ih, ihn]

theorem Walked.short (h : Walked fs writing n here names place) :
    ∀ name ∈ names, byteCount name ≤ maxNameBytes := by
  have hup : byteCount ".." ≤ maxNameBytes := by decide
  induction h with
  | done => simp
  | skip hn _ ih =>
    refine List.forall_mem_cons.mpr ⟨?_, ih⟩
    rcases hn with rfl | rfl <;> decide
  | up hn _ ih => exact List.forall_mem_cons.mpr ⟨hn ▸ hup, ih⟩
  | vacant hn _ => simpa using hn.short
  | file hn _ => simpa using hn.short
  | directory hn _ _ ih => exact List.forall_mem_cons.mpr ⟨Nat.le_of_not_lt hn.short, ih⟩
  | link hn _ _ ih =>
    exact List.forall_mem_cons.mpr ⟨Nat.le_of_not_lt hn.short,
      fun name hname => ih name (List.mem_append_right _ hname)⟩

/-- One more name behind names that lead to a directory. -/
theorem Walked.concat {dir : Location} {name : String}
    (h : Walked fs false n here names (.present dir .directory))
    (hlast : ∀ m, Walked fs false m dir [name] place) :
    Walked fs false n here (names ++ [name]) place := by
  have hlooked : ∀ {x rest}, LookedUp false x rest → LookedUp false x (rest ++ [name]) :=
    fun hn => ⟨hn.plain, by simp, hn.short⟩
  generalize hd : Place.present dir .directory = reached at h
  induction h with
  | done =>
    obtain rfl : dir = _ := (Place.present.inj hd).1
    exact hlast _
  | skip hn _ ih => exact .skip hn (ih hd)
  | up hn _ ih => exact .up hn (ih hd)
  | vacant => cases hd
  | file => cases hd
  | directory hn hget _ ih => exact .directory (hlooked hn) hget (ih hd)
  | link hn hget _ ih =>
    have hrest := ih hd
    rw [List.append_assoc] at hrest
    exact .link (hlooked hn) hget hrest

/-- An entry that is neither a directory nor a link is on the way to no other place. -/
theorem Walked.put_of_ne {loc : Location} (h : Walked fs writing n here names place)
    (hdir : fs.get? loc ≠ some .directory) (hlink : ∀ target, fs.get? loc ≠ some (.link target))
    (hne : place.location ≠ loc) (e : Entry) :
    Walked (fs.put loc e) writing n here names place := by
  induction h with
  | done => exact .done
  | skip hn _ ih => exact .skip hn (ih hne)
  | up hn _ ih => exact .up hn (ih hne)
  | vacant hn hget => exact .vacant hn ((fs.get?_put_of_ne hne e).trans hget)
  | file hn hget => exact .file hn ((fs.get?_put_of_ne hne e).trans hget)
  | @directory n here name rest place hn hget _ ih =>
    have hother : here ++ [name] ≠ loc := fun he => hdir (he ▸ hget)
    exact .directory hn ((fs.get?_put_of_ne hother e).trans hget) (ih hne)
  | @link n here name target rest place hn hget _ ih =>
    have hother : here ++ [name] ≠ loc := fun he => hlink target (he ▸ hget)
    exact .link hn ((fs.get?_put_of_ne hother e).trans hget) (ih hne)

/-! ### Plain names without links

Names that are plain and stand for no links are the location they lead to. -/

/-- The locations that names go through from a directory hold no links. -/
def Unlinked (fs : FileSystem) (here : Location) (names : List String) : Prop :=
  ∀ above, above <+: names → ∀ target, fs.get? (here ++ above) ≠ some (.link target)

theorem Unlinked.head {name : String} {rest : List String}
    (h : fs.Unlinked here (name :: rest)) :
    ∀ target, fs.get? (here ++ [name]) ≠ some (.link target) :=
  h [name] (List.prefix_append [name] rest)

theorem Unlinked.tail {name : String} {rest : List String}
    (h : fs.Unlinked here (name :: rest)) : fs.Unlinked (here ++ [name]) rest := by
  intro above habove target
  have hcons := h (name :: above) (List.cons_prefix_cons.mpr ⟨rfl, habove⟩) target
  rwa [List.append_assoc]

theorem Walked.location_of_unlinked (h : Walked fs writing n here names place)
    (hplain : ∀ name ∈ names, PlainName name) (hlink : fs.Unlinked here names) :
    place.location = here ++ names := by
  induction h with
  | done => simp [Place.location]
  | skip hn _ _ => exact absurd hn (hplain _ (List.mem_cons_self ..)).1
  | up hn _ _ => exact absurd hn (hplain _ (List.mem_cons_self ..)).2
  | vacant => rfl
  | file => rfl
  | directory _ _ _ ih =>
    rw [ih (fun x hx => hplain x (List.mem_cons_of_mem _ hx)) hlink.tail, List.append_assoc]
    rfl
  | link _ hget _ _ => exact absurd hget (hlink.head _)

/-- Plain names of directories, each in the one before, are followed to the last one. -/
theorem Walked.below_directories {rest : List String}
    (h : Walked fs false n (here ++ names) rest place)
    (hlooked : ∀ name ∈ names, PlainName name ∧ byteCount name ≤ maxNameBytes)
    (hdir : ∀ above, above <+: names → fs.get? (here ++ above) = some .directory) :
    Walked fs false n here (names ++ rest) place := by
  induction names generalizing here with
  | nil => rwa [List.append_nil] at h
  | cons name names ih =>
    obtain ⟨hplain, hshort⟩ := hlooked name (List.mem_cons_self ..)
    have hrest := @ih (here ++ [name]) (by rwa [List.append_assoc])
      (fun x hx => hlooked x (List.mem_cons_of_mem _ hx)) fun above habove => by
        rw [List.append_assoc]
        exact hdir (name :: above) (List.cons_prefix_cons.mpr ⟨rfl, habove⟩)
    exact .directory ⟨hplain, by simp, Nat.not_lt.mpr hshort⟩
      (hdir [name] (List.prefix_append [name] names)) hrest

theorem walk_ne_linkLoop (hplain : ∀ name ∈ names, PlainName name)
    (hlink : fs.Unlinked here names) : fs.walk writing n here names ≠ .error .linkLoop := by
  rw [walk_eq]
  induction names generalizing here with
  | nil => simp [walkWith]
  | cons name rest ih =>
    obtain ⟨hskip, hup⟩ := hplain name (List.mem_cons_self ..)
    have hrest := ih (fun x hx => hplain x (List.mem_cons_of_mem _ hx)) hlink.tail
    rw [walkWith, if_neg hskip, if_neg hup]
    split
    · simp
    split
    · simp
    split
    · split <;> simp
    · exact hrest
    · split <;> simp
    · rename_i target hget
      exact absurd hget (hlink.head target)

/-- A link to a name that is too long cannot be followed. -/
theorem walk_long_link {name target : String} (hn : LookedUp writing name [])
    (hget : fs.get? (here ++ [name]) = some (.link target)) (hslash : '/' ∉ target.toList)
    (hlong : maxNameBytes < byteCount target) :
    fs.walk writing (n + 1) here [name] = .error .nameTooLong := by
  have hne : ∀ short, byteCount short ≤ maxNameBytes → target ≠ short := by
    rintro short hshort rfl
    exact absurd hlong (Nat.not_lt.mpr hshort)
  have hskip : ¬ (target = "" ∨ target = ".") := not_or.mpr
    ⟨hne "" (by decide), hne "." (by decide)⟩
  rw [walk, walkWith, if_neg hn.plain.1, if_neg hn.plain.2, if_neg hn.ending, if_neg hn.short, hget]
  simp only [targetParts_of_not_mem hslash (hne "" (by decide)), List.append_nil]
  rw [walk_eq, walkWith, if_neg hskip, if_neg (hne ".." (by decide)), if_neg (by simp),
    if_pos hlong]

/-! ### Whole paths -/

theorem follow_eq_ok_iff {p : Path} : fs.follow writing p = .ok place ↔
    byteCount p.text ≤ maxPathBytes ∧ Walked fs writing maxLinks (fs.base p) p.parts place := by
  rw [follow]
  split
  · rename_i hlong
    exact iff_of_false nofun fun h => absurd hlong (Nat.not_lt.mpr h.1)
  · rename_i hshort
    exact ⟨fun h => ⟨Nat.le_of_not_lt hshort, walked_of_walk h⟩, fun h => walk_of_walked h.2⟩

theorem follow_of_long {p : Path} (h : maxPathBytes < byteCount p.text) :
    fs.follow writing p = .error .nameTooLong := by
  rw [follow, if_pos h]

theorem follow_of_short {p : Path} (h : byteCount p.text ≤ maxPathBytes) :
    fs.follow writing p = fs.walk writing maxLinks (fs.base p) p.parts := by
  rw [follow, if_neg (Nat.not_lt.mpr h)]

theorem find_eq_ok_iff {p : Path} {x : Location} {e : Entry} :
    fs.find p = .ok (x, e) ↔ byteCount p.text ≤ maxPathBytes ∧
      Walked fs false maxLinks (fs.base p) p.parts (.present x e) := by
  rw [← follow_eq_ok_iff, find, place]
  cases fs.follow false p with
  | error c => simp
  | ok place => cases place <;> simp

/-- An entry put where no directory or link stands is in the way of no lookup that ends
elsewhere. -/
theorem find_put_of_ne {p : Path} {x loc : Location} {d : Entry} (h : fs.find p = .ok (x, d))
    (hdir : fs.get? loc ≠ some .directory) (hlink : ∀ target, fs.get? loc ≠ some (.link target))
    (hne : x ≠ loc) (e : Entry) : (fs.put loc e).find p = .ok (x, d) := by
  obtain ⟨hfits, hwalked⟩ := find_eq_ok_iff.mp h
  exact find_eq_ok_iff.mpr ⟨hfits, hwalked.put_of_ne hdir hlink hne e⟩

theorem find_error_iff {p : Path} {c : OsCause} : fs.find p = .error c ↔
    fs.place p = .error c ∨
      c = .notFound ∧ ∃ parent name, fs.place p = .ok (.vacant parent name) := by
  rw [find]
  cases fs.place p with
  | error d => simp
  | ok place => cases place <;> simp [eq_comm]

theorem find_of_long {p : Path} (h : maxPathBytes < byteCount p.text) :
    fs.find p = .error .nameTooLong :=
  find_error_iff.mpr (Or.inl (follow_of_long h))

end Walk

/-! ## Sound file systems -/

/-- What a file system of a running machine has: the working directory is one,
under plain names, and entries stand in directories. -/
structure Sound (fs : FileSystem) : Prop where
  plain : ∀ name ∈ fs.workingDirectory, PlainName name
  working : fs.get? fs.workingDirectory = some .directory
  parent : ∀ {loc e}, fs.get? loc = some e → fs.get? loc.dropLast = some .directory

section Sound

variable {fs : FileSystem} {writing : Bool} {here : Location} {names : List String} {place : Place}
  {n : Nat}

theorem get?_root (fs : FileSystem) : fs.get? [] = some .directory := by
  rw [get?, if_pos rfl]

theorem get?_linkBase (hhere : fs.get? here = some .directory)
    (target : String) : fs.get? (linkBase here target) = some .directory := by
  rw [linkBase]
  split
  · exact fs.get?_root
  · exact hhere

theorem Sound.base (hs : fs.Sound) (p : Path) : fs.get? (fs.base p) = some .directory := by
  rw [FileSystem.base]
  split
  · exact hs.working
  · exact fs.get?_root

theorem Sound.above (hs : fs.Sound) {loc above : Location} (h : fs.get? loc = some .directory)
    (habove : above <+: loc) : fs.get? above = some .directory := by
  obtain ⟨rest, rfl⟩ := habove
  induction rest using List.reverseRecOn with
  | nil => rwa [List.append_nil] at h
  | append_singleton rest name ih =>
    apply ih
    have hparent := hs.parent h
    rwa [← List.append_assoc, List.dropLast_concat] at hparent

/-- An entry can be put in a directory, in place of anything but a directory. -/
theorem Sound.put (hs : fs.Sound) {loc : Location}
    (hparent : fs.get? loc.dropLast = some .directory) (hold : fs.get? loc ≠ some .directory)
    (e : Entry) : (fs.put loc e).Sound := by
  have hkept : ∀ {dir}, fs.get? dir = some .directory →
      (fs.put loc e).get? dir = some .directory := by
    intro dir hdir
    have hother : dir ≠ loc := fun he => hold (he ▸ hdir)
    rw [fs.get?_put_of_ne hother, hdir]
  refine ⟨hs.plain, hkept hs.working, ?_⟩
  intro other d hd
  by_cases hother : other = loc
  · rw [hother]
    exact hkept hparent
  · rw [fs.get?_put_of_ne hother] at hd
    exact hkept (hs.parent hd)

/-- The place reached is what its location holds, and is not a link. -/
theorem Walked.get?_location (hs : fs.Sound) (h : Walked fs writing n here names place)
    (hhere : fs.get? here = some .directory) :
    fs.get? place.location = place.entry? ∧ ∀ target, place.entry? ≠ some (.link target) := by
  induction h with
  | done => exact ⟨hhere, by simp [Place.entry?]⟩
  | skip _ _ ih => exact ih hhere
  | up _ _ ih => exact ih (hs.parent hhere)
  | vacant _ hget => exact ⟨hget, by simp [Place.entry?]⟩
  | file _ hget => exact ⟨hget, by simp [Place.entry?]⟩
  | directory _ hget _ ih => exact ih hget
  | link _ _ _ ih => exact ih (get?_linkBase hhere _)

/-- The place reached is in a directory. -/
theorem Walked.get?_dropLast (hs : fs.Sound) (h : Walked fs writing n here names place)
    (hhere : fs.get? here = some .directory) :
    fs.get? place.location.dropLast = some .directory := by
  induction h with
  | done => exact hs.parent hhere
  | skip _ _ ih => exact ih hhere
  | up _ _ ih => exact ih (hs.parent hhere)
  | vacant _ _ => rwa [Place.location, List.dropLast_concat]
  | file _ _ => rwa [Place.location, List.dropLast_concat]
  | directory _ hget _ ih => exact ih hget
  | link _ _ _ ih => exact ih (get?_linkBase hhere _)

/-- A file put at a place that is no directory is reached by the same names. -/
theorem Walked.put (hs : fs.Sound) (h : Walked fs writing n here names place)
    (hhere : fs.get? here = some .directory) (hplace : place.entry? ≠ some .directory)
    (mode : Nat) (bytes : Bytes) :
    Walked (fs.put place.location (.file mode bytes)) writing n here names
      (.present place.location (.file mode bytes)) := by
  obtain ⟨hget, hlink⟩ := h.get?_location hs hhere
  rw [← hget] at hplace hlink
  clear hget
  induction h with
  | done => exact absurd hhere hplace
  | skip hn _ ih => exact .skip hn (ih hhere hplace hlink)
  | up hn _ ih => exact .up hn (ih (hs.parent hhere) hplace hlink)
  | vacant hn _ => exact .file hn (fs.get?_put_self (by simp [Place.location]) _)
  | file hn _ => exact .file hn (fs.get?_put_self (by simp [Place.location]) _)
  | @directory n here name rest place hn hdir _ ih =>
    have hne : here ++ [name] ≠ place.location := fun he => hplace (he ▸ hdir)
    refine .directory hn ?_ (ih hdir hplace hlink)
    rw [fs.get?_put_of_ne hne, hdir]
  | @link n here name target rest place hn htarget _ ih =>
    have hne : here ++ [name] ≠ place.location := fun he => hlink target (he ▸ htarget)
    refine .link hn ?_ (ih (get?_linkBase hhere target) hplace hlink)
    rw [fs.get?_put_of_ne hne, htarget]

end Sound

end FileSystem

end ClassOutline
