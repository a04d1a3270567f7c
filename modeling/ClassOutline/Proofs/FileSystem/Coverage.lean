import ClassOutline.Proofs.FileSystem.Listing
import Mathlib.Data.List.Nodup
import Mathlib.Data.String.Basic

/-!
# Every file below a directory is listed once and in order

A listing goes down from directory to directory. Where it comes to its end it holds
the path of every file that can be reached by names of directories, once each and in
the order `Precedes`. The depth to which it goes is never a limit: a path is followed
over a bounded number of links, and between two links its directories lie one in the
other (`Walked.length_le`). So the files are the same however directories are linked.
-/

namespace ClassOutline

def Path.extend (p : Path) (names : List String) : Path :=
  ⟨p.anchor, p.parts ++ names⟩

theorem Path.extend_nil (p : Path) : p.extend [] = p := by
  rw [extend, List.append_nil]

theorem Path.parts_child_append (p : Path) (name : String) (names : List String) :
    (p.child name).parts ++ names = p.parts ++ name :: names := by
  rw [child, List.append_assoc, List.singleton_append]

theorem Path.extend_cons (p : Path) (name : String) (names : List String) :
    p.extend (name :: names) = (p.child name).extend names := by
  rw [extend, extend, parts_child_append]
  rfl

def Path.hasEnding (endings : List String) (p : Path) : Bool :=
  p.parts.getLast?.any (FileSystem.hasEnding endings)

theorem Path.hasEnding_child (endings : List String) (p : Path) (name : String) :
    (p.child name).hasEnding endings = FileSystem.hasEnding endings name := by
  rw [hasEnding, child, List.getLast?_concat]
  rfl

/-! ## The order of paths -/

/-- The order of a listing. Where two paths first differ, the name of a file, which is
the last part, comes before the name of a directory, and of two names of one kind the
one with the smaller code points comes first. -/
def Precedes : List String → List String → Prop
  | a :: as, b :: bs =>
    if a = b then Precedes as bs
    else as = [] ∧ bs ≠ [] ∨ (as = [] ↔ bs = []) ∧ a < b
  | _, _ => False

theorem precedes_append (parts : List String) {as bs : List String} (h : Precedes as bs) :
    Precedes (parts ++ as) (parts ++ bs) := by
  induction parts with
  | nil => exact h
  | cons part parts ih =>
    rw [List.cons_append, List.cons_append, Precedes, if_pos rfl]
    exact ih

theorem not_precedes_self (as : List String) : ¬ Precedes as as := by
  induction as with
  | nil => exact id
  | cons a as ih => rwa [Precedes, if_pos rfl]

theorem precedes_of_lt {a b : String} {as bs : List String} (hkind : as = [] ↔ bs = [])
    (hlt : a < b) : Precedes (a :: as) (b :: bs) := by
  rw [Precedes, if_neg hlt.ne]
  exact Or.inr ⟨hkind, hlt⟩

theorem precedes_of_file {a b : String} {bs : List String} (hne : a ≠ b) (hbs : bs ≠ []) :
    Precedes [a] (b :: bs) := by
  rw [Precedes, if_neg hne]
  exact Or.inl ⟨rfl, hbs⟩

namespace FileSystem

/-! ## The names in a directory -/

/-- What the directories of a running machine have in addition: each name once, and
none for the directory above. -/
structure NamesOnce (fs : FileSystem) : Prop where
  once : (fs.entries.map Prod.fst).Nodup
  parent : ∀ x ∈ fs.entries, ".." ∉ x.1

section Names

variable {fs : FileSystem} {p : Path} {name : String} {lead : Nat}

theorem NamesOnce.nodup_namesIn (h : fs.NamesOnce) (loc : Location) : (fs.namesIn loc).Nodup := by
  rw [namesIn_eq]
  refine List.Nodup.filterMap ?_ h.once
  intro key key' name hname hname'
  have hkey : ∀ key : Location, name ∈ nameBelow? loc key → key = loc ++ [name] := by
    intro key hmem
    rw [nameBelow?] at hmem
    split at hmem
    · rename_i last hlast
      split at hmem
      · rename_i hloc
        rw [← hloc, ← Option.some.inj hmem]
        exact (List.dropLast_append_getLast? last hlast).symm
      · cases hmem
    · cases hmem
  rw [hkey key hname, hkey key' hname']

theorem NamesOnce.pairwise_sortedNames (h : fs.NamesOnce) (lead : Nat) (p : Path) :
    (fs.sortedNames lead p).Pairwise (· < ·) := by
  rw [sortedNames]
  split
  · rename_i loc _
    have hsorted := @List.pairwise_mergeSort String (fun a b => decide (a ≤ b))
      (fun a b c hab hbc => by simp only [decide_eq_true_eq] at *; exact hab.trans hbc)
      (fun a b => by simpa using le_total a b) (fs.namesIn loc)
    have hnodup := (List.mergeSort_perm (fs.namesIn loc) fun a b => decide (a ≤ b)).nodup_iff.mpr
      (h.nodup_namesIn loc)
    refine List.Pairwise.imp₂ (fun a b hle hne => ?_) hsorted hnodup
    exact lt_of_le_of_ne (by simpa using hle) hne
  · exact List.Pairwise.nil

theorem plainName_of_mem_sortedNames (hnamed : fs.WellNamed) (honce : fs.NamesOnce)
    (h : name ∈ fs.sortedNames lead p) : PlainName name := by
  obtain ⟨loc, _, hmem⟩ := mem_sortedNames.mp h
  obtain ⟨x, hx, hname⟩ := exists_of_mem_namesIn hmem
  obtain ⟨hempty, hdot, _⟩ := hnamed.proper x hx name hname
  refine ⟨not_or.mpr ⟨hempty, hdot⟩, ?_⟩
  rintro rfl
  exact honce.parent x hx hname

theorem mem_namesIn_of_get? {loc : Location} {e : Entry}
    (h : fs.get? (loc ++ [name]) = some e) : name ∈ fs.namesIn loc := by
  rw [get?, if_neg (by simp)] at h
  refine List.mem_filterMap.mpr ⟨_, mem_of_lookup h, ?_⟩
  simp

/-- The last of some names is looked up in the directory that those before it lead to. -/
theorem Walked.split {n : Nat} {here : Location} {names : List String} {place : Place}
    (h : Walked fs false n here (names ++ [name]) place) :
    ∃ m dir, Walked fs false n here names (.present dir .directory) ∧
      Walked fs false m dir [name] place := by
  have hlooked : ∀ {x rest rest'}, LookedUp false x rest → LookedUp false x rest' :=
    fun hn => ⟨hn.plain, by simp, hn.short⟩
  generalize hall : names ++ [name] = all at h
  induction h generalizing names with
  | done => simp at hall
  | @skip n here x rest place hn h ih =>
    rcases List.append_eq_cons_iff.mp hall with ⟨rfl, hlast⟩ | ⟨before, rfl, hrest⟩
    · exact ⟨n, here, .done, hlast ▸ .skip hn h⟩
    · obtain ⟨m, dir, hdir, hlast⟩ := ih hrest.symm
      exact ⟨m, dir, .skip hn hdir, hlast⟩
  | @up n here x rest place hn h ih =>
    rcases List.append_eq_cons_iff.mp hall with ⟨rfl, hlast⟩ | ⟨before, rfl, hrest⟩
    · exact ⟨n, here, .done, hlast ▸ .up hn h⟩
    · obtain ⟨m, dir, hdir, hlast⟩ := ih hrest.symm
      exact ⟨m, dir, .up hn hdir, hlast⟩
  | @vacant n here x hn hget =>
    obtain ⟨rfl, rfl⟩ : names = [] ∧ name = x := by simpa [List.append_eq_cons_iff] using hall
    exact ⟨n, here, .done, .vacant hn hget⟩
  | @file n here x mode bytes hn hget =>
    obtain ⟨rfl, rfl⟩ : names = [] ∧ name = x := by simpa [List.append_eq_cons_iff] using hall
    exact ⟨n, here, .done, .file hn hget⟩
  | @directory n here x rest place hn hget h ih =>
    rcases List.append_eq_cons_iff.mp hall with ⟨rfl, hlast⟩ | ⟨before, rfl, hrest⟩
    · exact ⟨n, here, .done, hlast ▸ .directory hn hget h⟩
    · obtain ⟨m, dir, hdir, hlast⟩ := ih hrest.symm
      exact ⟨m, dir, .directory (hlooked hn) hget hdir, hlast⟩
  | @link n here x target rest place hn hget h ih =>
    rcases List.append_eq_cons_iff.mp hall with ⟨rfl, hlast⟩ | ⟨before, rfl, hrest⟩
    · exact ⟨n + 1, here, .done, hlast ▸ .link hn hget h⟩
    · obtain ⟨m, dir, hdir, hlast⟩ := ih (by rw [hrest, List.append_assoc])
      exact ⟨m, dir, .link (hlooked hn) hget hdir, hlast⟩

/-- A name that leads on from a directory is looked up where that stands. -/
theorem walked_child {loc : Location} {found : Location × Entry}
    (hdir : fs.find p = .ok (loc, .directory)) (hfind : fs.find (p.child name) = .ok found) :
    ∃ m, Walked fs false m loc [name] (.present found.1 found.2) := by
  obtain ⟨m, dir, hbefore, hlast⟩ := (find_eq_ok_iff.mp hfind).2.split
  have hsame : dir = loc := by
    have h := (walk_of_walked hbefore).symm.trans (walk_of_walked (find_eq_ok_iff.mp hdir).2)
    exact (Place.present.inj (Except.ok.inj h)).1
  exact ⟨m, hsame ▸ hlast⟩

/-- What a name that is looked up in a directory stands for there. -/
theorem Walked.get?_of_child {m : Nat} {loc x : Location} {e : Entry} (hplain : PlainName name)
    (h : Walked fs false m loc [name] (.present x e)) :
    fs.get? (loc ++ [name]) = some e ∨ ∃ target, fs.get? (loc ++ [name]) = some (.link target) := by
  generalize hplace : Place.present x e = place at h
  cases h with
  | skip hn _ => exact absurd hn hplain.1
  | up hn _ => exact absurd hn hplain.2
  | vacant => cases hplace
  | file _ hget =>
    obtain ⟨rfl, rfl⟩ := Place.present.inj hplace
    exact Or.inl hget
  | directory _ hget h =>
    generalize hrest : ([] : List String) = rest at h
    cases h with
    | done =>
      obtain ⟨rfl, rfl⟩ := Place.present.inj hplace
      exact Or.inl hget
    | skip | up | vacant | file | directory | link => cases hrest
  | link _ hget _ => exact Or.inr ⟨_, hget⟩

/-- A name that leads on from a directory that is opened is one of the directory's. -/
theorem mem_sortedNames_of_find {loc : Location} {found : Location × Entry}
    (hopened : fs.opened? lead p = some loc) (hplain : PlainName name)
    (hfind : fs.find (p.child name) = .ok found) : name ∈ fs.sortedNames lead p := by
  obtain ⟨m, hwalked⟩ := walked_child (opened?_eq_some_iff.mp hopened).2 hfind
  refine mem_sortedNames.mpr ⟨loc, hopened, ?_⟩
  rcases hwalked.get?_of_child hplain with hget | ⟨target, hget⟩
  · exact mem_namesIn_of_get? hget
  · exact mem_namesIn_of_get? hget

/-- A listing goes down to every directory that it can open. -/
theorem entersDirectory_of_opened {loc x : Location} (hopened : fs.opened? lead p = some loc)
    (hplain : PlainName name) (hchild : fs.opened? lead (p.child name) = some x) :
    fs.entersDirectory lead p name = true := by
  obtain ⟨m, hwalked⟩ := walked_child (opened?_eq_some_iff.mp hopened).2
    (opened?_eq_some_iff.mp hchild).2
  rw [entersDirectory, hopened]
  rcases hwalked.get?_of_child hplain with hget | ⟨target, hget⟩
  · simp only [hget]
  · simp only [hget, hchild, Option.isSome_some]

/-- What a listing takes for a directory is none of its files. -/
theorem entersDirectory_of_isFile (hopened : (fs.opened? lead p).isSome) (hplain : PlainName name)
    (hfile : fs.isFile (p.child name) = .ok true) : fs.entersDirectory lead p name = false := by
  obtain ⟨loc, hloc⟩ := Option.isSome_iff_exists.mp hopened
  obtain ⟨x, mode, bytes, hfind⟩ := isFile_eq_true_iff.mp hfile
  obtain ⟨m, hwalked⟩ := walked_child (opened?_eq_some_iff.mp hloc).2 hfind
  have hclosed : fs.opened? lead (p.child name) = none := by
    rw [opened?, hfind]
    split <;> rfl
  rw [entersDirectory, hloc]
  rcases hwalked.get?_of_child hplain with hget | ⟨target, hget⟩
  · simp only [hget]
  · simp only [hget, hclosed, Option.isSome_none]

/-- A link that cannot be followed is not taken for a directory. -/
theorem entersDirectory_of_find_error {loc : Location} {target : String} {c : OsCause}
    (hopened : fs.opened? lead p = some loc) (hget : fs.get? (loc ++ [name]) = some (.link target))
    (hfind : fs.find (p.child name) = .error c) : fs.entersDirectory lead p name = false := by
  have hclosed : fs.opened? lead (p.child name) = none := by
    rw [opened?, hfind]
    split <;> rfl
  rw [entersDirectory, hopened]
  simp only [hget, hclosed, Option.isSome_none]

end Names

/-! ## How deep a path can go -/

section Depth

variable {fs : FileSystem}

/-- The directories above a directory, and itself, are all in the list of entries. -/
theorem length_le_directoryCount (hs : fs.Sound) {loc : Location}
    (h : fs.get? loc = some .directory) : loc.length ≤ fs.directoryCount := by
  have hnodup : ((List.range loc.length).map fun i => loc.take (i + 1)).Nodup := by
    refine List.Nodup.map_on (fun i hi j hj he => ?_) List.nodup_range
    have hlen := congrArg List.length he
    rw [List.mem_range] at hi hj
    rw [List.length_take, List.length_take] at hlen
    omega
  have hsub : ((List.range loc.length).map fun i => loc.take (i + 1)) ⊆
      (fs.entries.filter fun x => x.2.isDirectory).map Prod.fst := by
    intro above habove
    obtain ⟨i, hi, rfl⟩ := List.mem_map.mp habove
    have hne : loc.take (i + 1) ≠ [] := by
      rintro hnil
      have hlen := congrArg List.length hnil
      rw [List.length_take, List.length_nil] at hlen
      have hlt := List.mem_range.mp hi
      omega
    have hget := hs.above h (List.take_prefix (i + 1) loc)
    rw [get?, if_neg hne] at hget
    exact List.mem_map.mpr ⟨_, List.mem_filter.mpr ⟨mem_of_lookup hget, rfl⟩, rfl⟩
  have hlen := (List.subperm_of_subset hnodup hsub).length_le
  rw [List.length_map, List.length_range, List.length_map, ← List.countP_eq_length_filter] at hlen
  exact hlen

/-- Plain names that come last on the way to a directory are bounded by the links that
can be followed. Until the next link every name takes the way one directory down;
`above` are the names that are still to be followed before them. -/
theorem Walked.length_le (hs : fs.Sound) {n : Nat} {here : Location}
    {names above rest : List String} {place : Place}
    (h : Walked fs false n here names place) (hnames : names = above ++ rest)
    (hhere : fs.get? here = some .directory) (hplain : ∀ name ∈ rest, PlainName name)
    (hplace : place.entry? = some .directory) :
    rest.length + (if above = [] then here.length else 0) ≤
      fs.directoryCount + n * (fs.directoryCount + 1) := by
  have hdepth := length_le_directoryCount hs hhere
  induction h generalizing above rest with
  | done =>
    obtain ⟨rfl, rfl⟩ := List.nil_eq_append_iff.mp hnames
    simp only [List.length_nil, if_true]
    omega
  | skip hn _ ih =>
    rcases List.cons_eq_append_iff.mp hnames with ⟨rfl, rfl⟩ | ⟨above, rfl, rfl⟩
    · exact absurd hn (hplain _ (List.mem_cons_self ..)).1
    · have hrest := ih rfl hhere hplain hplace hdepth
      rw [if_neg (by simp)]
      omega
  | up hn _ ih =>
    rcases List.cons_eq_append_iff.mp hnames with ⟨rfl, rfl⟩ | ⟨above, rfl, rfl⟩
    · exact absurd hn (hplain _ (List.mem_cons_self ..)).2
    · have hup := hs.parent hhere
      have hrest := ih rfl hup hplain hplace (length_le_directoryCount hs hup)
      rw [if_neg (by simp)]
      omega
  | vacant => cases hplace
  | file => cases hplace
  | @directory n here name names place hn hget _ ih =>
    have hdown := length_le_directoryCount hs hget
    rcases List.cons_eq_append_iff.mp hnames with ⟨rfl, rfl⟩ | ⟨above, rfl, rfl⟩
    · have hrest := @ih [] names rfl hget (fun x hx => hplain x (List.mem_cons_of_mem _ hx)) hplace
        hdown
      rw [if_pos rfl] at hrest ⊢
      rw [List.length_append, List.length_singleton] at hrest
      rw [List.length_cons]
      omega
    · have hrest := ih rfl hget hplain hplace hdown
      rw [if_neg (by simp)]
      omega
  | @link n here name target names place hn hget _ ih =>
    have hbase := get?_linkBase hhere target
    have hdown := length_le_directoryCount hs hbase
    have hlinks : (n + 1) * (fs.directoryCount + 1) =
        n * (fs.directoryCount + 1) + (fs.directoryCount + 1) := Nat.succ_mul ..
    rcases List.cons_eq_append_iff.mp hnames with ⟨rfl, rfl⟩ | ⟨above, rfl, rfl⟩
    · -- The names behind the link wait for its target; the bound has room for one depth more.
      have hrest := ih rfl hbase (fun x hx => hplain x (List.mem_cons_of_mem _ hx)) hplace hdown
      rw [if_pos rfl, List.length_cons]
      omega
    · have hrest := @ih (targetParts target ++ above) rest (by rw [List.append_assoc]) hbase hplain
        hplace hdown
      rw [if_neg (by simp)]
      omega

theorem length_lt_depthBound (hs : fs.Sound) {root : Path} {names : List String}
    (hplain : ∀ name ∈ names, PlainName name)
    (hdir : fs.isDirectory (root.extend names) = true) : names.length < fs.depthBound := by
  obtain ⟨loc, hloc⟩ := isDirectory_eq_true_iff.mp hdir
  have hwalked := (find_eq_ok_iff.mp hloc).2
  have hparts : (root.extend names).parts = root.parts ++ names := rfl
  have hlen := hwalked.length_le hs hparts (hs.base _) hplain rfl
  simp only [depthBound, maxLinks] at hlen ⊢
  omega

end Depth

/-! ## What a listing holds -/

/-- The path is a directory, and so is what the names lead on to, one after the other. -/
def LeadsThrough (fs : FileSystem) (p : Path) (names : List String) : Prop :=
  ∀ above, above <+: names → fs.isDirectory (p.extend above) = true

/-- A file that a listing is to hold: it is reached by names of directories, and its own
name has one of the endings. -/
structure Listed (fs : FileSystem) (endings : List String) (root : Path) (names : List String)
    (name : String) : Prop where
  plain : ∀ x ∈ names ++ [name], PlainName x
  directories : fs.LeadsThrough root names
  file : fs.isFile (root.extend (names ++ [name])) = .ok true
  ending : hasEnding endings name = true

/-- The names of the files that a directory itself has for a listing. -/
def filesIn (fs : FileSystem) (endings : List String) (lead : Nat) (p : Path) : List String :=
  (fs.sortedNames lead p).filter fun name => decide (fs.isFile (p.child name) = .ok true) &&
    (!fs.entersDirectory lead p name && hasEnding endings name)

def directoriesIn (fs : FileSystem) (lead : Nat) (p : Path) : List String :=
  (fs.sortedNames lead p).filter (fs.entersDirectory lead p)

def filesTo (fs : FileSystem) (endings : List String) (lead : Nat) : Nat → Path → List Path
  | 0, _ => []
  | n + 1, p => (fs.filesIn endings lead p).map p.child ++
      (fs.directoriesIn lead p).flatMap fun name => fs.filesTo endings lead n (p.child name)

section Listing

variable {fs : FileSystem} {endings : List String} {p q : Path} {names : List String}
  {name : String} {n lead : Nat}

theorem leadBytes_le (root : Path) : leadBytes root ≤ 2 := by
  rw [leadBytes]
  split <;> decide

theorem leadsThrough_nil : fs.LeadsThrough p [] ↔ fs.isDirectory p = true := by
  constructor
  · intro h
    exact p.extend_nil ▸ h [] List.prefix_rfl
  · intro h above habove
    rwa [List.prefix_nil.mp habove, p.extend_nil]

theorem leadsThrough_cons : fs.LeadsThrough p (name :: names) ↔
    fs.isDirectory p = true ∧ fs.LeadsThrough (p.child name) names := by
  constructor
  · intro h
    refine ⟨p.extend_nil ▸ h [] (List.nil_prefix ..), fun above habove => ?_⟩
    rw [← p.extend_cons]
    exact h _ (List.cons_prefix_cons.mpr ⟨rfl, habove⟩)
  · rintro ⟨hdir, h⟩ above habove
    cases above with
    | nil => rwa [p.extend_nil]
    | cons x above =>
      obtain ⟨rfl, hrest⟩ := List.cons_prefix_cons.mp habove
      rw [p.extend_cons]
      exact h above hrest

theorem LeadsThrough.start (h : fs.LeadsThrough p names) : fs.isDirectory p = true :=
  p.extend_nil ▸ h [] (List.nil_prefix ..)

theorem LeadsThrough.isDirectory (h : fs.LeadsThrough p names) :
    fs.isDirectory (p.extend names) = true :=
  h names List.prefix_rfl

theorem listed_nil : fs.Listed endings p [] name ↔ PlainName name ∧ fs.isDirectory p = true ∧
    fs.isFile (p.child name) = .ok true ∧ hasEnding endings name = true := by
  constructor
  · intro h
    exact ⟨h.plain name (by simp), leadsThrough_nil.mp h.directories, h.file, h.ending⟩
  · rintro ⟨hplain, hdir, hfile, hending⟩
    exact ⟨by simpa using hplain, leadsThrough_nil.mpr hdir, hfile, hending⟩

theorem listed_cons {x : String} : fs.Listed endings p (x :: names) name ↔
    PlainName x ∧ fs.isDirectory p = true ∧ fs.Listed endings (p.child x) names name := by
  constructor
  · intro h
    obtain ⟨hdir, hdirs⟩ := leadsThrough_cons.mp h.directories
    obtain ⟨hx, hplain⟩ := List.forall_mem_cons.mp h.plain
    exact ⟨hx, hdir, hplain, hdirs, p.extend_cons x _ ▸ h.file, h.ending⟩
  · rintro ⟨hx, hdir, h⟩
    refine ⟨List.forall_mem_cons.mpr ⟨hx, h.plain⟩, leadsThrough_cons.mpr ⟨hdir, h.directories⟩,
      ?_, h.ending⟩
    rw [List.cons_append, p.extend_cons]
    exact h.file

/-- The path of a directory on the way is short enough if the one at the end is. -/
theorem fits_of_extend (hplain : ∀ x ∈ names, PlainName x) (hlead : lead ≤ 2)
    (h : byteCount (p.extend names).text + lead ≤ maxPathBytes) :
    byteCount p.text + lead ≤ maxPathBytes := by
  induction names generalizing p with
  | nil => rwa [p.extend_nil] at h
  | cons x names ih =>
    obtain ⟨hx, hnames⟩ := List.forall_mem_cons.mp hplain
    rw [p.extend_cons] at h
    have hchild := ih hnames h
    have hstep := @Path.byteCount_le_of_child p x (not_or.mp hx.1).1
    simp only [maxPathBytes] at hchild ⊢
    omega

theorem opened?_of_fits (hfits : byteCount p.text + lead ≤ maxPathBytes)
    (hdir : fs.isDirectory p = true) : ∃ loc, fs.opened? lead p = some loc := by
  obtain ⟨loc, hloc⟩ := isDirectory_eq_true_iff.mp hdir
  exact ⟨loc, opened?_eq_some_iff.mpr ⟨hfits, hloc⟩⟩

/-- A directory that a file is to be listed below is opened. -/
theorem Listed.opened (h : fs.Listed endings p names name) (hlead : lead ≤ 2) :
    ∃ loc, fs.opened? lead p = some loc := by
  refine opened?_of_fits ?_ h.directories.start
  obtain ⟨x, mode, bytes, hfind⟩ := isFile_eq_true_iff.mp h.file
  have hfits := (find_eq_ok_iff.mp hfind).1
  have hplain := h.plain
  cases hall : names ++ [name] with
  | nil => simp at hall
  | cons x rest =>
    rw [hall] at hfits hplain
    obtain ⟨hx, hrest⟩ := List.forall_mem_cons.mp hplain
    rw [p.extend_cons] at hfits
    have hchild := @fits_of_extend (p.child x) rest 0 hrest (by omega) hfits
    have hstep := @Path.byteCount_le_of_child p x (not_or.mp hx.1).1
    simp only [maxPathBytes] at hchild ⊢
    omega

theorem isDirectory_of_mem_sortedNames (h : name ∈ fs.sortedNames lead p) :
    fs.isDirectory p = true := by
  obtain ⟨loc, hloc, _⟩ := mem_sortedNames.mp h
  exact isDirectory_of_opened hloc

theorem mem_filesIn (hnamed : fs.WellNamed) (honce : fs.NamesOnce) (hlead : lead ≤ 2) :
    name ∈ fs.filesIn endings lead p ↔ fs.Listed endings p [] name := by
  rw [filesIn, List.mem_filter]
  simp only [Bool.and_eq_true, Bool.not_eq_true', decide_eq_true_eq]
  constructor
  · rintro ⟨hname, hfile, _, hending⟩
    exact listed_nil.mpr ⟨plainName_of_mem_sortedNames hnamed honce hname,
      isDirectory_of_mem_sortedNames hname, hfile, hending⟩
  · intro h
    obtain ⟨loc, hopened⟩ := h.opened hlead
    obtain ⟨hplain, _, hfile, hending⟩ := listed_nil.mp h
    obtain ⟨x, mode, bytes, hfind⟩ := isFile_eq_true_iff.mp hfile
    exact ⟨mem_sortedNames_of_find hopened hplain hfind, hfile,
      entersDirectory_of_isFile (by simp [hopened]) hplain hfile, hending⟩

theorem plainName_of_mem_directoriesIn (hnamed : fs.WellNamed) (honce : fs.NamesOnce)
    (h : name ∈ fs.directoriesIn lead p) : PlainName name ∧ fs.isDirectory p = true := by
  have hname := (List.mem_filter.mp h).1
  exact ⟨plainName_of_mem_sortedNames hnamed honce hname, isDirectory_of_mem_sortedNames hname⟩

theorem mem_directoriesIn_of_opened {loc x : Location} (hopened : fs.opened? lead p = some loc)
    (hplain : PlainName name) (hchild : fs.opened? lead (p.child name) = some x) :
    name ∈ fs.directoriesIn lead p :=
  List.mem_filter.mpr ⟨mem_sortedNames_of_find hopened hplain (opened?_eq_some_iff.mp hchild).2,
    entersDirectory_of_opened hopened hplain hchild⟩

/-- A listing to some depth holds the files that fewer names of directories lead to. -/
theorem mem_filesTo (hnamed : fs.WellNamed) (honce : fs.NamesOnce) (hlead : lead ≤ 2) :
    q ∈ fs.filesTo endings lead n p ↔ ∃ names name, names.length < n ∧
      q = p.extend (names ++ [name]) ∧ fs.Listed endings p names name := by
  induction n generalizing p with
  | zero => simp [filesTo]
  | succ n ih =>
    rw [filesTo, List.mem_append, List.mem_map, List.mem_flatMap]
    constructor
    · rintro (⟨name, hname, rfl⟩ | ⟨x, hx, hq⟩)
      · exact ⟨[], name, Nat.succ_pos n, rfl, (mem_filesIn hnamed honce hlead).mp hname⟩
      · obtain ⟨names, name, hlen, rfl, hlisted⟩ := ih.mp hq
        obtain ⟨hplain, hdir⟩ := plainName_of_mem_directoriesIn hnamed honce hx
        refine ⟨x :: names, name, Nat.succ_lt_succ hlen, ?_,
          listed_cons.mpr ⟨hplain, hdir, hlisted⟩⟩
        rw [List.cons_append, p.extend_cons]
    · rintro ⟨names, name, hlen, rfl, hlisted⟩
      cases names with
      | nil => exact Or.inl ⟨name, (mem_filesIn hnamed honce hlead).mpr hlisted, rfl⟩
      | cons x names =>
        obtain ⟨loc, hopened⟩ := hlisted.opened hlead
        obtain ⟨hplain, _, hbelow⟩ := listed_cons.mp hlisted
        obtain ⟨loc', hchild⟩ := hbelow.opened hlead
        refine Or.inr ⟨x, mem_directoriesIn_of_opened hopened hplain hchild, ?_⟩
        exact ih.mpr ⟨names, name, Nat.lt_of_succ_lt_succ hlen, p.extend_cons x _, hbelow⟩

/-! ## The order of a listing -/

theorem exists_parts_of_mem_filesTo (hq : q ∈ fs.filesTo endings lead n p) :
    ∃ rest, rest ≠ [] ∧ q.parts = p.parts ++ rest := by
  induction n generalizing p with
  | zero => cases hq
  | succ n ih =>
    rcases List.mem_append.mp hq with hq | hq
    · obtain ⟨name, _, rfl⟩ := List.mem_map.mp hq
      exact ⟨[name], by simp, rfl⟩
    · obtain ⟨name, _, hq⟩ := List.mem_flatMap.mp hq
      obtain ⟨rest, _, hparts⟩ := ih hq
      exact ⟨name :: rest, by simp, hparts.trans (p.parts_child_append name rest)⟩

theorem pairwise_filesTo (honce : fs.NamesOnce) (lead n : Nat) (p : Path) :
    (fs.filesTo endings lead n p).Pairwise fun q r => Precedes q.parts r.parts := by
  induction n generalizing p with
  | zero => exact List.Pairwise.nil
  | succ n ih =>
    have hsorted := honce.pairwise_sortedNames lead p
    -- Everything below a directory has its name and at least one more after it.
    have hbelow : ∀ {x q}, q ∈ fs.filesTo endings lead n (p.child x) →
        ∃ rest, rest ≠ [] ∧ q.parts = p.parts ++ x :: rest := by
      intro x q hq
      obtain ⟨rest, hrest, hparts⟩ := exists_parts_of_mem_filesTo hq
      exact ⟨rest, hrest, hparts.trans (p.parts_child_append x rest)⟩
    rw [filesTo, List.pairwise_append, List.pairwise_map, List.pairwise_flatMap]
    refine ⟨?_, ⟨fun x _ => ih (p.child x), ?_⟩, ?_⟩
    · refine (hsorted.sublist List.filter_sublist).imp fun {a b} hlt => ?_
      exact precedes_append p.parts (precedes_of_lt Iff.rfl hlt)
    · refine (hsorted.sublist List.filter_sublist).imp fun {a b} hlt q hq r hr => ?_
      obtain ⟨as, has, hqp⟩ := hbelow hq
      obtain ⟨bs, hbs, hrp⟩ := hbelow hr
      rw [hqp, hrp]
      exact precedes_append p.parts (precedes_of_lt (iff_of_false has hbs) hlt)
    · intro q hq r hr
      obtain ⟨a, ha, rfl⟩ := List.mem_map.mp hq
      obtain ⟨b, hb, hr⟩ := List.mem_flatMap.mp hr
      obtain ⟨bs, hbs, hrp⟩ := hbelow hr
      have hne : a ≠ b := by
        rintro rfl
        have hfile := (Bool.and_eq_true_iff.mp (List.mem_filter.mp ha).2).2
        rw [(List.mem_filter.mp hb).2] at hfile
        cases hfile
      rw [hrp]
      exact precedes_append p.parts (precedes_of_file hne hbs)

theorem nodup_filesTo (honce : fs.NamesOnce) (lead n : Nat) (p : Path) :
    (fs.filesTo endings lead n p).Nodup := by
  refine (fs.pairwise_filesTo honce lead n p).imp fun {q r} hbefore he => ?_
  rw [he] at hbefore
  exact not_precedes_self _ hbefore

/-! ## What ends a listing, and where -/

/-- A name that ends a listing, in a directory that fewer than `n` names lead to. -/
def EndsBelow (fs : FileSystem) (endings : List String) (lead n : Nat) (p : Path) : Prop :=
  ∃ names name, names.length < n ∧ (∀ x ∈ names, PlainName x) ∧ fs.LeadsThrough p names ∧
    fs.EndsListing endings lead (p.extend names) name

theorem endsBelow_succ (hnamed : fs.WellNamed) (honce : fs.NamesOnce) (hlead : lead ≤ 2) :
    fs.EndsBelow endings lead (n + 1) p ↔ (∃ name, fs.EndsListing endings lead p name) ∨
      ∃ x ∈ fs.directoriesIn lead p, fs.EndsBelow endings lead n (p.child x) := by
  constructor
  · rintro ⟨names, name, hlen, hplain, hdirs, hends⟩
    cases names with
    | nil => exact Or.inl ⟨name, p.extend_nil ▸ hends⟩
    | cons x names =>
      obtain ⟨last, hlast, _⟩ := mem_sortedNames.mp hends.listed
      have hfits := (opened?_eq_some_iff.mp hlast).1
      obtain ⟨hx, hnames⟩ := List.forall_mem_cons.mp hplain
      obtain ⟨hdir, hbelow⟩ := leadsThrough_cons.mp hdirs
      obtain ⟨loc, hopened⟩ := opened?_of_fits (fits_of_extend hplain hlead hfits) hdir
      rw [p.extend_cons] at hfits hends
      obtain ⟨loc', hchild⟩ := opened?_of_fits (fits_of_extend hnames hlead hfits) hbelow.start
      exact Or.inr ⟨x, mem_directoriesIn_of_opened hopened hx hchild, names, name,
        Nat.lt_of_succ_lt_succ hlen, hnames, hbelow, hends⟩
  · rintro (⟨name, hends⟩ | ⟨x, hx, names, name, hlen, hplain, hdirs, hends⟩)
    · refine ⟨[], name, Nat.succ_pos n, by simp, ?_, p.extend_nil.symm ▸ hends⟩
      exact leadsThrough_nil.mpr (isDirectory_of_mem_sortedNames hends.listed)
    · obtain ⟨hplainx, hdir⟩ := plainName_of_mem_directoriesIn hnamed honce hx
      refine ⟨x :: names, name, Nat.succ_lt_succ hlen, ?_, ?_, ?_⟩
      · exact List.forall_mem_cons.mpr ⟨hplainx, hplain⟩
      · exact leadsThrough_cons.mpr ⟨hdir, hdirs⟩
      · rw [p.extend_cons]
        exact hends

theorem filesAmong_eq {names : List String}
    (h : ∀ name ∈ names, ∀ e, fs.isFile (p.child name) ≠ .error e) :
    fs.filesAmong p names = .ok
      ((names.filter fun name => decide (fs.isFile (p.child name) = .ok true)).map p.child) := by
  induction names with
  | nil => rfl
  | cons name names ih =>
    obtain ⟨hname, hnames⟩ := List.forall_mem_cons.mp h
    rw [filesAmong, ih hnames]
    cases hfile : fs.isFile (p.child name) with
    | error e => exact absurd hfile (hname e)
    | ok isFile => cases isFile <;> simp [hfile] <;> rfl

/-- Where no name ends it, a listing holds what it is to hold. -/
theorem listTo_eq (hnamed : fs.WellNamed) (honce : fs.NamesOnce) (hlead : lead ≤ 2)
    (h : ¬ fs.EndsBelow endings lead n p) :
    fs.listTo endings lead n p = .ok (fs.filesTo endings lead n p) := by
  induction n generalizing p with
  | zero => rfl
  | succ n ih =>
    rw [endsBelow_succ hnamed honce hlead, not_or] at h
    obtain ⟨hhere, hbelow⟩ := h
    have hfiles : ∀ name ∈ (fs.sortedNames lead p).filter (fun name =>
        !fs.entersDirectory lead p name && hasEnding endings name),
        ∀ e, fs.isFile (p.child name) ≠ .error e := by
      intro name hname e hfile
      obtain ⟨hlisted, hkept⟩ := List.mem_filter.mp hname
      obtain ⟨henters, hending⟩ := Bool.and_eq_true_iff.mp hkept
      have hlong := (isFile_eq_error_iff.mp hfile).1
      exact hhere ⟨name, hlisted, hending, by simpa using henters, hlong⟩
    have hdirs :
        (fs.directoriesIn lead p).mapM (fun name => fs.listTo endings lead n (p.child name)) =
          .ok ((fs.directoriesIn lead p).map fun name =>
            fs.filesTo endings lead n (p.child name)) := by
      refine mapM_eq_ok_map fun name hname => ih fun hends => ?_
      exact hbelow ⟨name, hname, hends⟩
    rw [listTo, bind_eq_ok_iff]
    refine ⟨_, filesAmong_eq hfiles, bind_eq_ok_iff.mpr ⟨_, hdirs, ?_⟩⟩
    rw [List.filter_filter, filesTo, filesIn, List.flatMap_def]
    rfl

theorem listTo_error (hnamed : fs.WellNamed) (honce : fs.NamesOnce) (hlead : lead ≤ 2)
    (h : fs.EndsBelow endings lead n p) : ∃ e, fs.listTo endings lead n p = .error e := by
  induction n generalizing p with
  | zero =>
    obtain ⟨_, _, hlen, _⟩ := h
    cases hlen
  | succ n ih =>
    rcases (endsBelow_succ hnamed honce hlead).mp h with ⟨name, hends⟩ | ⟨x, hx, hends⟩
    · exact hends.listTo_error n
    · obtain ⟨e, he⟩ := ih hends
      cases hlist : fs.listTo endings lead (n + 1) p with
      | error e => exact ⟨e, rfl⟩
      | ok paths =>
        rw [listTo, bind_eq_ok_iff] at hlist
        obtain ⟨files, _, hlist⟩ := hlist
        obtain ⟨below, hbelow, _⟩ := bind_eq_ok_iff.mp hlist
        obtain ⟨listed, hlisted⟩ := exists_of_mapM_ok hbelow x hx
        cases he.symm.trans hlisted

/-! ## The endings -/

theorem hasEnding_iff : hasEnding endings name = true ↔
    ∃ ending ∈ endings, ending.toList <:+ name.toList := by
  simp only [hasEnding, List.any_eq_true, List.isSuffixOf_iff_suffix]

/-- Every name has the empty ending. -/
theorem hasEnding_empty (name : String) : hasEnding [""] name = true :=
  hasEnding_iff.mpr ⟨"", List.mem_singleton_self _, List.nil_suffix⟩

theorem listTo_congr {endings' : List String}
    (h : ∀ name, hasEnding endings' name = hasEnding endings name) (lead n : Nat) (p : Path) :
    fs.listTo endings' lead n p = fs.listTo endings lead n p := by
  induction n generalizing p with
  | zero => rfl
  | succ n ih => simp only [listTo, h, ih]

/-- What is listed for some endings is what is listed for all, without the other names. -/
theorem filter_filesTo (endings : List String) (lead n : Nat) (p : Path) :
    (fs.filesTo [""] lead n p).filter (Path.hasEnding endings) = fs.filesTo endings lead n p := by
  induction n generalizing p with
  | zero => rfl
  | succ n ih =>
    have hhere : (fs.filesIn [""] lead p).filter (Path.hasEnding endings ∘ p.child) =
        fs.filesIn endings lead p := by
      rw [filesIn, filesIn, List.filter_filter]
      apply List.filter_congr
      intro name _
      rw [Function.comp_apply, Path.hasEnding_child, hasEnding_empty, Bool.and_true, Bool.and_comm,
        Bool.and_assoc]
    rw [filesTo, filesTo, List.filter_append, List.filter_map, hhere, List.filter_flatMap]
    congr 1
    exact List.flatMap_congr fun name _ => ih (p.child name)

theorem EndsBelow.empty (h : fs.EndsBelow endings lead n p) : fs.EndsBelow [""] lead n p := by
  obtain ⟨names, name, hlen, hplain, hdirs, hends⟩ := h
  exact ⟨names, name, hlen, hplain, hdirs, hends.listed, hasEnding_empty name, hends.noDirectory,
    hends.tooLong⟩

theorem listTo_of_not_directory (h : fs.isDirectory p = false) (endings : List String)
    (lead n : Nat) : fs.listTo endings lead n p = .ok [] := by
  have hnames : fs.sortedNames lead p = [] := by
    rw [List.eq_nil_iff_forall_not_mem]
    intro name hname
    rw [isDirectory_of_mem_sortedNames hname] at h
    cases h
  cases n with
  | zero => rfl
  | succ n =>
    rw [listTo, hnames]
    rfl

/-! ## The whole listing -/

theorem endsBelow_depthBound_iff (hs : fs.Sound) :
    fs.EndsBelow endings lead fs.depthBound p ↔ ∃ names name, (∀ x ∈ names, PlainName x) ∧
      fs.LeadsThrough p names ∧ fs.EndsListing endings lead (p.extend names) name := by
  constructor
  · rintro ⟨names, name, _, hplain, hdirs, hends⟩
    exact ⟨names, name, hplain, hdirs, hends⟩
  · rintro ⟨names, name, hplain, hdirs, hends⟩
    exact ⟨names, name, length_lt_depthBound hs hplain hdirs.isDirectory, hplain, hdirs, hends⟩

theorem mem_filesTo_depthBound (hs : fs.Sound) (hnamed : fs.WellNamed) (honce : fs.NamesOnce)
    (hlead : lead ≤ 2) :
    q ∈ fs.filesTo endings lead fs.depthBound p ↔ ∃ names name, q = p.extend (names ++ [name]) ∧
      fs.Listed endings p names name := by
  rw [mem_filesTo hnamed honce hlead]
  constructor
  · rintro ⟨names, name, _, hq, hlisted⟩
    exact ⟨names, name, hq, hlisted⟩
  · rintro ⟨names, name, hq, hlisted⟩
    have hplain : ∀ x ∈ names, PlainName x :=
      fun x hx => hlisted.plain x (List.mem_append_left _ hx)
    exact ⟨names, name, length_lt_depthBound hs hplain hlisted.directories.isDirectory, hq, hlisted⟩

theorem listFiles_cases (hnamed : fs.WellNamed) (honce : fs.NamesOnce) (root : Path)
    (endings : List String) :
    (¬ fs.EndsBelow endings (leadBytes root) fs.depthBound root ∧
      fs.listFiles root endings = .ok (fs.filesTo endings (leadBytes root) fs.depthBound root)) ∨
    (fs.EndsBelow endings (leadBytes root) fs.depthBound root ∧
      ∃ e, fs.listFiles root endings = .error e) := by
  by_cases hends : fs.EndsBelow endings (leadBytes root) fs.depthBound root
  · exact Or.inr ⟨hends, listTo_error hnamed honce (leadBytes_le root) hends⟩
  · exact Or.inl ⟨hends, listTo_eq hnamed honce (leadBytes_le root) hends⟩

end Listing

/-! ### Short paths -/

/-- The names that a listing meets below a root have paths that can be looked up. -/
def ShortPaths (fs : FileSystem) (root : Path) : Prop :=
  ∀ names name, (∀ x ∈ names, PlainName x) → fs.LeadsThrough root names →
    name ∈ fs.sortedNames (leadBytes root) (root.extend names) →
      byteCount (root.extend (names ++ [name])).text ≤ maxPathBytes

theorem Path.byteCount_extend_le {b : Nat} {p : Path} {names : List String}
    (h : ∀ x ∈ names, byteCount x ≤ b) :
    byteCount (p.extend names).text ≤ byteCount p.text + names.length * (b + 1) := by
  induction names generalizing p with
  | nil =>
    rw [p.extend_nil]
    exact Nat.le_add_right ..
  | cons x names ih =>
    obtain ⟨hx, hnames⟩ := List.forall_mem_cons.mp h
    have hrest := @ih (p.child x) hnames
    have hstem := p.stemBytes_le
    rw [Path.byteCount_child] at hrest
    rw [p.extend_cons, List.length_cons, Nat.succ_mul]
    omega

/-- Where names are short and directories not too deep, so are the paths. -/
theorem shortPaths_of_entries {fs : FileSystem} (hs : fs.Sound) {b : Nat} {root : Path}
    (hnames : ∀ x ∈ fs.entries, ∀ name ∈ x.1, byteCount name ≤ b)
    (hroot : byteCount root.text + (fs.depthBound + 1) * (b + 1) ≤ maxPathBytes) :
    fs.ShortPaths root := by
  have hlisted : ∀ {lead p name}, name ∈ fs.sortedNames lead p → byteCount name ≤ b := by
    intro lead p name hname
    obtain ⟨_, _, hmem⟩ := mem_sortedNames.mp hname
    obtain ⟨x, hx, hin⟩ := exists_of_mem_namesIn hmem
    exact hnames x hx name hin
  have hbelow : ∀ {p : Path} {names : List String}, (∀ x ∈ names, PlainName x) →
      fs.LeadsThrough p names → ∀ x ∈ names, byteCount x ≤ b := by
    intro p names hplain hdirs
    induction names generalizing p with
    | nil => simp
    | cons x names ih =>
      obtain ⟨hx, hrest⟩ := List.forall_mem_cons.mp hplain
      obtain ⟨hdir, hchild⟩ := leadsThrough_cons.mp hdirs
      obtain ⟨loc, hloc⟩ := isDirectory_eq_true_iff.mp hchild.start
      obtain ⟨here, hhere⟩ := isDirectory_eq_true_iff.mp hdir
      have hopened : fs.opened? 0 p = some here :=
        opened?_eq_some_iff.mpr ⟨(find_eq_ok_iff.mp hhere).1, hhere⟩
      exact List.forall_mem_cons.mpr
        ⟨hlisted (mem_sortedNames_of_find hopened hx hloc), ih hrest hchild⟩
  intro names name hplain hdirs hname
  have hlen := length_lt_depthBound hs hplain hdirs.isDirectory
  have hbytes := @Path.byteCount_extend_le b root (names ++ [name]) fun x hx => by
    rcases List.mem_append.mp hx with hx | hx
    · exact hbelow hplain hdirs x hx
    · rw [List.mem_singleton.mp hx]
      exact hlisted hname
  have hmul : (names ++ [name]).length * (b + 1) ≤ (fs.depthBound + 1) * (b + 1) :=
    Nat.mul_le_mul_right _ (by rw [List.length_append, List.length_singleton]; omega)
  omega

theorem exists_listFiles {fs : FileSystem} {root : Path} (hs : fs.Sound) (hnamed : fs.WellNamed)
    (honce : fs.NamesOnce) (htargets : fs.ShortTargets) (hpaths : fs.ShortPaths root)
    (endings : List String) : ∃ paths, fs.listFiles root endings = .ok paths := by
  rcases listFiles_cases hnamed honce root endings with ⟨_, hlist⟩ | ⟨hends, _⟩
  · exact ⟨_, hlist⟩
  · obtain ⟨names, name, hplain, hdirs, hend⟩ := (endsBelow_depthBound_iff hs).mp hends
    have hfits := hpaths names name hplain hdirs hend.listed
    have hlong := hend.long hnamed htargets
    rw [Path.extend, ← List.append_assoc] at hfits
    exact absurd hfits (Nat.not_le.mpr hlong)

/-- A listing fails exactly if names of directories lead from the root to a name that ends
it; where no link leads to a name that is too long, and the paths below the root are short,
there is none. Else it holds the files that names of directories lead to and that have one
of the endings, no others, each once, in the order of their parts. Order and repetition of
the endings do not matter, the listing is that of all files without the other names, and it
is empty if the root is no directory. -/
theorem listFiles_lists_each_file_once (fs : FileSystem) (hs : fs.Sound) (hnamed : fs.WellNamed)
    (honce : fs.NamesOnce) (root : Path) (endings : List String) :
    ((∃ e, fs.listFiles root endings = .error e) ↔
      ∃ names name, (∀ x ∈ names, PlainName x) ∧ fs.LeadsThrough root names ∧
        fs.EndsListing endings (leadBytes root) (root.extend names) name) ∧
    (fs.ShortTargets → fs.ShortPaths root → ∃ paths, fs.listFiles root endings = .ok paths) ∧
    (∀ paths, fs.listFiles root endings = .ok paths →
      (∀ q, q ∈ paths ↔ ∃ names name, q = root.extend (names ++ [name]) ∧
        fs.Listed endings root names name) ∧
      paths.Nodup ∧ paths.Pairwise fun q r => Precedes q.parts r.parts) ∧
    (∀ endings', (∀ e, e ∈ endings' ↔ e ∈ endings) →
      fs.listFiles root endings' = fs.listFiles root endings) ∧
    (∀ all, fs.listFiles root [""] = .ok all →
      fs.listFiles root endings = .ok (all.filter (Path.hasEnding endings))) ∧
    (fs.isDirectory root = false → fs.listFiles root endings = .ok []) := by
  have hlead := leadBytes_le root
  refine ⟨?_, ?_, ?_, ?_, ?_, fun hroot => listTo_of_not_directory hroot endings _ _⟩
  · rw [← endsBelow_depthBound_iff hs]
    rcases listFiles_cases hnamed honce root endings with ⟨hends, hlist⟩ | ⟨hends, e, hlist⟩
    · rw [hlist]
      exact iff_of_false nofun hends
    · exact iff_of_true ⟨e, hlist⟩ hends
  · intro htargets hpaths
    exact exists_listFiles hs hnamed honce htargets hpaths endings
  · intro paths hpaths
    rcases listFiles_cases hnamed honce root endings with ⟨_, hlist⟩ | ⟨_, e, hlist⟩
    · obtain rfl := Except.ok.inj (hlist.symm.trans hpaths)
      exact ⟨fun q => mem_filesTo_depthBound hs hnamed honce hlead, nodup_filesTo honce _ _ root,
        pairwise_filesTo honce _ _ root⟩
    · cases hlist.symm.trans hpaths
  · intro endings' hsame
    refine listTo_congr (fun name => ?_) _ fs.depthBound root
    rw [Bool.eq_iff_iff, hasEnding_iff, hasEnding_iff]
    simp only [hsame]
  · intro all hall
    rcases listFiles_cases hnamed honce root [""] with ⟨hends, hlist⟩ | ⟨_, e, hlist⟩
    · obtain rfl := Except.ok.inj (hlist.symm.trans hall)
      rw [filter_filesTo]
      exact listTo_eq hnamed honce hlead fun h => hends h.empty
    · cases hlist.symm.trans hall

/-- A directory under two names, and a file with another ending. -/
def linkedDirectory : FileSystem :=
  ofEntries [(["notes.txt"], .file 0o644 []), (["e"], .link "d"), (["d"], .directory),
    (["d", "B.java"], .file 0o644 [])]

/-- The file is listed under both names, and the listing is the same if an ending is
given twice. -/
theorem listing_through_link :
    let root : Path := ⟨.relative, []⟩
    ∃ paths, linkedDirectory.listFiles root [".java"] = .ok paths ∧
      linkedDirectory.listFiles root [".java", ".java"] = .ok paths ∧
      ⟨.relative, ["d", "B.java"]⟩ ∈ paths ∧ ⟨.relative, ["e", "B.java"]⟩ ∈ paths ∧
      ⟨.relative, ["notes.txt"]⟩ ∉ paths := by
  intro root
  have hs : linkedDirectory.Sound := sound_of_forall (by decide) rfl (by decide)
  have hnamed : linkedDirectory.WellNamed := ⟨by decide, by decide⟩
  have honce : linkedDirectory.NamesOnce := ⟨by decide, by decide⟩
  have htargets : linkedDirectory.ShortTargets := by
    intro loc target hget
    obtain ⟨_, rfl⟩ : loc = ["e"] ∧ target = "d" := by
      rw [get?] at hget
      split at hget
      · cases hget
      · simpa [linkedDirectory, ofEntries] using mem_of_lookup hget
    decide +kernel
  have hpaths : linkedDirectory.ShortPaths root :=
    shortPaths_of_entries (b := 9) hs (by decide +kernel) (by decide +kernel)
  have hbelow : ∀ x, PlainName x → linkedDirectory.isDirectory (root.child x) = true →
      linkedDirectory.isFile ((root.child x).child "B.java") = .ok true →
      linkedDirectory.Listed [".java"] root [x] "B.java" := by
    intro x hx hdir hfile
    refine listed_cons.mpr ⟨hx, by decide +kernel, listed_nil.mpr ⟨by decide, hdir, hfile, ?_⟩⟩
    decide +kernel
  obtain ⟨_, hlists, hholds, hsame, _⟩ := listFiles_lists_each_file_once linkedDirectory hs hnamed
    honce root [".java"]
  obtain ⟨paths, hlisted⟩ := hlists htargets hpaths
  obtain ⟨hmem, _, _⟩ := hholds paths hlisted
  refine ⟨paths, hlisted, (hsame _ (by simp)).trans hlisted, (hmem _).mpr ?_, (hmem _).mpr ?_, ?_⟩
  · exact ⟨["d"], "B.java", rfl, hbelow "d" (by decide) (by decide +kernel) (by decide +kernel)⟩
  · exact ⟨["e"], "B.java", rfl, hbelow "e" (by decide) (by decide +kernel) (by decide +kernel)⟩
  · intro hnotes
    obtain ⟨names, name, hparts, hlisted⟩ := (hmem _).mp hnotes
    have hname : name = "notes.txt" := by
      have hlast := congrArg (fun q : Path => q.parts.getLast?) hparts
      simpa [Path.extend, eq_comm] using hlast
    have hending := hlisted.ending
    rw [hname] at hending
    exact absurd hending (by decide +kernel)

/-- A file, and below a directory a link to a name that is too long. -/
def aboveFarLink : FileSystem :=
  ofEntries [(["A.java"], .file 0o644 []), (["d"], .directory), (["d", "B.java"], .link longName)]

/-- A link that cannot be followed ends the listing, although the other file is one
that it is to hold. -/
theorem listing_ended_by_link :
    let root : Path := ⟨.relative, []⟩
    aboveFarLink.Sound ∧ aboveFarLink.WellNamed ∧ aboveFarLink.NamesOnce ∧
      aboveFarLink.Listed [".java"] root [] "A.java" ∧
      ∀ paths, aboveFarLink.listFiles root [".java"] ≠ .ok paths := by
  intro root
  have hs : aboveFarLink.Sound := sound_of_forall (by decide) rfl (by decide)
  have hnamed : aboveFarLink.WellNamed := ⟨by decide, by decide⟩
  have honce : aboveFarLink.NamesOnce := ⟨by decide, by decide⟩
  refine ⟨hs, hnamed, honce, listed_nil.mpr ?_, ?_⟩
  · exact ⟨by decide, by decide +kernel, by decide +kernel, by decide +kernel⟩
  have hfind : aboveFarLink.find ⟨.relative, ["d", "B.java"]⟩ = .error .nameTooLong := by
    have hplace : aboveFarLink.place ⟨.relative, ["d", "B.java"]⟩ = .error .nameTooLong := by
      rw [place, follow_of_short (by decide +kernel),
        walk_directory ⟨by decide, by decide, by decide⟩ rfl]
      exact walk_long_link ⟨by decide, by decide, by decide⟩ rfl slash_not_mem_longName
        (by rw [byteCount_longName]; decide)
    rw [find, hplace]
  have hends :
      aboveFarLink.EndsListing [".java"] (leadBytes root) (root.extend ["d"]) "B.java" := by
    have hopened : aboveFarLink.opened? (leadBytes root) (root.extend ["d"]) = some ["d"] := by
      decide +kernel
    exact ⟨mem_sortedNames.mpr ⟨["d"], hopened, by decide +kernel⟩, by decide +kernel,
      entersDirectory_of_find_error hopened rfl hfind, hfind⟩
  have hbelow : aboveFarLink.EndsBelow [".java"] (leadBytes root) aboveFarLink.depthBound root := by
    refine (endsBelow_depthBound_iff hs).mpr ⟨["d"], "B.java", by decide, ?_, hends⟩
    exact leadsThrough_cons.mpr ⟨by decide +kernel, leadsThrough_nil.mpr (by decide +kernel)⟩
  obtain ⟨e, he⟩ := listTo_error hnamed honce (leadBytes_le root) hbelow
  intro paths hpaths
  cases he.symm.trans hpaths

end FileSystem

end ClassOutline
