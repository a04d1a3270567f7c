import ClassOutline.FileSystem.Resolve
import ClassOutline.Proofs.FileSystem.Lookup
import Mathlib.Data.List.Nodup
import Mathlib.Data.List.Perm.Subperm
import Mathlib.Data.List.ProdSigma

/-!
# Looking up and resolving agree

A lookup follows a path as the system does, link by link and at most so many of
them. Resolving rewrites the path before anything is looked up, and guards against
loops by remembering the links it is in. Where a lookup succeeds the two lead to
the same location, unless resolving `Overlooks` a link whose path, as it has been
spelled out by then, is too long to be looked up. Both are compared with `Leads`,
which counts the links that are replaced: a link inside its own target would count
as more than itself.
-/

namespace ClassOutline

theorem Waypoint.extend_inj {v w : Waypoint} {a b : String} (h : v.extend a = w.extend b) :
    v = w ∧ a = b := by
  obtain ⟨start, names⟩ := v
  obtain ⟨start', names'⟩ := w
  obtain ⟨rfl, hnames⟩ := Waypoint.mk.inj h
  obtain ⟨rfl, hlast⟩ := List.append_inj' hnames rfl
  exact ⟨rfl, List.head_eq_of_cons_eq hlast⟩

theorem Waypoint.ascend_extend (w : Waypoint) (name : String) : (w.extend name).ascend = w := by
  obtain ⟨start, names⟩ := w
  cases start with
  | root => exact congrArg (Waypoint.mk .root) List.dropLast_concat
  | working above =>
    cases names with
    | nil => rfl
    | cons first rest => exact congrArg (Waypoint.mk (.working above)) List.dropLast_concat

namespace FileSystem

/-! ## Where names lead -/

section Locate

variable {fs : FileSystem} {w : Waypoint}

theorem locate_extend (fs : FileSystem) (w : Waypoint) (name : String) :
    fs.locate (w.extend name) = fs.locate w ++ [name] :=
  (List.append_assoc ..).symm

theorem locate_ascend (fs : FileSystem) (w : Waypoint) :
    fs.locate w.ascend = (fs.locate w).dropLast := by
  obtain ⟨start, names⟩ := w
  cases start with
  | root => rfl
  | working above =>
    cases names with
    | nil =>
      simp only [Waypoint.ascend, locate, locateStart, List.append_nil]
      rw [List.dropLast_eq_take, List.take_take, List.length_take]
      congr 1
      omega
    | cons name names => exact (List.dropLast_append_of_ne_nil (List.cons_ne_nil name names)).symm

theorem locate_towards (fs : FileSystem) (w : Waypoint) (target : String) :
    fs.locate (w.towards target) = linkBase (fs.locate w) target := by
  rw [Waypoint.towards, linkBase]
  split <;> rfl

theorem targetAt?_eq_some_iff {target : String} : fs.targetAt? w = some target ↔
    byteCount w.path.text ≤ maxPathBytes ∧ fs.get? (fs.locate w) = some (.link target) := by
  rw [targetAt?]
  split
  · rename_i hlong
    exact iff_of_false nofun fun h => absurd hlong (Nat.not_lt.mpr h.1)
  · rename_i hshort
    split
    · rename_i other hget
      simp [hget, Nat.le_of_not_lt hshort]
    · rename_i hnot
      exact iff_of_false nofun fun h => hnot target h.2

theorem targetAt?_eq_none (h : ∀ target, fs.get? (fs.locate w) ≠ some (.link target)) :
    fs.targetAt? w = none :=
  Option.eq_none_iff_forall_ne_some.mpr fun target ht =>
    h target (targetAt?_eq_some_iff.mp ht).2

end Locate

/-- Names that lead from one path to another, and the number of links that are
replaced on the way. Whether the entries exist is not asked. -/
inductive Leads (fs : FileSystem) : Waypoint → List String → Nat → Waypoint → Prop where
  | nil {here : Waypoint} : Leads fs here [] 0 here
  | skip {here x : Waypoint} {name : String} {rest : List String} {k : Nat}
      (hn : name = "" ∨ name = ".") (h : Leads fs here rest k x) : Leads fs here (name :: rest) k x
  | up {here x : Waypoint} {name : String} {rest : List String} {k : Nat}
      (hn : name = "..") (h : Leads fs here.ascend rest k x) : Leads fs here (name :: rest) k x
  | plain {here x : Waypoint} {name : String} {rest : List String} {k : Nat} (hn : PlainName name)
      (he : ∀ target, fs.get? (fs.locate (here.extend name)) ≠ some (.link target))
      (h : Leads fs (here.extend name) rest k x) : Leads fs here (name :: rest) k x
  | link {here x y : Waypoint} {name target : String} {rest : List String} {j k : Nat}
      (hn : PlainName name) (he : fs.targetAt? (here.extend name) = some target)
      (ht : Leads fs (here.towards target) (Path.split target) j y) (h : Leads fs y rest k x) :
      Leads fs here (name :: rest) (j + 1 + k) x

/-- Names on whose way stands a link that resolving does not see. -/
inductive Overlooks (fs : FileSystem) : Waypoint → List String → Prop where
  | here {here : Waypoint} {name target : String} {rest : List String} (hn : PlainName name)
      (he : fs.get? (fs.locate (here.extend name)) = some (.link target))
      (hlong : maxPathBytes < byteCount (here.extend name).path.text) :
      Overlooks fs here (name :: rest)
  | skip {here : Waypoint} {name : String} {rest : List String} (hn : name = "" ∨ name = ".")
      (h : Overlooks fs here rest) : Overlooks fs here (name :: rest)
  | up {here : Waypoint} {name : String} {rest : List String} (hn : name = "..")
      (h : Overlooks fs here.ascend rest) : Overlooks fs here (name :: rest)
  | plain {here : Waypoint} {name : String} {rest : List String} (hn : PlainName name)
      (he : ∀ target, fs.get? (fs.locate (here.extend name)) ≠ some (.link target))
      (h : Overlooks fs (here.extend name) rest) : Overlooks fs here (name :: rest)
  | inside {here : Waypoint} {name target : String} {rest : List String} (hn : PlainName name)
      (he : fs.targetAt? (here.extend name) = some target)
      (h : Overlooks fs (here.towards target) (Path.split target)) :
      Overlooks fs here (name :: rest)
  | beyond {here y : Waypoint} {name target : String} {rest : List String} {k : Nat}
      (hn : PlainName name) (he : fs.targetAt? (here.extend name) = some target)
      (ht : Leads fs (here.towards target) (Path.split target) k y) (h : Overlooks fs y rest) :
      Overlooks fs here (name :: rest)

section Leads

variable {fs : FileSystem} {here x y : Waypoint} {names : List String} {j k : Nat}

theorem Leads.unique (h : Leads fs here names j x) (h' : Leads fs here names k y) :
    j = k ∧ x = y := by
  induction h generalizing k y with
  | nil =>
    cases h'
    exact ⟨rfl, rfl⟩
  | skip hn _ ih =>
    cases h' with
    | skip _ h' => exact ih h'
    | up hn' _ => simp [hn'] at hn
    | plain hn' _ _ => exact absurd hn hn'.1
    | link hn' _ _ _ => exact absurd hn hn'.1
  | up hn _ ih =>
    cases h' with
    | skip hn' _ => simp [hn] at hn'
    | up _ h' => exact ih h'
    | plain hn' _ _ => exact absurd hn hn'.2
    | link hn' _ _ _ => exact absurd hn hn'.2
  | plain hn he _ ih =>
    cases h' with
    | skip hn' _ => exact absurd hn' hn.1
    | up hn' _ => exact absurd hn' hn.2
    | plain _ _ h' => exact ih h'
    | link _ he' _ _ => exact absurd (targetAt?_eq_some_iff.mp he').2 (he _)
  | link hn he _ _ iht ih =>
    cases h' with
    | skip hn' _ => exact absurd hn' hn.1
    | up hn' _ => exact absurd hn' hn.2
    | plain _ he' _ => exact absurd (targetAt?_eq_some_iff.mp he).2 (he' _)
    | link _ he' ht' h' =>
      obtain rfl : _ = _ := Option.some.inj (he.symm.trans he')
      obtain ⟨rfl, rfl⟩ := iht ht'
      obtain ⟨rfl, rfl⟩ := ih h'
      exact ⟨rfl, rfl⟩

/-- Plain names that stand for no links lead to themselves. -/
theorem leads_of_unlinked (hplain : ∀ name ∈ names, PlainName name)
    (hlink : fs.Unlinked (fs.locate here) names) :
    Leads fs here names 0 ⟨here.start, here.names ++ names⟩ := by
  induction names generalizing here with
  | nil =>
    rw [List.append_nil]
    exact .nil
  | cons name rest ih =>
    have hrest := @ih (here.extend name) (fun x hx => hplain x (List.mem_cons_of_mem _ hx))
      (by rw [locate_extend]; exact hlink.tail)
    rw [Waypoint.extend, List.append_assoc] at hrest
    exact .plain (hplain name (List.mem_cons_self ..)) (by rw [locate_extend]; exact hlink.head)
      hrest

/-- A link to a name beside it leads to what has that name. -/
theorem leads_of_link {name target : String} (hname : PlainName name)
    (ht : fs.targetAt? (here.extend name) = some target) (htarget : PlainName target)
    (hslash : '/' ∉ target.toList)
    (hlink : ∀ next, fs.get? (fs.locate (here.extend target)) ≠ some (.link next)) :
    Leads fs here [name] 1 (here.extend target) := by
  have hrelative : isAbsolute target = false := by
    rw [isAbsolute, decide_eq_false_iff_not]
    exact fun hhead => hslash (List.mem_of_head? hhead)
  have htowards : here.towards target = here := by
    rw [Waypoint.towards, hrelative]
    rfl
  have hinner : Leads fs (here.towards target) (Path.split target) 0 (here.extend target) := by
    rw [htowards, Path.split_of_not_mem hslash]
    exact .plain htarget hlink .nil
  exact .link hname ht hinner .nil

theorem Leads.split {as bs : List String} (h : Leads fs here (as ++ bs) k x) :
    ∃ i y j, Leads fs here as i y ∧ Leads fs y bs j x := by
  induction as generalizing here k with
  | nil => exact ⟨0, here, k, .nil, h⟩
  | cons name as ih =>
    cases h with
    | skip hn h =>
      obtain ⟨i, y, j, ha, hb⟩ := ih h
      exact ⟨i, y, j, .skip hn ha, hb⟩
    | up hn h =>
      obtain ⟨i, y, j, ha, hb⟩ := ih h
      exact ⟨i, y, j, .up hn ha, hb⟩
    | plain hn he h =>
      obtain ⟨i, y, j, ha, hb⟩ := ih h
      exact ⟨i, y, j, .plain hn he ha, hb⟩
    | link hn he ht h =>
      obtain ⟨i, y, j, ha, hb⟩ := ih h
      exact ⟨_, y, j, .link hn he ht ha, hb⟩

theorem Leads.of_filter (h : Leads fs here (names.filter (· ≠ "")) k x) :
    Leads fs here names k x := by
  induction names generalizing here k with
  | nil => exact h
  | cons name rest ih =>
    by_cases hname : name = ""
    · rw [List.filter_cons_of_neg (by simp [hname])] at h
      exact .skip (Or.inl hname) (ih h)
    · rw [List.filter_cons_of_pos (by simp [hname])] at h
      cases h with
      | skip hn h => exact .skip hn (ih h)
      | up hn h => exact .up hn (ih h)
      | plain hn he h => exact .plain hn he (ih h)
      | link hn he ht h => exact .link hn he ht (ih h)

/-- What the parts of a target lead to, the pieces of its text lead to. -/
theorem Leads.of_targetParts {target : String} (h : Leads fs here (targetParts target) k x) :
    ∃ j, Leads fs here (Path.split target) j x := by
  rw [targetParts] at h
  obtain ⟨i, y, j, ha, hb⟩ := h.split
  have he : y = x := by
    split at hb
    · cases hb with
      | skip _ h => exact (h.unique .nil).2.symm
      | up hn _ => simp at hn
      | plain hn _ _ => simp [PlainName] at hn
      | link hn _ _ _ => simp [PlainName] at hn
    · exact (hb.unique .nil).2.symm
  subst he
  exact ⟨i, ha.of_filter⟩

theorem Leads.plainName (h : Leads fs here names k x)
    (hhere : ∀ name ∈ here.names, PlainName name) : ∀ name ∈ x.names, PlainName name := by
  induction h with
  | nil => exact hhere
  | skip _ _ ih => exact ih hhere
  | @up here x name rest k _ _ ih =>
    apply ih
    obtain ⟨start, names⟩ := here
    intro name hname
    cases start with
    | root => exact hhere name (List.dropLast_subset _ hname)
    | working above =>
      cases names with
      | nil => cases hname
      | cons a names => exact hhere name (List.dropLast_subset _ hname)
  | plain hn _ _ ih =>
    apply ih
    intro name hname
    rcases List.mem_append.mp hname with hname | hname
    · exact hhere name hname
    · rwa [List.mem_singleton.mp hname]
  | link _ _ _ _ iht ih =>
    apply ih
    apply iht
    intro name hname
    rw [Waypoint.towards] at hname
    split at hname
    · cases hname
    · exact hhere name hname

/-- No link stands at or above the location that names lead to. -/
theorem Leads.not_link (h : Leads fs here names k x)
    (hhere : ∀ above, above <+: fs.locate here → ∀ target, fs.get? above ≠ some (.link target)) :
    ∀ above, above <+: fs.locate x → ∀ target, fs.get? above ≠ some (.link target) := by
  induction h with
  | nil => exact hhere
  | skip _ _ ih => exact ih hhere
  | @up here x name rest k _ _ ih =>
    apply ih
    intro above habove
    rw [locate_ascend] at habove
    exact hhere above (habove.trans (List.dropLast_prefix _))
  | plain _ he _ ih =>
    apply ih
    intro above habove
    rw [locate_extend] at habove he
    rcases List.prefix_concat_iff.mp habove with rfl | habove
    · exact he
    · exact hhere above habove
  | link _ _ _ _ iht ih =>
    apply ih
    apply iht
    intro above habove target
    rw [locate_towards, linkBase] at habove
    split at habove
    · rw [List.prefix_nil.mp habove, fs.get?_root]
      simp
    · exact hhere above habove target

/-! ## Links that are overlooked -/

/-- Where all links are replaced, none is overlooked. -/
theorem Leads.not_overlooks (h : Leads fs here names k x) : ¬ Overlooks fs here names := by
  induction h with
  | nil => nofun
  | skip hn _ ih =>
    intro ho
    cases ho with
    | skip _ ho => exact ih ho
    | up hn' _ => simp [hn'] at hn
    | here hn' _ _ | plain hn' _ _ | inside hn' _ _ | beyond hn' _ _ _ => exact hn'.1 hn
  | up hn _ ih =>
    intro ho
    cases ho with
    | skip hn' _ => simp [hn] at hn'
    | up _ ho => exact ih ho
    | here hn' _ _ | plain hn' _ _ | inside hn' _ _ | beyond hn' _ _ _ => exact hn'.2 hn
  | plain hn he _ ih =>
    intro ho
    cases ho with
    | skip hn' _ => exact hn.1 hn'
    | up hn' _ => exact hn.2 hn'
    | here _ he' _ => exact he _ he'
    | plain _ _ ho => exact ih ho
    | inside _ he' _ | beyond _ he' _ _ => exact he _ (targetAt?_eq_some_iff.mp he').2
  | link hn he ht _ iht ih =>
    intro ho
    cases ho with
    | skip hn' _ => exact hn.1 hn'
    | up hn' _ => exact hn.2 hn'
    | here _ _ hlong => exact absurd hlong (Nat.not_lt.mpr (targetAt?_eq_some_iff.mp he).1)
    | plain _ he' _ => exact he' _ (targetAt?_eq_some_iff.mp he).2
    | inside _ he' ho =>
      obtain rfl := Option.some.inj (he.symm.trans he')
      exact iht ho
    | beyond _ he' ht' ho =>
      obtain rfl := Option.some.inj (he.symm.trans he')
      obtain rfl := (ht.unique ht').2
      exact ih ho

theorem Overlooks.split {as bs : List String} (h : Overlooks fs here (as ++ bs)) :
    Overlooks fs here as ∨ ∃ k y, Leads fs here as k y ∧ Overlooks fs y bs := by
  induction as generalizing here with
  | nil => exact Or.inr ⟨0, here, .nil, h⟩
  | cons name as ih =>
    cases h with
    | here hn he hlong => exact Or.inl (.here hn he hlong)
    | skip hn h =>
      rcases ih h with h | ⟨k, y, ha, hb⟩
      · exact Or.inl (.skip hn h)
      · exact Or.inr ⟨k, y, .skip hn ha, hb⟩
    | up hn h =>
      rcases ih h with h | ⟨k, y, ha, hb⟩
      · exact Or.inl (.up hn h)
      · exact Or.inr ⟨k, y, .up hn ha, hb⟩
    | plain hn he h =>
      rcases ih h with h | ⟨k, y, ha, hb⟩
      · exact Or.inl (.plain hn he h)
      · exact Or.inr ⟨k, y, .plain hn he ha, hb⟩
    | inside hn he h => exact Or.inl (.inside hn he h)
    | beyond hn he ht h =>
      rcases ih h with h | ⟨k, y, ha, hb⟩
      · exact Or.inl (.beyond hn he ht h)
      · exact Or.inr ⟨_, y, .link hn he ht ha, hb⟩

theorem Overlooks.of_filter (h : Overlooks fs here (names.filter (· ≠ ""))) :
    Overlooks fs here names := by
  induction names generalizing here with
  | nil => exact h
  | cons name rest ih =>
    by_cases hname : name = ""
    · rw [List.filter_cons_of_neg (by simp [hname])] at h
      exact .skip (Or.inl hname) (ih h)
    · rw [List.filter_cons_of_pos (by simp [hname])] at h
      cases h with
      | here hn he hlong => exact .here hn he hlong
      | skip hn h => exact .skip hn (ih h)
      | up hn h => exact .up hn (ih h)
      | plain hn he h => exact .plain hn he (ih h)
      | inside hn he h => exact .inside hn he h
      | beyond hn he ht h => exact .beyond hn he ht (ih h)

/-- What is overlooked among the parts of a target, is among the pieces of its text. -/
theorem Overlooks.of_targetParts {target : String} (h : Overlooks fs here (targetParts target)) :
    Overlooks fs here (Path.split target) := by
  rw [targetParts] at h
  rcases h.split with h | ⟨k, y, _, h⟩
  · exact h.of_filter
  · split at h
    · cases h with
      | here hn _ _ => simp [PlainName] at hn
      | skip _ h => cases h
      | up hn _ => simp at hn
      | plain hn _ _ => simp [PlainName] at hn
      | inside hn _ _ => simp [PlainName] at hn
      | beyond hn _ _ _ => simp [PlainName] at hn
    · cases h

end Leads

/-- A lookup that succeeds ends where the names lead to, unless a link is overlooked. -/
theorem Walked.leads {fs : FileSystem} {writing : Bool} {n : Nat} {here : Location}
    {names : List String} {place : Place} (h : Walked fs writing n here names place) {w : Waypoint}
    (hw : fs.locate w = here) (hseen : ¬ fs.Overlooks w names) :
    ∃ k x, Leads fs w names k x ∧ fs.locate x = place.location := by
  induction h generalizing w with
  | done => exact ⟨0, w, .nil, hw⟩
  | skip hn _ ih =>
    obtain ⟨k, x, hk, hx⟩ := ih hw fun h => hseen (.skip hn h)
    exact ⟨k, x, .skip hn hk, hx⟩
  | up hn _ ih =>
    obtain ⟨k, x, hk, hx⟩ := ih (by rw [locate_ascend, hw]) fun h => hseen (.up hn h)
    exact ⟨k, x, .up hn hk, hx⟩
  | @vacant n here name hn hget =>
    have hloc : fs.locate (w.extend name) = here ++ [name] := by rw [locate_extend, hw]
    exact ⟨0, _, .plain hn.plain (by simp [hloc, hget]) .nil, hloc⟩
  | @file n here name mode bytes hn hget =>
    have hloc : fs.locate (w.extend name) = here ++ [name] := by rw [locate_extend, hw]
    exact ⟨0, _, .plain hn.plain (by simp [hloc, hget]) .nil, hloc⟩
  | @directory n here name rest place hn hget _ ih =>
    have hloc : fs.locate (w.extend name) = here ++ [name] := by rw [locate_extend, hw]
    have hnot : ∀ target, fs.get? (fs.locate (w.extend name)) ≠ some (.link target) := by
      simp [hloc, hget]
    obtain ⟨k, x, hk, hx⟩ := ih hloc fun h => hseen (.plain hn.plain hnot h)
    exact ⟨k, x, .plain hn.plain hnot hk, hx⟩
  | @link n here name target rest place hn hget _ ih =>
    have hlink : fs.get? (fs.locate (w.extend name)) = some (.link target) := by
      rw [locate_extend, hw, hget]
    have hshort : byteCount (w.extend name).path.text ≤ maxPathBytes :=
      Nat.le_of_not_lt fun hlong => hseen (.here hn.plain hlink hlong)
    have ht := targetAt?_eq_some_iff.mpr ⟨hshort, hlink⟩
    have hinside : ¬ fs.Overlooks (w.towards target) (targetParts target ++ rest) := by
      intro h
      rcases h.split with h | ⟨k, y, hk, h⟩
      · exact hseen (.inside hn.plain ht h.of_targetParts)
      · obtain ⟨j, hj⟩ := hk.of_targetParts
        exact hseen (.beyond hn.plain ht hj h)
    -- The names after the link wait behind its target, so what leads there is cut in two.
    obtain ⟨k, x, hk, hx⟩ := ih (by rw [locate_towards, hw]) hinside
    obtain ⟨i, y, j, ha, hb⟩ := hk.split
    obtain ⟨m, hm⟩ := ha.of_targetParts
    exact ⟨m + 1 + j, x, .link hn.plain ht hm hb, hx⟩

/-! ## Nested links -/

section Bound

variable {fs : FileSystem}

theorem mem_of_lookup {loc : Location} {e : Entry} {es : List (Location × Entry)}
    (h : es.lookup loc = some e) : (loc, e) ∈ es := by
  induction es with
  | nil => simp at h
  | cons a es ih =>
    rw [List.lookup_cons] at h
    split at h
    · rename_i heq
      rw [beq_iff_eq] at heq
      rw [heq, ← Option.some.inj h]
      exact List.mem_cons_self ..
    · exact List.mem_cons_of_mem _ (ih h)

/-- A file system is sound if the entries it lists stand in directories. -/
theorem sound_of_forall (hplain : ∀ name ∈ fs.workingDirectory, PlainName name)
    (hworking : fs.get? fs.workingDirectory = some .directory)
    (hparent : ∀ x ∈ fs.entries, fs.get? x.1.dropLast = some .directory) : fs.Sound where
  plain := hplain
  working := hworking
  parent := by
    intro loc e h
    rw [get?] at h
    split at h
    · rename_i hroot
      rw [hroot]
      exact fs.get?_root
    · exact hparent _ (mem_of_lookup h)

def linkLocations (fs : FileSystem) : List Location :=
  (fs.entries.filter fun x => match x.2 with
    | .link _ => true
    | _ => false).map Prod.fst

theorem length_linkLocations (fs : FileSystem) : fs.linkLocations.length = fs.linkCount := by
  rw [linkLocations, List.length_map, linkCount]
  exact List.countP_eq_length_filter.symm

theorem mem_linkLocations {loc : Location} {target : String}
    (h : fs.get? loc = some (.link target)) : loc ∈ fs.linkLocations := by
  rw [get?] at h
  split at h
  · cases h
  · exact List.mem_map.mpr ⟨_, List.mem_filter.mpr ⟨mem_of_lookup h, rfl⟩, rfl⟩

def startNumber : Start → Nat
  | .root => 0
  | .working above => above + 1

theorem byteCount_join_ups (above : Nat) (names : List String) :
    above ≤ byteCount (Path.join (List.replicate above ".." ++ names)) := by
  induction above with
  | zero => exact Nat.zero_le _
  | succ above ih =>
    have hup : byteCount ".." = 2 := by decide
    rw [List.replicate_succ, List.cons_append]
    cases hrest : List.replicate above ".." ++ names with
    | nil =>
      have habove : above = 0 := by simpa using (List.append_eq_nil_iff.mp hrest).1
      rw [habove, Path.join, String.intercalate_singleton, hup]
      omega
    | cons name rest =>
      rw [hrest] at ih
      have hjoin : Path.join (".." :: name :: rest) = ".." ++ "/" ++ Path.join (name :: rest) :=
        String.intercalate_cons_cons
      rw [hjoin, byteCount_append, byteCount_append, hup]
      omega

theorem startNumber_le {w : Waypoint} (h : byteCount w.path.text ≤ maxPathBytes) :
    startNumber w.start ≤ maxPathBytes + 1 := by
  obtain ⟨start, names⟩ := w
  cases start with
  | root => exact Nat.zero_le _
  | working above =>
    have hups := byteCount_join_ups above names
    have htext : byteCount (Waypoint.mk (.working above) names).path.text =
        if List.replicate above ".." ++ names = [] then 1
        else byteCount (Path.join (List.replicate above ".." ++ names)) := by
      rw [Path.byteCount_text]
      simp [Waypoint.path, Anchor.text, show byteCount "" = 0 from rfl]
    rw [htext] at h
    split at h
    · rename_i hnil
      have habove : above = 0 := by simpa using (List.append_eq_nil_iff.mp hnil).1
      simp [startNumber, habove, maxPathBytes]
    · simp only [startNumber]
      omega

/-- Every link has one path from each start that the length of a path allows. -/
theorem length_le_of_links {ws : List Waypoint} (hnodup : ws.Nodup)
    (hlink : ∀ w ∈ ws, ∃ target, fs.targetAt? w = some target) :
    ws.length < fs.expansionBound := by
  let key : Waypoint → Nat × Location := fun w => (startNumber w.start, fs.locate w)
  have hinj : Function.Injective key := by
    rintro ⟨start, names⟩ ⟨start', names'⟩ h
    obtain ⟨hnumber, hloc⟩ := Prod.mk.inj h
    obtain rfl : start = start' := by cases start <;> cases start' <;> simp_all [startNumber]
    obtain rfl : names = names' := List.append_cancel_left hloc
    rfl
  have hsub : ws.map key ⊆ List.range (maxPathBytes + 2) ×ˢ fs.linkLocations := by
    intro x hx
    obtain ⟨w, hw, rfl⟩ := List.mem_map.mp hx
    obtain ⟨target, ht⟩ := hlink w hw
    obtain ⟨hshort, hget⟩ := targetAt?_eq_some_iff.mp ht
    exact List.mem_product.mpr ⟨List.mem_range.mpr (Nat.lt_succ_of_le (startNumber_le hshort)),
      mem_linkLocations hget⟩
  have hlen := (List.subperm_of_subset (List.Nodup.map hinj hnodup) hsub).length_le
  rw [List.length_map, List.length_product, List.length_range, length_linkLocations] at hlen
  exact Nat.lt_succ_of_le hlen

end Bound

/-! ## Resolving -/

section Expand

variable {fs : FileSystem} {here x : Waypoint} {names : List String} {k : Nat}

/-- A link whose target has at least `k` links to be replaced. -/
def Busy (fs : FileSystem) (k : Nat) (w : Waypoint) : Prop :=
  ∃ (parent : Waypoint) (name target : String) (j : Nat) (y : Waypoint),
    w = parent.extend name ∧ fs.targetAt? w = some target ∧
      Leads fs (parent.towards target) (Path.split target) j y ∧ k ≤ j

theorem Busy.mono {w : Waypoint} {j : Nat} (h : Busy fs k w) (hj : j ≤ k) : Busy fs j w := by
  obtain ⟨parent, name, target, m, y, hw, ht, hl, hk⟩ := h
  exact ⟨parent, name, target, m, y, hw, ht, hl, Nat.le_trans hj hk⟩

theorem exists_succ_of_links {n : Nat} {busy : List Waypoint} (hnodup : busy.Nodup)
    (hlink : ∀ w ∈ busy, ∃ target, fs.targetAt? w = some target)
    (hn : fs.expansionBound ≤ n + busy.length) : ∃ m, n = m + 1 := by
  have hlen := length_le_of_links hnodup hlink
  exact ⟨n - 1, by omega⟩

/-- A link is not met inside its own target: that would take more links than it takes. -/
theorem not_mem_busy {busy : List Waypoint} {name target : String} {y : Waypoint} {j : Nat}
    (he : fs.targetAt? (here.extend name) = some target)
    (ht : Leads fs (here.towards target) (Path.split target) j y)
    (hbusy : ∀ w ∈ busy, Busy fs (j + 1 + k) w) : here.extend name ∉ busy := by
  intro hmem
  obtain ⟨parent, name', target', j', y', hw, ht', hl, hk⟩ := hbusy _ hmem
  obtain ⟨rfl, rfl⟩ := Waypoint.extend_inj hw
  obtain rfl : target = target' := Option.some.inj (he.symm.trans ht')
  have hj := (ht.unique hl).1
  omega

section Step

variable {n : Nat} {busy : List Waypoint} {name : String} {rest : List String}

theorem expand_skip (hname : name = "" ∨ name = ".") :
    fs.expand (n + 1) busy here (name :: rest) = fs.expand (n + 1) busy here rest := by
  rw [expand, expandWith, if_pos hname, ← expand]

theorem expand_up (hname : name = "..") :
    fs.expand (n + 1) busy here (name :: rest) = fs.expand (n + 1) busy here.ascend rest := by
  have hskip : ¬ (name = "" ∨ name = ".") := by simp [hname]
  rw [expand, expandWith, if_neg hskip, if_pos hname, ← expand]

/-- A name behind which no link is seen is kept. -/
theorem expand_plain (hname : PlainName name) (he : fs.targetAt? (here.extend name) = none) :
    fs.expand (n + 1) busy here (name :: rest) =
      fs.expand (n + 1) busy (here.extend name) rest := by
  rw [expand, expandWith, if_neg hname.1, if_neg hname.2, he, ← expand]

theorem expand_link {target : String} (hname : PlainName name)
    (he : fs.targetAt? (here.extend name) = some target) (hnot : here.extend name ∉ busy)
    (ht : fs.expand n (here.extend name :: busy) (here.towards target) (Path.split target) =
      .reached x) :
    fs.expand (n + 1) busy here (name :: rest) = fs.expand (n + 1) busy x rest := by
  rw [expand, expandWith, if_neg hname.1, if_neg hname.2, he]
  simp only [if_neg hnot, ht]
  rw [← expand]

end Step

/-- Names that lead somewhere expand to that path, whatever links they are in. -/
theorem expand_of_leads {n : Nat} {busy : List Waypoint} (h : Leads fs here names k x)
    (hnodup : busy.Nodup) (hbusy : ∀ w ∈ busy, Busy fs k w)
    (hn : fs.expansionBound ≤ n + busy.length) : fs.expand n busy here names = .reached x := by
  have hsucc : ∀ {n k} {busy : List Waypoint}, busy.Nodup → (∀ w ∈ busy, Busy fs k w) →
      fs.expansionBound ≤ n + busy.length → ∃ m, n = m + 1 := by
    intro n k busy hnodup hbusy hn
    refine exists_succ_of_links hnodup (fun w hw => ?_) hn
    obtain ⟨_, _, target, _, _, _, ht, _⟩ := hbusy w hw
    exact ⟨target, ht⟩
  induction h generalizing n busy with
  | nil =>
    obtain ⟨m, rfl⟩ := hsucc hnodup hbusy hn
    rw [expand, expandWith]
  | skip hname _ ih =>
    obtain ⟨m, rfl⟩ := hsucc hnodup hbusy hn
    rw [expand_skip hname]
    exact ih hnodup hbusy hn
  | up hname _ ih =>
    obtain ⟨m, rfl⟩ := hsucc hnodup hbusy hn
    rw [expand_up hname]
    exact ih hnodup hbusy hn
  | plain hname he _ ih =>
    obtain ⟨m, rfl⟩ := hsucc hnodup hbusy hn
    rw [expand_plain hname (targetAt?_eq_none he)]
    exact ih hnodup hbusy hn
  | @link here x y name target rest j k hname he ht _ iht ih =>
    obtain ⟨m, rfl⟩ := hsucc hnodup hbusy hn
    have hnot : here.extend name ∉ busy := not_mem_busy he ht hbusy
    have hinner : ∀ w ∈ here.extend name :: busy, Busy fs j w := by
      intro w hw
      rcases List.mem_cons.mp hw with rfl | hw
      · exact ⟨here, name, target, j, y, rfl, he, ht, Nat.le_refl j⟩
      · exact (hbusy w hw).mono (by omega)
    have htarget : fs.expand m (here.extend name :: busy) (here.towards target)
        (Path.split target) = .reached y :=
      iht (List.nodup_cons.mpr ⟨hnot, hnodup⟩) hinner (by rw [List.length_cons]; omega)
    rw [expand_link hname he hnot htarget]
    exact ih hnodup (fun w hw => (hbusy w hw).mono (by omega)) hn

/-- The bound on the nesting is never reached: with a greater one the result is the same. -/
theorem expand_bound {n : Nat} {busy : List Waypoint} (hnodup : busy.Nodup)
    (hlink : ∀ w ∈ busy, ∃ target, fs.targetAt? w = some target)
    (hn : fs.expansionBound ≤ n + busy.length) (here : Waypoint) (names : List String) :
    fs.expand (n + 1) busy here names = fs.expand n busy here names := by
  induction n generalizing busy here names with
  | zero =>
    obtain ⟨m, hm⟩ := exists_succ_of_links hnodup hlink hn
    cases hm
  | succ n ih =>
    rw [expand, expand]
    induction names generalizing here with
    | nil => rw [expandWith, expandWith]
    | cons name rest ihnames =>
      rw [expandWith, expandWith]
      simp only [ihnames]
      split
      · rfl
      split
      · rfl
      cases ht : fs.targetAt? (here.extend name) with
      | none => rfl
      | some target =>
        by_cases hnot : here.extend name ∈ busy
        · simp only [if_pos hnot]
        · simp only [if_neg hnot]
          rw [ih (List.nodup_cons.mpr ⟨hnot, hnodup⟩)
            (List.forall_mem_cons.mpr ⟨⟨target, ht⟩, hlink⟩) (by rw [List.length_cons]; omega)]

end Expand

/-! ## Absolute paths -/

theorem tidy_of_plain {loc names : List String} (h : ∀ name ∈ names, PlainName name) :
    tidy loc names = loc ++ names := by
  induction names generalizing loc with
  | nil => simp [tidy]
  | cons name names ih =>
    obtain ⟨hskip, hup⟩ := h name (List.mem_cons_self ..)
    have hrest := @ih (loc ++ [name]) fun n hn => h n (List.mem_cons_of_mem _ hn)
    rw [tidy, List.foldl_cons, if_neg hskip, if_neg hup, ← tidy, hrest]
    simp

theorem tidy_ups (loc : Location) (above : Nat) :
    tidy loc (List.replicate above "..") = loc.take (loc.length - above) := by
  induction above generalizing loc with
  | zero => simp [tidy]
  | succ above ih =>
    have hrest := ih loc.dropLast
    rw [List.replicate_succ, tidy, List.foldl_cons, if_neg (by decide), if_pos rfl, ← tidy, hrest,
      List.dropLast_eq_take, List.take_take, List.length_take]
    congr 1
    omega

theorem absolute_path {fs : FileSystem} {w : Waypoint} (h : ∀ name ∈ w.names, PlainName name) :
    fs.absolute w.path = Location.path (fs.locate w) := by
  obtain ⟨start, names⟩ := w
  cases start with
  | root => exact congrArg (Path.mk .root) (tidy_of_plain h)
  | working above =>
    have htidy : tidy fs.workingDirectory (List.replicate above ".." ++ names) =
        tidy (tidy fs.workingDirectory (List.replicate above "..")) names := List.foldl_append
    rw [tidy_ups, tidy_of_plain h] at htidy
    exact congrArg (Path.mk .root) htidy

section Resolve

variable {fs : FileSystem} {p : Path} {k : Nat} {x : Waypoint}

theorem locate_startOf (fs : FileSystem) (p : Path) : fs.locate (startOf p) = fs.base p := by
  obtain ⟨anchor, parts⟩ := p
  cases anchor <;> simp [startOf, base, locate, locateStart]

theorem names_startOf (p : Path) : (startOf p).names = [] := by
  rw [startOf]
  split <;> rfl

theorem plainName_of_leads (hleads : Leads fs (startOf p) p.parts k x) :
    ∀ name ∈ x.names, PlainName name :=
  hleads.plainName (by simp [names_startOf])

theorem plainName_locate (hs : fs.Sound) (hleads : Leads fs (startOf p) p.parts k x) :
    ∀ name ∈ fs.locate x, PlainName name := by
  intro name hname
  rcases List.mem_append.mp hname with hname | hname
  · obtain ⟨start, names⟩ := x
    cases start with
    | root => cases hname
    | working above => exact hs.plain name (List.mem_of_mem_take hname)
  · exact plainName_of_leads hleads name hname

theorem unlinked_of_leads (hs : fs.Sound) (hleads : Leads fs (startOf p) p.parts k x) :
    fs.Unlinked [] (fs.locate x) := by
  apply hleads.not_link
  intro above habove target
  rw [locate_startOf] at habove
  rw [hs.above (hs.base p) habove]
  simp

/-- Where replacing links ends at a path without any, resolving ends there. -/
theorem resolve_of_expand
    (hexpand : fs.expand fs.expansionBound [] (startOf p) p.parts = .reached x)
    (hnames : ∀ name ∈ x.names, PlainName name) (hplain : ∀ name ∈ fs.locate x, PlainName name)
    (hlink : fs.Unlinked [] (fs.locate x)) :
    fs.resolve p = .ok (Location.path (fs.locate x)) := by
  have habsolute : fs.absolute (Expansion.reached x).path = Location.path (fs.locate x) :=
    absolute_path hnames
  have hloop : fs.place (Location.path (fs.locate x)) ≠ .error .linkLoop := by
    rw [place, follow]
    split
    · simp
    · exact walk_ne_linkLoop hplain hlink
  -- No link is left, so the last check of the result finds no loop.
  rw [resolve, hexpand, habsolute]
  split
  · contradiction
  · rfl

/-- Where the names of a path lead somewhere, resolving leads there. -/
theorem resolve_of_leads (hs : fs.Sound) (hleads : Leads fs (startOf p) p.parts k x) :
    fs.resolve p = .ok (Location.path (fs.locate x)) :=
  resolve_of_expand (expand_of_leads hleads List.nodup_nil (by simp) (Nat.le_refl _))
    (plainName_of_leads hleads) (plainName_locate hs hleads) (unlinked_of_leads hs hleads)

end Resolve

end FileSystem

end ClassOutline
