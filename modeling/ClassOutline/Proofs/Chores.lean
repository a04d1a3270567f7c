import ClassOutline.Chores

/-!
# What a run of all checks tells

All checks are started, in order, whatever they come to, unless the program to start is not
there; then the run ends at that start. The exit code is 0 exactly if every check ends with
the code 0, and else the last line names those that did not.
-/

namespace ClassOutline.Chores

def outcomes : Nat → Starts → List (Option Int)
  | 0, _ => []
  | n + 1, starts => (nextStart starts).1 :: outcomes n (nextStart starts).2

def opening (check : String × Chore) : String :=
  "\n=== " ++ check.1 ++ " ===\n" ++ announcement check.2

/-- The headings of the checks that did not end with the code 0. -/
def failures (cs : List (String × Chore)) (codes : List Int) : List String :=
  ((cs.zip codes).filter fun x => x.2 ≠ 0).map fun x => x.1.1

section Checks

variable {cs : List (String × Chore)} {starts : Starts} {codes : List Int} {failed : List String}

theorem failures_cons (check : String × Chore) (code : Int) :
    failed ++ failures (check :: cs) (code :: codes) =
      (if code = 0 then failed else failed ++ [check.1]) ++ failures cs codes := by
  by_cases h : code = 0 <;> simp [failures, h]

/-- What a check adds to a run that goes on after it. -/
theorem runChecks_cons {check : String × Chore} {code : Int}
    (h : (nextStart starts).1 = some code) : runChecks failed (check :: cs) starts =
      let later := runChecks (if code = 0 then failed else failed ++ [check.1]) cs
        (nextStart starts).2
      ⟨opening check ++ later.printed, check.2.command :: later.started, later.ending⟩ := by
  obtain ⟨heading, c⟩ := check
  have hnext : nextStart starts = (some code, (nextStart starts).2) := by rw [← h]
  rw [runChecks, hnext]
  rfl

/-- Where the program is there for every check, all are started, and all are told of. -/
theorem runChecks_of_codes (h : outcomes cs.length starts = codes.map some) :
    runChecks failed cs starts =
      ⟨String.join (cs.map opening) ++ verdict (failed ++ failures cs codes),
        cs.map fun check => check.2.command,
        .exit (if (failed ++ failures cs codes).isEmpty then 0 else 1)⟩ := by
  induction cs generalizing starts codes failed with
  | nil => simp [runChecks, failures]
  | cons check cs ih =>
    rw [List.length_cons, outcomes] at h
    cases codes with
    | nil => cases h
    | cons code codes =>
      obtain ⟨hcode, hrest⟩ := List.cons.inj h
      rw [runChecks_cons hcode, ih hrest, failures_cons, List.map_cons, List.map_cons,
        String.join_cons, String.append_assoc]

/-- Where the program is not there for some check, the run ends with the first of these. -/
theorem runChecks_of_missing {rest : List (Option Int)}
    (h : outcomes cs.length starts = codes.map some ++ none :: rest) :
    runChecks failed cs starts =
      ⟨String.join ((cs.take (codes.length + 1)).map opening),
        (cs.take (codes.length + 1)).map fun check => check.2.command,
        .notInstalled notThere⟩ := by
  induction cs generalizing starts codes failed with
  | nil => cases codes <;> cases h
  | cons check cs ih =>
    rw [List.length_cons, outcomes] at h
    cases codes with
    | nil =>
      obtain ⟨heading, c⟩ := check
      have hnext : nextStart starts = (none, (nextStart starts).2) := by
        rw [← (List.cons.inj h).1]
      rw [runChecks, hnext]
      simp [opening]
    | cons code codes =>
      obtain ⟨hcode, hrest⟩ := List.cons.inj h
      rw [runChecks_cons hcode, ih hrest, List.length_cons, List.take_succ_cons, List.map_cons,
        List.map_cons, String.join_cons]

/-- Starts all come to codes, or some first one finds no program. -/
theorem exists_codes (results : List (Option Int)) :
    (∃ codes : List Int, results = codes.map some) ∨
      ∃ (codes : List Int) (rest : List (Option Int)),
        results = codes.map some ++ none :: rest := by
  induction results with
  | nil => exact Or.inl ⟨[], rfl⟩
  | cons result results ih =>
    cases result with
    | none => exact Or.inr ⟨[], results, rfl⟩
    | some code =>
      rcases ih with ⟨codes, rfl⟩ | ⟨codes, rest, rfl⟩
      · exact Or.inl ⟨code :: codes, rfl⟩
      · exact Or.inr ⟨code :: codes, rest, rfl⟩

theorem failures_eq_nil_iff (h : outcomes cs.length starts = codes.map some) :
    failures cs codes = [] ↔ ∀ code ∈ codes, code = 0 := by
  induction cs generalizing starts codes with
  | nil =>
    cases codes with
    | nil => simp [failures]
    | cons code codes => cases h
  | cons check cs ih =>
    rw [List.length_cons, outcomes] at h
    cases codes with
    | nil => cases h
    | cons code codes =>
      have hcons := @failures_cons cs codes [] check code
      rw [List.nil_append] at hcons
      rw [hcons, List.forall_mem_cons, ← ih (List.cons.inj h).2]
      by_cases hzero : code = 0 <;> simp [hzero]

end Checks

/-- A run of all checks ends with the code 0 exactly if every check does. Otherwise all
checks are started in order and the last line names those that failed, with the code 1; or
the program is not there for some check, and then those up to it are started and no others. -/
theorem run_checkAll (words : List String) (starts : Starts) :
    let report := run ("check-all" :: words) starts
    let results := outcomes checks.length starts
    (report.ending = .exit 0 ↔ ∀ result ∈ results, result = some 0) ∧
    ((∃ codes : List Int, results = codes.map some ∧
        report.started = checks.map (fun check => check.2.command) ∧
        (report.ending = .exit 0 ∨ report.ending = .exit 1) ∧
        ∃ before, report.printed = before ++ verdict (failures checks codes)) ∨
      ∃ (codes : List Int) (rest : List (Option Int)),
        results = codes.map some ++ none :: rest ∧
        report.started =
          (checks.take (codes.length + 1)).map (fun check => check.2.command) ∧
        report.ending = .notInstalled notThere) := by
  intro report results
  have hreport : report = runChecks [] checks starts := rfl
  rcases exists_codes results with ⟨codes, hcodes⟩ | ⟨codes, rest, hmissing⟩
  · rw [hreport, runChecks_of_codes hcodes, List.nil_append]
    refine ⟨?_, Or.inl ⟨codes, hcodes, rfl, ?_, _, rfl⟩⟩
    · rw [hcodes, List.forall_mem_map]
      simp only [Option.some.injEq]
      rw [← failures_eq_nil_iff hcodes]
      cases failures checks codes <;> simp
    · cases failures checks codes with
      | nil => exact Or.inl rfl
      | cons heading rest => exact Or.inr rfl
  · rw [hreport, runChecks_of_missing hmissing]
    refine ⟨⟨nofun, fun hall => ?_⟩, Or.inr ⟨codes, rest, hmissing, rfl, rfl⟩⟩
    have hnone := hall none (by rw [hmissing]; simp)
    cases hnone

/-- Whatever is asked for, only chores are started. Nothing is started exactly if no chore
is named, and then the run fails. -/
theorem run_started (words : List String) (starts : Starts) :
    let report := run words starts
    (∀ command ∈ report.started, ∃ c : Chore, command = c.command) ∧
      (report.started = [] ↔ words.head?.bind Job.ofName? = none) ∧
      (report.started = [] → report.ending = .exit 1) := by
  intro report
  have hchecks : ∀ (failed : List String) (cs : List (String × Chore)) (starts : Starts),
      ∀ command ∈ (runChecks failed cs starts).started, ∃ c : Chore, command = c.command := by
    intro failed cs starts command hcommand
    have htake : ∃ n, (runChecks failed cs starts).started =
        (cs.take n).map fun check => check.2.command := by
      rcases exists_codes (outcomes cs.length starts) with ⟨codes, h⟩ | ⟨codes, rest, h⟩
      · exact ⟨cs.length, by rw [runChecks_of_codes h, List.take_length]⟩
      · exact ⟨_, by rw [runChecks_of_missing h]⟩
    obtain ⟨n, hn⟩ := htake
    rw [hn] at hcommand
    obtain ⟨check, _, rfl⟩ := List.mem_map.mp hcommand
    exact ⟨check.2, rfl⟩
  cases words with
  | nil => exact ⟨by simp [report, run], by simp [report, run], fun _ => rfl⟩
  | cons name words =>
    have hreport : report = run (name :: words) starts := rfl
    rw [hreport, run, List.head?_cons, Option.bind_some]
    cases Job.ofName? name with
    | none => exact ⟨by simp, by simp, fun _ => rfl⟩
    | some job =>
      cases job with
      | single c =>
        exact ⟨fun command h => ⟨c, List.mem_singleton.mp h⟩, by simp [runChore],
          by simp [runChore]⟩
      | checkAll =>
        have hsome : (runChecks [] checks starts).started ≠ [] := by
          rcases exists_codes (outcomes checks.length starts) with ⟨codes, h⟩ | ⟨codes, rest, h⟩
          · rw [runChecks_of_codes h]
            simp [checks]
          · rw [runChecks_of_missing h]
            simp [checks]
        exact ⟨hchecks [] checks starts, by simp [hsome], fun h => absurd h hsome⟩

end ClassOutline.Chores
