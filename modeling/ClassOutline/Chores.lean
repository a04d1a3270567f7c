import ClassOutline.Failure

/-!
# Development chores

The chores of a project's development, each a command line of another program. Running a chore
prints its command line and starts it; the outcome of each start is an argument here, so that what
is printed, what is started and the exit code are plain functions of the words and the outcomes.
-/

namespace ClassOutline.Chores

inductive Chore where
  | lint
  | format
  | formatCheck
  | typecheck
  | test
  | testCoverage
  | walkthrough
  | fix
  deriving DecidableEq, Repr

def checkedPaths : List String := ["src/", "tests/", "scripts/", "examples/"]

def runner : String := "uv"

def Chore.words : Chore → List String
  | lint => ["run", "ruff", "check"] ++ checkedPaths
  | format => ["run", "ruff", "format"] ++ checkedPaths
  | formatCheck => ["run", "ruff", "format", "--check"] ++ checkedPaths
  | typecheck => ["run", "mypy", "src/java_structure"]
  | test => ["run", "--extra", "test", "pytest", "-v", "tests/"]
  | testCoverage =>
    ["run", "--extra", "test", "pytest", "--cov=java_structure", "--cov-report=html",
      "--cov-report=term"]
  | walkthrough => ["run", "python", "examples/basic_usage.py"]
  | fix => ["run", "ruff", "check", "--fix"] ++ checkedPaths

def Chore.command (c : Chore) : List String :=
  runner :: c.words

inductive Job where
  | single (c : Chore)
  | checkAll
  deriving DecidableEq, Repr

def Job.ofName? : String → Option Job
  | "lint" => some (.single .lint)
  | "format" => some (.single .format)
  | "format-check" => some (.single .formatCheck)
  | "typecheck" => some (.single .typecheck)
  | "test" => some (.single .test)
  | "test-cov" => some (.single .testCoverage)
  | "example" => some (.single .walkthrough)
  | "fix" => some (.single .fix)
  | "check-all" => some .checkAll
  | _ => none

def checks : List (String × Chore) :=
  [("Linting", .lint), ("Format check", .formatCheck), ("Type checking", .typecheck),
    ("Tests", .test)]

/-- What a start of a command comes to: an exit code, or nothing if the program is not there. -/
abbrev Starts := List (Option Int)

/-- The next start; beyond the list every command succeeds. -/
def nextStart : Starts → Option Int × Starts
  | [] => (some 0, [])
  | s :: rest => (s, rest)

inductive Ending where
  | exit (code : Int)
  | notInstalled (e : OsError)
  deriving DecidableEq, Repr

structure Report where
  printed : String
  started : List (List String)
  ending : Ending
  deriving DecidableEq, Repr

def announcement (c : Chore) : String :=
  "Running: " ++ " ".intercalate c.command ++ "\n"

def notThere : OsError :=
  ⟨.notFound, runner, none⟩

def runChore (c : Chore) (starts : Starts) : Report :=
  let ending :=
    match (nextStart starts).1 with
    | some code => .exit code
    | none => .notInstalled notThere
  ⟨announcement c, [c.command], ending⟩

def verdict (failed : List String) : String :=
  if failed.isEmpty then "\n✅ All checks passed!\n"
  else "\n❌ Failed checks: " ++ ", ".intercalate failed ++ "\n"

/-- Runs checks one after the other, whatever they come to; `failed` are the headings of those
that failed before. -/
def runChecks (failed : List String) : List (String × Chore) → Starts → Report
  | [], _ => ⟨verdict failed, [], .exit (if failed.isEmpty then 0 else 1)⟩
  | (heading, c) :: rest, starts =>
    let opening := "\n=== " ++ heading ++ " ===\n" ++ announcement c
    match nextStart starts with
    | (none, _) => ⟨opening, [c.command], .notInstalled notThere⟩
    | (some code, starts) =>
      let failed := if code = 0 then failed else failed ++ [heading]
      let later := runChecks failed rest starts
      ⟨opening ++ later.printed, c.command :: later.started, later.ending⟩

def usage : List String :=
  ["Usage: python scripts/dev.py <command>  (java-structure dev tasks)",
    "Commands:",
    "  lint        - Run ruff linter",
    "  format      - Format code with ruff",
    "  format-check - Check if code is formatted",
    "  typecheck   - Run mypy on src/java_structure",
    "  test        - Run the pytest suite under tests/",
    "  test-cov    - Run tests with java_structure coverage",
    "  example     - Run examples/basic_usage.py",
    "  fix         - Fix linting issues",
    "  check-all   - Run all checks"]

/-- Runs the job that the first word names; further words are ignored. -/
def run (words : List String) (starts : Starts) : Report :=
  match words with
  | [] => ⟨String.join (usage.map (· ++ "\n")), [], .exit 1⟩
  | name :: _ =>
    match Job.ofName? name with
    | none => ⟨"Unknown command: " ++ name ++ "\n", [], .exit 1⟩
    | some (.single c) => runChore c starts
    | some .checkAll => runChecks [] checks starts

end ClassOutline.Chores
