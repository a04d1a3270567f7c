import ClassOutline.CommandLine.Request
import ClassOutline.FileInjection
import ClassOutline.Scan

/-!
# Running a command line

From the words of a command line to its exit code, what it prints, and the files it leaves behind.
A failure that is neither a usage error nor a failure of the source at hand ends the run as it is,
and so does a text that the console cannot show.
-/

namespace ClassOutline.CommandLine

inductive Outcome where
  | stopped (s : Stop)
  | finished (code : Nat) (stdout stderr : String)
  | failed (f : Failure)
  deriving DecidableEq, Repr

def errorLine (text : String) : Shown :=
  .line ("[red]Error:[/red] " ++ text)

/-- The end of a run: the last thing is shown, after what was seen before. -/
def finish (host : Host) (code : Nat) (stdout seen : String) (last : Shown) : Outcome :=
  match host.display last with
  | .error e => .failed e
  | .ok text => .finished code stdout (seen ++ text)

/-! ## Scanning -/

def ScanRequest.taken (r : ScanRequest) : List String :=
  if r.endings.isEmpty then defaultEndings else r.endings

def ScanRequest.output (r : ScanRequest) : Option Path :=
  r.out.map Path.ofText

def Record.Layout.word : Record.Layout → String
  | .lines => "JSONL"
  | .array => "JSON"

def scanPanel (root : Path) (r : ScanRequest) : Shown :=
  .panel "[bold blue]java-structure - Scan[/bold blue]"
    ("[cyan]Extracting Java structure[/cyan]\n" ++
      "Source: " ++ root.text ++ "\n" ++
      "Extensions: " ++ ", ".intercalate r.taken ++ "\n" ++
      "Output: " ++ (r.output.map Path.text).getD "stdout" ++ "\n" ++
      "Format: " ++ Record.Layout.word r.layout)

def countLine (count : Nat) : Shown :=
  .line ("[green]✓[/green] Extracted structure from " ++ toString count ++ " file(s)")

def scanRoot (fs : FileSystem) (host : Host) (settings : Settings) (parser : Parser)
    (r : ScanRequest) (root : Path) : Outcome × FileSystem :=
  match host.display (scanPanel root r) with
  | .error e => (.failed e, fs)
  | .ok panel =>
    match fs.runScan host settings parser root r.output r.layout r.taken r.jobs with
    | (.error e, fs) => (.failed e, fs)
    | (.ok report, fs) =>
      (finish host 0 report.printed (panel ++ report.seen) (countLine report.count), fs)

def runScan (fs : FileSystem) (host : Host) (settings : Settings) (parser : Parser)
    (r : ScanRequest) : Outcome × FileSystem :=
  match fs.resolve (Path.ofText r.root) with
  | .error e => (.failed e, fs)
  | .ok root =>
    match fs.find? root with
    | .error e => (.failed (.refused e), fs)
    | .ok (some (_, .directory)) => scanRoot fs host settings parser r root
    | .ok _ => (finish host 2 "" "" (errorLine ("Source root not found: " ++ root.text)), fs)

/-! ## Injecting -/

/-- The method text of a request: that of the method file, if one is named. -/
def methodText (fs : FileSystem) (r : InjectRequest) : Except Failure (Option String) :=
  match r.methodFile with
  | some name => (fs.readSource (Path.ofText name)).map some
  | none => .ok r.method

def destinationOf (r : InjectRequest) : Destination :=
  match r.out with
  | some name => .file (Path.ofText name)
  | none => if r.inPlace then .inPlace else .printed

def deliveryLine (className : Option String) (p : Path) : Shown :=
  .line ("[green]✓[/green] Added method to " ++ className.getD noName ++ "; written to " ++ p.text)

/-- How an injection ends: a failure of the source at hand is reported, any other ends the run. -/
def injectOutcome (host : Host) (className : Option String) : Except Failure Delivery → Outcome
  | .error (.source e) => finish host 1 "" "" (errorLine e.message)
  | .error e => .failed e
  | .ok (.printed text) => .finished 0 text ""
  | .ok (.written p) => finish host 0 "" "" (deliveryLine className p)

def injectAt (fs : FileSystem) (host : Host) (settings : Settings) (parser : Parser)
    (r : InjectRequest) (p : Path) : Outcome × FileSystem :=
  match methodText fs r with
  | .error e => (injectOutcome host r.className (.error e), fs)
  | .ok method =>
    let (result, fs) := fs.runInject settings parser p ⟨r.className, method, r.nested⟩
      (destinationOf r)
    (injectOutcome host r.className result, fs)

def runInject (fs : FileSystem) (host : Host) (settings : Settings) (parser : Parser)
    (r : InjectRequest) : Outcome × FileSystem :=
  match fs.resolve (Path.ofText r.file) with
  | .error e => (.failed e, fs)
  | .ok p =>
    match fs.find? p with
    | .error e => (.failed (.refused e), fs)
    | .ok (some (_, .file _ _)) => injectAt fs host settings parser r p
    | .ok _ => (finish host 2 "" "" (errorLine ("Source file not found: " ++ p.text)), fs)

/-! ## Command lines -/

def runRequest (fs : FileSystem) (host : Host) (settings : Settings) (parser : Parser) :
    Request → Outcome × FileSystem
  | .scan r => runScan fs host settings parser r
  | .inject r => runInject fs host settings parser r

def run (fs : FileSystem) (host : Host) (settings : Settings) (parser : Parser)
    (words : List String) : Outcome × FileSystem :=
  match readRequest words with
  | .error s => (.stopped s, fs)
  | .ok request => runRequest fs host settings parser request

end ClassOutline.CommandLine
