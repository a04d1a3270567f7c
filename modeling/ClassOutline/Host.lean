import ClassOutline.Failure

/-!
# The host of a run

What a run needs besides files: a console that shows texts on the error output, and workers. Both
belong to others and can refuse; a refusal is a failure of the run. A text for the console carries
marks of style in brackets, and whatever else it has in brackets the console takes for marks too.
-/

namespace ClassOutline

/-- Something that a run shows. -/
inductive Shown where
  | line (text : String)
  | panel (title content : String)
  | status (text : String)
  /-- A bar, with the descriptions that it gets one after the other. -/
  | progress (descriptions : List String)
  deriving DecidableEq, Repr

structure Host where
  /-- The text that is seen, or why nothing can be shown. -/
  render : Shown → Except String String
  /-- Starts a pool of so many workers, or says why it cannot be had. -/
  workers : Int → Except String Unit

/-- Most workers that a pool can count. -/
def maxWorkers : Int := 2147483646

namespace Host

def display (host : Host) (shown : Shown) : Except Failure String :=
  (host.render shown).mapError .notShown

def displayAll (host : Host) (shown : List Shown) : Except Failure String :=
  (shown.mapM host.display).map String.join

def start (host : Host) (jobs : Int) : Except Failure Unit :=
  if maxWorkers < jobs then .error (.noWorkers "Python int too large to convert to C int")
  else (host.workers jobs).mapError .noWorkers

def marks : List String :=
  ["[red]", "[/red]", "[green]", "[/green]", "[yellow]", "[/yellow]", "[dim]", "[/dim]"]

/-- A host that shows lines without these marks and nothing else, and has workers. -/
def plain : Host where
  render
    | .line text => .ok (marks.foldl (fun text mark => text.replace mark "") text ++ "\n")
    | _ => .ok ""
  workers _ := .ok ()

end Host

end ClassOutline
