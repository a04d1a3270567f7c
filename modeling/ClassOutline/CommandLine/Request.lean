import ClassOutline.CommandLine.Words
import ClassOutline.Record

/-!
# Requests

The two commands, what words they take, and the requests that words spell.
-/

namespace ClassOutline.CommandLine

structure ScanRequest where
  root : String
  out : Option String
  layout : Record.Layout
  endings : List String
  jobs : Int
  deriving DecidableEq, Repr

structure InjectRequest where
  file : String
  className : Option String
  method : Option String
  methodFile : Option String
  nested : Bool
  out : Option String
  inPlace : Bool
  deriving DecidableEq, Repr

inductive Request where
  | scan (r : ScanRequest)
  | inject (r : InjectRequest)
  deriving DecidableEq, Repr

def scanSpec : CommandSpec where
  options := [
    { name := "--out", takesValue := true },
    { name := "--jsonl", takesValue := false },
    { name := "--ext", takesValue := true },
    { name := "--jobs", takesValue := true, accepts := fun v => (Digit.integer? v).isSome }]
  operands := 1

/-- The words of `inject`. The method text comes from one option of two, and a result that goes to
a file goes to one of two. -/
def injectSpec : CommandSpec where
  options := [
    { name := "--method", takesValue := true, excludes := ["--method-file"] },
    { name := "--method-file", takesValue := true, excludes := ["--method"] },
    { name := "--nested", takesValue := false },
    { name := "--out", takesValue := true, excludes := ["--in-place"] },
    { name := "--in-place", takesValue := false, excludes := ["--out"] }]
  operands := 2
  oneOf := ["--method", "--method-file"]

/-- A value that counts only if it is not empty. -/
def nonEmpty : Option String → Option String
  | some "" => none
  | v => v

def scanRequest (r : Reading) : ScanRequest where
  root := (r.operands.getD 0 none).getD ""
  out := nonEmpty (r.value? "--out")
  layout := if r.has "--jsonl" then .lines else .array
  endings := r.values "--ext"
  jobs := ((r.value? "--jobs").bind Digit.integer?).getD 1

def injectRequest (r : Reading) : InjectRequest where
  file := (r.operands.getD 0 none).getD ""
  className := r.operands.getD 1 none
  method := r.value? "--method"
  methodFile := nonEmpty (r.value? "--method-file")
  nested := r.has "--nested"
  out := nonEmpty (r.value? "--out")
  inPlace := r.has "--in-place"

/-- Reads the words of a command, and whether some of them found no use. -/
def readNamed (name : String) (texts : List String) : Except Stop (Request × Bool) :=
  if name = "scan" then
    (readCommand scanSpec texts).map fun r => (.scan (scanRequest r), r.surplus)
  else if name = "inject" then
    (readCommand injectSpec texts).map fun r => (.inject (injectRequest r), r.surplus)
  else .error .usage

/-- Reads a command line; `surplus` says whether an unknown option came before. The first operand
names the command and takes everything after it. -/
def readRequestFrom (surplus : Bool) : List String → Except Stop Request
  | [] => .error .usage
  | text :: rest =>
    if text = "--" then .error .usage
    else
      match classify [] text with
      | .ok (.operand name) =>
        match readNamed name rest with
        | .error s => .error s
        | .ok (request, unused) => if surplus || unused then .error .usage else .ok request
      | .ok (.help proper) => if proper then .error .help else .error .usage
      | .ok _ => readRequestFrom true rest
      | .error s => .error s

def readRequest (texts : List String) : Except Stop Request :=
  readRequestFrom false texts

end ClassOutline.CommandLine
