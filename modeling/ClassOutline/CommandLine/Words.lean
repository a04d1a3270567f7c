import ClassOutline.Text.Digit

/-!
# Words of a command line

How the words of a command line are told apart and read, for any set of options. An option's name
may be shortened as long as it stays unambiguous, its value is the next word or follows an equals
sign, and `--` ends the options. Words are told apart before any of them is acted upon; they are
then acted upon from left to right, so a request for help wins over every mistake that only shows
later.
-/

namespace ClassOutline.CommandLine

inductive Stop where
  | help
  | usage
  deriving DecidableEq, Repr

def Stop.exitCode : Stop → Nat
  | help => 0
  | usage => 2

structure OptionSpec where
  name : String
  takesValue : Bool
  accepts : String → Bool := fun _ => true
  /-- Names of options that must not come before this one. -/
  excludes : List String := []

structure CommandSpec where
  options : List OptionSpec
  operands : Nat
  /-- Names of which at least one has to be given, if there are any. -/
  oneOf : List String := []

/-! ## Telling words apart -/

inductive Word where
  | operand (text : String)
  | divider
  /-- A request for help; `proper` says whether it is free of a value. -/
  | help (proper : Bool)
  /-- An option, with the value after an equals sign. -/
  | option (spec : OptionSpec) (value : Option String)
  | unknown

/-- Whether the characters after `-h` leave a request for help. More short options may follow, but
`h` is the only one that is known, and none of them takes a value. -/
def helpTail : List Char → Bool
  | [] => true
  | 'h' :: cs => helpTail cs
  | c :: _ => c ≠ '=' && c ≠ '-'

def splitValue (cs : List Char) : List Char × Option (List Char) :=
  match cs.dropWhile (· ≠ '=') with
  | [] => (cs, none)
  | _ :: value => (cs.takeWhile (· ≠ '='), some value)

def helpName : String := "--help"

/-- The full names that a possibly shortened name stands for. -/
def fullNames (options : List OptionSpec) (name : List Char) : List String :=
  let names := helpName :: options.map (·.name)
  if String.ofList name ∈ names then [String.ofList name]
  else names.filter fun full => name.isPrefixOf full.toList

/-- A word that is no known option: a negative number or a text with a space is an operand. -/
def classifyOther (text : String) : Word :=
  if Digit.isNegativeNumber text || text.toList.contains ' ' then .operand text else .unknown

/-- Tells a word that starts with two dashes from its name. -/
def classifyLong (options : List OptionSpec) (text : String) : Except Stop Word :=
  let (name, value) := splitValue text.toList
  match fullNames options name with
  | [] => .ok (classifyOther text)
  | [full] =>
    match options.find? (·.name = full) with
    | some spec => .ok (.option spec (value.map String.ofList))
    | none => .ok (.help value.isNone)
  | _ => .error .usage

/-- Tells what a word is. A shortened name that stands for several options is an error. -/
def classify (options : List OptionSpec) (text : String) : Except Stop Word :=
  match text.toList with
  | '-' :: '-' :: _ => classifyLong options text
  | '-' :: 'h' :: tail => .ok (.help (helpTail tail))
  | '-' :: _ :: _ => .ok (classifyOther text)
  | _ => .ok (.operand text)

/-- Tells all words apart; after the divider every word is an operand. -/
def classifyAll (options : List OptionSpec) : List String → Except Stop (List Word)
  | [] => .ok []
  | text :: rest =>
    if text = "--" then .ok (.divider :: rest.map .operand)
    else
      match classify options text with
      | .error s => .error s
      | .ok word =>
        match classifyAll options rest with
        | .error s => .error s
        | .ok words => .ok (word :: words)

/-! ## Acting upon words -/

/-- What has been read so far. -/
structure Reading where
  /-- An operand that is written like the divider counts as given, but its text is lost, unless it
  comes right after the divider and that belongs to no operand before. -/
  operands : List (Option String)
  given : List (String × Option String)
  surplus : Bool
  deriving DecidableEq, Repr

namespace Reading

def start : Reading :=
  ⟨[], [], false⟩

def has (r : Reading) (name : String) : Bool :=
  r.given.any (·.1 = name)

def values (r : Reading) (name : String) : List String :=
  r.given.filterMap fun g => if g.1 = name then g.2 else none

def value? (r : Reading) (name : String) : Option String :=
  (r.values name).getLast?

/-- Notes an option, unless its value is not accepted or it excludes an earlier one. -/
def give (r : Reading) (spec : OptionSpec) (value : Option String) : Except Stop Reading :=
  if value.any (!spec.accepts ·) || spec.excludes.any r.has then .error .usage
  else .ok { r with given := r.given ++ [(spec.name, value)] }

def waste (r : Reading) : Reading :=
  { r with surplus := true }

end Reading

/-- Acts upon words. Operands fill the places that the command has for them. The divider belongs to
an operand right before it (`afterOperand`) or right after it. -/
def readWords (spec : CommandSpec) (r : Reading) (afterOperand : Bool) :
    List Word → Except Stop Reading
  | [] => .ok r
  | .operand text :: rest =>
    if r.operands.length < spec.operands then
      let operand := if text = "--" then none else some text
      readWords spec { r with operands := r.operands ++ [operand] } true rest
    else readWords spec r.waste false rest
  | .divider :: rest =>
    if afterOperand then readWords spec r false rest
    else
      match rest with
      | .operand text :: rest =>
        if r.operands.length < spec.operands then
          readWords spec { r with operands := r.operands ++ [some text] } true rest
        else readWords spec r.waste false rest
      | rest => readWords spec r.waste false rest
  | .help proper :: _ => if proper then .error .help else .error .usage
  | .unknown :: rest => readWords spec r.waste false rest
  | .option o (some value) :: rest =>
    if o.takesValue then
      match r.give o (some value) with
      | .error s => .error s
      | .ok r => readWords spec r false rest
    else .error .usage
  | .option o none :: rest =>
    if o.takesValue then
      match rest with
      | .operand value :: rest =>
        match r.give o (some value) with
        | .error s => .error s
        | .ok r => readWords spec r false rest
      | _ => .error .usage
    else
      match r.give o none with
      | .error s => .error s
      | .ok r => readWords spec r false rest

/-- Reads the words after a command's name. Unused words are left to the caller. -/
def readCommand (spec : CommandSpec) (texts : List String) : Except Stop Reading :=
  match classifyAll spec.options texts with
  | .error s => .error s
  | .ok words =>
    match readWords spec Reading.start false words with
    | .error s => .error s
    | .ok r =>
      if r.operands.length < spec.operands ||
          (!spec.oneOf.isEmpty && !spec.oneOf.any r.has) then .error .usage
      else .ok r

end ClassOutline.CommandLine
