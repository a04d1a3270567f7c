import ClassOutline.Syntax.Node
import ClassOutline.Text.Digit
import ClassOutline.Text.Split

/-!
# Tree listings

The text in which an external parser hands over a tree: one line per node, in pre-order, with the
kind, the two offsets, the letters of the flags that are set, the role and the number of children,
separated by single spaces. A dash stands for no flags and for no role.
-/

namespace ClassOutline

def Role.ofName? : String → Option Role
  | "name" => some .name
  | "body" => some .body
  | "parameters" => some .parameters
  | "declarator" => some .declarator
  | _ => none

/-- The label with the flags whose letters are given: `n` named, `e` error, `m` missing, `h` has an
error. -/
def Label.ofFlags (kind : String) (start stop : Nat) (flags : List Char) (role : Option Role) :
    Label :=
  ⟨kind, start, stop, flags.contains 'n', flags.contains 'e', flags.contains 'm',
    flags.contains 'h', role⟩

namespace Node

def rowOfLine? (line : String) : Option (Label × Nat) :=
  match Split.text ' ' line with
  | [kind, start, stop, flags, role, count] => do
    let start ← Digit.natural? start.toList
    let stop ← Digit.natural? stop.toList
    let count ← Digit.natural? count.toList
    return (Label.ofFlags kind start stop flags.toList (Role.ofName? role), count)
  | _ => none

/-- Reads a listing, which has to hold exactly one tree. -/
def ofListing? (text : String) : Option Node := do
  let lines := (Split.text '\n' text).filter (· ≠ "")
  let rows ← lines.mapM rowOfLine?
  match ofRows rows with
  | [root] => return root
  | _ => none

end Node

end ClassOutline
