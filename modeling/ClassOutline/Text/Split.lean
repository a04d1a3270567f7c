/-!
# Splitting a text

The pieces of a text between the occurrences of a separator, empty ones included.
-/

namespace ClassOutline.Split

/-- The pieces between separators; there is always at least one. -/
def chars (sep : Char) : List Char → List (List Char)
  | [] => [[]]
  | c :: cs =>
    if c = sep then [] :: chars sep cs
    else
      match chars sep cs with
      | [] => [[c]]
      | piece :: pieces => (c :: piece) :: pieces

def text (sep : Char) (s : String) : List String :=
  (chars sep s.toList).map String.ofList

end ClassOutline.Split
