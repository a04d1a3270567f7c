import ClassOutline.Json
import ClassOutline.Outline.Basic

/-!
# Records of a scan

What a scan says about one file, and the two forms in which a list of records is written: one
compact object per line, or one indented array.
-/

namespace ClassOutline

/-- The JSON form of a class; fields are called variables there. -/
def ClassInfo.toJson (c : ClassInfo) : Json :=
  .obj [("name", .str c.name), ("methods", .arr (c.methods.map .str)),
    ("variables", .arr (c.fields.map .str))]

def Outline.toJson (o : Outline) : Json :=
  .obj [("classes", .arr (o.classes.map ClassInfo.toJson))]

/-- What a scan says about one file. -/
structure Record where
  file : String
  outline : Option Outline
  error : Option String
  deriving DecidableEq, Repr

namespace Record

def ok (r : Record) : Bool :=
  r.error.isNone

/-- The JSON form of a record: with the outline if there is one, else with the error, which may be
null. -/
def toJson (r : Record) : Json :=
  match r.outline with
  | some o => .obj [("file", .str r.file), ("structure", o.toJson)]
  | none =>
    .obj [("file", .str r.file),
      ("error", match r.error with
        | some e => .str e
        | none => .null)]

inductive Layout where
  /-- One compact object per line. -/
  | lines
  | array
  deriving DecidableEq, Repr

/-- The characters of records as they stand in a file. -/
def fileChars (layout : Layout) (records : List Record) : List Char :=
  match layout with
  | .lines => records.flatMap fun r => r.toJson.compact ++ ['\n']
  | .array => Json.indented 0 (.arr (records.map toJson))

/-- The characters of records as they are printed: an array gets a line end as well. -/
def printedChars (layout : Layout) (records : List Record) : List Char :=
  match layout with
  | .lines => fileChars .lines records
  | .array => fileChars .array records ++ ['\n']

def fileText (layout : Layout) (records : List Record) : String :=
  String.ofList (fileChars layout records)

def printedText (layout : Layout) (records : List Record) : String :=
  String.ofList (printedChars layout records)

end Record

end ClassOutline
