import ClassOutline.Failure

/-!
# Outlines

The outline of a source: its classes in the order in which they are met, each with the names of
its methods and fields.
-/

namespace ClassOutline

/-- A class with the names of its methods and fields, in the order of their declarations. -/
structure ClassInfo where
  name : String
  methods : List String
  fields : List String
  deriving DecidableEq, Repr

def ClassInfo.checked (c : ClassInfo) : Except Failure ClassInfo :=
  if c.name = "" then .error .emptyClassName else .ok c

structure Outline where
  classes : List ClassInfo
  deriving DecidableEq, Repr

namespace Outline

def find? (o : Outline) (name : String) : Option ClassInfo :=
  o.classes.find? (·.name = name)

def names (o : Outline) : List String :=
  o.classes.map (·.name)

def ofClasses (classes : List ClassInfo) : Except Failure Outline :=
  (classes.mapM ClassInfo.checked).map Outline.mk

end Outline

end ClassOutline
