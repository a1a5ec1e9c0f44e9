import Peg.Value.Fields

/-!
# Captures

A match yields a list of captures, each a value which may have a name.  `Capture.relabel`
gives all captures of a list one name.  `Capture.collect` makes one capture of a list: its
value is a table with the unnamed values as items in order, and with the named ones as fields,
where of two values of one name the later one counts and the place of the earlier one is kept.
-/

namespace Peg

/-- A captured value, with the name it was given, if any. -/
structure Capture where
  value : Value
  name : Option String := none
deriving DecidableEq

namespace Capture

/-- The captures of a list under one name, or without names. -/
def relabel (name : Option String) (cs : List Capture) : List Capture :=
  cs.map fun c => ⟨c.value, name⟩

/-- The values of the unnamed captures. -/
def items (cs : List Capture) : List Value :=
  cs.filterMap fun c => if c.name.isNone then some c.value else none

/-- Writes a capture into the fields of a table, if it has a name. -/
def writeField (fields : List (Value × Value)) (c : Capture) : List (Value × Value) :=
  match c.name with
  | none => fields
  | some name => Entries.write (.text name) c.value fields

/-- The fields which the named captures write, one after the other. -/
def fields (cs : List Capture) : List (Value × Value) :=
  cs.foldl writeField []

/-- The table of a list of captures. -/
def table (cs : List Capture) : Value :=
  .table (items cs) (fields cs)

/-- One unnamed capture of the table of a list of captures. -/
def collect (cs : List Capture) : Capture :=
  ⟨table cs, none⟩

end Capture

end Peg
