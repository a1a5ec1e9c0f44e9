import Peg.Error
import Peg.Value.Fields
import Peg.Value.Hashable

/-!
# Reading tables

A table of captures behaves as the sequence of its items: it has a length, its items can be
listed, searched and subscripted by position, where a negative position counts from the end.
A text as a subscript reads a field instead.
-/

namespace Peg

/-- A table of captures. -/
structure Table where
  items : List Value
  fields : List (Value × Value)

namespace Table

/-- A table as a value. -/
def value (t : Table) : Value :=
  .table t.items t.fields

/-- Whether an integer can be a position at all: those of 64 binary digits can, one of them for
the sign. -/
def isPosition (i : Int) : Bool :=
  -0x8000000000000000 ≤ i && i < 0x8000000000000000

/-- The item at a position; a negative one counts from the end. -/
def itemAt (t : Table) (i : Int) : Except Error Value :=
  let k := if i < 0 then i + t.items.length else i
  if !isPosition i then .error .itemNumber
  else
    match if k < 0 then none else t.items[k.toNat]? with
    | some v => .ok v
    | none => .error .itemRange

/-- The value of the field with a given key. -/
def field? (t : Table) (key : Value) : Option Value :=
  Entries.lookup? t.fields key

/-- What a subscript reads: a text a field, and an integer or truth value an item. -/
def subscript (t : Table) : Value → Except Error Value
  | .text s =>
    match t.field? (.text s) with
    | some v => .ok v
    | none => .error (.missingKey (.text s))
  | .int i => t.itemAt i
  | .bool b => t.itemAt (if b then 1 else 0)
  | k => .error (.subscript k)

/-- The value of the field with a given key, or a default when there is none. -/
def get (t : Table) (key default : Value) : Except Error Value :=
  match key.unhashable? with
  | some typeName => .error (.unhashable typeName)
  | none => .ok ((t.field? key).getD default)

/-- Whether a value is alike to one of the items. -/
def contains (t : Table) (v : Value) : Bool :=
  t.items.any fun x => x.alike v

/-- Whether there is a field with a given key. -/
def hasField (t : Table) (key : Value) : Except Error Bool :=
  match key.unhashable? with
  | some typeName => .error (.unhashable typeName)
  | none => .ok (t.field? key).isSome

/-- Refuses a table that cannot be a key. -/
def checkHashable (t : Table) : Except Error Unit :=
  match t.value.unhashable? with
  | some typeName => .error (.unhashable typeName)
  | none => .ok ()

end Table

/-- What a table can be asked, with arguments of some type. -/
inductive TableQuery (α : Type) where
  /-- What a subscript reads. -/
  | subscript (key : α)
  /-- The value of a field, or a default. -/
  | get (key default : α)
  /-- The number of items. -/
  | length
  /-- The items. -/
  | items
  /-- Whether a value is among the items. -/
  | contains (value : α)
  /-- Whether there is a field. -/
  | hasField (key : α)
  /-- Whether the table is alike to a value. -/
  | equals (value : α)
  /-- Whether the table can be a key. -/
  | hash

/-- What a table answers to a query. -/
def Table.answer (t : Table) : TableQuery Value → Except Error Value
  | .subscript key => t.subscript key
  | .get key default => t.get key default
  | .length => .ok (.int t.items.length)
  | .items => .ok (.list t.items)
  | .contains v => .ok (.bool (t.contains v))
  | .hasField key => do
    let found ← t.hasField key
    return .bool found
  | .equals v => .ok (.bool (t.value.alike v))
  | .hash => do
    t.checkHashable
    return .bool true

end Peg
