import Peg.Value.Comparison

/-!
# The fields of an object

A dictionary has its entries as fields, a list or a tuple its members under the keys 0, 1, 2
and so on.  No other value has fields.  `Value.fields?` lists the fields in order, and
`Value.fieldAt?` looks one up by its key.  Keys that are alike name the same field, and among
entries with such keys the first one counts.

`Entries.write` adds an entry to a list of entries.  A key that is alike to one already there
replaces the value of that one and leaves the key and its place as they are.
-/

namespace Peg

namespace Entries

/-- The value of the first entry whose key is alike to `key`. -/
def lookup? (es : List (Value × Value)) (key : Value) : Option Value :=
  (es.find? fun e => e.1.alike key).map (·.2)

/-- The entries whose key is not alike to the key of an earlier one. -/
def unshadowed : List (Value × Value) → List (Value × Value)
  | [] => []
  | e :: es => e :: (unshadowed es).filter fun f => !e.1.alike f.1

/-- Writes a value under a key. -/
def write (key value : Value) : List (Value × Value) → List (Value × Value)
  | [] => [(key, value)]
  | e :: es => if e.1.alike key then (e.1, value) :: es else e :: write key value es

end Entries

namespace Value

/-- The members of a list with their positions as keys, counted from `start`. -/
def indexed (start : Nat) : List Value → List (Value × Value)
  | [] => []
  | v :: vs => (.int start, v) :: indexed (start + 1) vs

/-- The fields of an object in order, each a key with its value. -/
def fields? : Value → Option (List (Value × Value))
  | .dict es => some (Entries.unshadowed es)
  | .list xs => some (indexed 0 xs)
  | .tuple xs => some (indexed 0 xs)
  | _ => none

/-- The member of a list at a position that is given as a value. -/
def memberAt? (xs : List Value) : Value → Option Value
  | .int (.ofNat k) => xs[k]?
  | _ => none

/-- The value of the field of an object with a given key. -/
def fieldAt? : Value → Value → Option Value
  | .dict es, key => Entries.lookup? es key
  | .list xs, key => memberAt? xs key
  | .tuple xs, key => memberAt? xs key
  | _, _ => none

end Value

end Peg
