import Peg.Pattern

/-!
# Values that can be keys

A value can be the key of a dictionary when it has a fixed content: lists and dictionaries
cannot, nor can a tuple, a table or a pattern that holds one.  `Value.unhashable?` names the
type of the first part that stands in the way.  A table is searched through its fields first,
key before value, and then through its items.
-/

namespace Peg

mutual

/-- The name of the type of the first part of a value that keeps it from being a key. -/
def Value.unhashable? : Value → Option String
  | .scalar _ => none
  | .list _ => some "list"
  | .tuple xs => Value.firstUnhashable? xs
  | .dict _ => some "dict"
  | .table xs fs => (Value.unhashableEntry? fs).or (Value.firstUnhashable? xs)
  | .pattern p => p.unhashable?
  | .grammar _ => none
termination_by structural v => v

/-- The first unhashable part of the values of a list. -/
def Value.firstUnhashable? : List Value → Option String
  | [] => none
  | x :: xs => x.unhashable?.or (Value.firstUnhashable? xs)
termination_by structural xs => xs

/-- The first unhashable part of the keys and values of some entries. -/
def Value.unhashableEntry? : List (Value × Value) → Option String
  | [] => none
  | (k, v) :: es => (k.unhashable?.or v.unhashable?).or (Value.unhashableEntry? es)
termination_by structural es => es

/-- The first unhashable part of a selector. -/
def Selector.unhashable? : Selector → Option String
  | .literal _ => none
  | .pattern p => p.unhashable?
termination_by structural k => k

/-- The first unhashable part of the constants of a pattern. -/
def Pattern.unhashable? : Pattern → Option String
  | .field k v => k.unhashable?.or v.unhashable?
  | .sequence p q => p.unhashable?.or q.unhashable?
  | .choice p q => p.unhashable?.or q.unhashable?
  | .repetition p _ => p.unhashable?
  | .difference p q => p.unhashable?.or q.unhashable?
  | .invert p => p.unhashable?
  | .lookahead p => p.unhashable?
  | .span p => p.unhashable?
  | .const v => v.unhashable?
  | .group p _ => p.unhashable?
  | .collect p => p.unhashable?
  | _ => none
termination_by structural p => p

end

end Peg
