import Peg.Pattern

/-!
# Rule references

The rules that a pattern refers to outside nested grammars, listed in the order in which they
are read: the key of a field before its value, a pattern before what it excludes.  A nested
grammar has rules of its own and is not entered.

`Pattern.references` reads a pattern with a list of parts still to be read.  The number of
nodes in that list falls at every step.
-/

namespace Peg

mutual

/-- The number of nodes of a pattern, where a nested grammar counts as one. -/
def Pattern.size : Pattern → Nat
  | .field k v => k.size + v.size + 1
  | .sequence p q => p.size + q.size + 1
  | .choice p q => p.size + q.size + 1
  | .repetition p _ => p.size + 1
  | .difference p q => p.size + q.size + 1
  | .invert p => p.size + 1
  | .lookahead p => p.size + 1
  | .span p => p.size + 1
  | .group p _ => p.size + 1
  | .collect p => p.size + 1
  | _ => 1
termination_by structural p => p

/-- The number of nodes of the pattern of a selector. -/
def Selector.size : Selector → Nat
  | .literal _ => 0
  | .pattern p => p.size
termination_by structural k => k

end

namespace Pattern

/-- The parts of a pattern that are patterns themselves, in reading order. -/
def parts : Pattern → List Pattern
  | .field (.literal _) v => [v]
  | .field (.pattern k) v => [k, v]
  | .sequence p q => [p, q]
  | .choice p q => [p, q]
  | .repetition p _ => [p]
  | .difference p q => [p, q]
  | .invert p => [p]
  | .lookahead p => [p]
  | .span p => [p]
  | .group p _ => [p]
  | .collect p => [p]
  | _ => []

/-- The number of nodes of all patterns of a list. -/
def totalSize : List Pattern → Nat
  | [] => 0
  | p :: ps => p.size + totalSize ps

theorem totalSize_append (ps qs : List Pattern) :
  totalSize (ps ++ qs) = totalSize ps + totalSize qs
  := by
  induction ps with
  | nil => simp [totalSize]
  | cons p ps ih => simp [totalSize, ih, Nat.add_assoc]

theorem totalSize_parts_lt (p : Pattern) :
  totalSize p.parts < p.size
  := by
  cases p with
  | field k v => cases k <;> simp [parts, totalSize, size, Selector.size]
  | _ => simp [parts, totalSize, size]

/-- The names of the rules referred to in patterns still to be read. -/
def referencesIn : List Pattern → List String
  | [] => []
  | p :: ps =>
    match p with
    | .ruleRef name => name :: referencesIn ps
    | p => referencesIn (p.parts ++ ps)
termination_by ps => totalSize ps
decreasing_by
  · simp [totalSize, size]
  · have := totalSize_parts_lt p
    simp only [totalSize_append, totalSize]
    omega

/-- The names of the rules that a pattern refers to outside nested grammars, in reading
order. -/
def references (p : Pattern) : List String :=
  referencesIn [p]

end Pattern

end Peg
