import Peg.Decimal

/-!
# Scalars

The values without parts: the null value, truth values, integers, floating-point numbers,
texts and byte strings.

Two scalars are *alike* when they are the same number or else the same scalar.  A truth value
is one of the numbers 0 and 1, and a floating-point number with an integral value is that
integer, so `true`, `1` and `1.0` are alike.

The floating-point numbers are the finite ones and the two infinities.  That which is not a number
is left out: it would be unlike itself, while here every scalar is alike to itself, and a table of
entries holds each key only once.
-/

namespace Peg

/-- A value without parts. -/
inductive Scalar where
  /-- The absence of a value. -/
  | null
  /-- A truth value. -/
  | bool (value : Bool)
  /-- An integer of any size. -/
  | int (value : Int)
  /-- A floating-point number, held as its shortest decimal text.  It is a number or an infinity,
  and never `nan`. -/
  | float (text : String)
  /-- A text: a sequence of characters. -/
  | text (value : String)
  /-- A byte string. -/
  | bytes (value : List UInt8)
deriving DecidableEq

namespace Scalar

/-- The integer that a scalar is as a number, if it is one. -/
def integer? : Scalar → Option Int
  | .bool b => some (if b then 1 else 0)
  | .int i => some i
  | .float t => Decimal.integer? t
  | _ => none

/-- The common form of all scalars alike to a given one. -/
def canonical (s : Scalar) : Scalar :=
  match s.integer? with
  | some i => .int i
  | none => s

/-- Whether two scalars are the same number, or else the same scalar. -/
def alike (s t : Scalar) : Bool :=
  s.canonical == t.canonical

theorem alike_iff {s t : Scalar} :
  s.alike t = true ↔ s.canonical = t.canonical
  := by
  simp [alike]

/-- Whether a scalar counts as true: all do but the null value, `false`, the number zero, the
empty text and the empty byte string. -/
def isTruthy : Scalar → Bool
  | .null => false
  | .text s => s != ""
  | .bytes b => !b.isEmpty
  | s => s.integer? != some 0

end Scalar

end Peg
