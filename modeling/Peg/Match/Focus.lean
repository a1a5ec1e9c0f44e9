import Peg.Capture
import Peg.Value.Display

/-!
# Where a pattern is matched

A `Focus` is a place where a pattern is matched: a subject, a position in it, the path that
leads to it from the outermost object, and the grammar in scope.  Positions count the characters
of a text; on any other subject the position is zero.

A `Success` says where a match stopped and what it captured.  An `Outcome` is a success, or
nothing when the pattern fails.
-/

namespace Peg

/-- A successful match. -/
structure Success where
  /-- The position after the match. -/
  stop : Nat
  /-- The captures, in order. -/
  captures : List Capture
deriving DecidableEq

/-- What matching a pattern comes to: a success, or a failure. -/
abbrev Outcome : Type :=
  Option Success

/-- A success after the captures of an earlier one. -/
def Success.after (earlier : Success) (later : Success) : Success :=
  ⟨later.stop, earlier.captures ++ later.captures⟩

/-- A place where a pattern is matched. -/
structure Focus where
  /-- What is matched. -/
  subject : Value
  /-- The position in the subject. -/
  pos : Nat
  /-- The keys that lead from the outermost object to the subject. -/
  path : List Value
  /-- The grammar whose rules can be referred to. -/
  scope : Option Grammar

namespace Focus

/-- The start of a match. -/
def start (subject : Value) (pos : Nat) (scope : Option Grammar) : Focus :=
  ⟨subject, pos, [], scope⟩

/-- The same subject at another position. -/
def moveTo (f : Focus) (pos : Nat) : Focus :=
  { f with pos := pos }

/-- The same place with another grammar in scope. -/
def inScope (f : Focus) (g : Grammar) : Focus :=
  { f with scope := some g }

/-- The value of a field of the subject. -/
def inField (f : Focus) (key value : Value) : Focus :=
  { f with subject := value, pos := 0, path := f.path ++ [key] }

/-- The text of the key of a field of the subject. -/
def inKey (f : Focus) (key : Value) : Focus :=
  { f with subject := .text key.plain, pos := 0 }

/-- A success that consumes nothing and captures nothing. -/
def stay (f : Focus) : Success :=
  ⟨f.pos, []⟩

/-- A success that consumes nothing and captures a value. -/
def capturing (f : Focus) (v : Value) : Success :=
  ⟨f.pos, [⟨v, none⟩]⟩

/-- The number of characters that remain; on an object there are none. -/
def room (f : Focus) : Nat :=
  match f.subject with
  | .text s => s.length - f.pos
  | _ => 0

/-! ### Matching characters -/

/-- Matches a text. -/
def matchText (f : Focus) (t : String) : Outcome :=
  match f.subject with
  | .text s =>
    if t.toList.isPrefixOf (s.toList.drop f.pos) then some ⟨f.pos + t.length, []⟩ else none
  | _ => none

/-- Matches a number of characters. -/
def matchCount (f : Focus) (n : Nat) : Outcome :=
  match f.subject with
  | .text s => if f.pos + n ≤ s.length then some ⟨f.pos + n, []⟩ else none
  | _ => none

/-- Matches where fewer characters remain than a number. -/
def matchFewer (f : Focus) (n : Nat) : Outcome :=
  match f.subject with
  | .text s => if s.length < f.pos + n then some f.stay else none
  | _ => none

/-- Matches one character of a class.

The class is given by its members.  In the program it is compiled by the package `regex`, with every
character written by its number.  The assumption is that a compiled class matches at a position
exactly when the character there is a member of the set, or within one of the ranges. -/
def matchClass (f : Focus) (member : Char → Bool) : Outcome :=
  match f.subject with
  | .text s =>
    match s.toList[f.pos]? with
    | some c => if member c then some ⟨f.pos + 1, []⟩ else none
    | none => none
  | _ => none

/-! ### Capturing -/

/-- What a match captures that stops at a given position: the characters passed over, or the
whole object. -/
def spanned (f : Focus) (stop : Nat) : Value :=
  match f.subject with
  | .text s => .text (String.ofList ((s.toList.take stop).drop f.pos))
  | v => v

/-- Where the focus is: its position in a text, or the path of an object. -/
def whereabouts (f : Focus) : Value :=
  match f.subject with
  | .text _ => .int f.pos
  | _ => .tuple f.path

end Focus

/-- Whether a character lies within one of some ranges: between the two ends by its number, or at
one of them.  A compiled class of these ranges is assumed to match these characters. -/
def inRanges (ranges : List (Char × Char)) (c : Char) : Bool :=
  ranges.any fun r => r.1.toNat ≤ c.toNat && c.toNat ≤ r.2.toNat

end Peg
