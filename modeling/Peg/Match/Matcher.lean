import Peg.Construction
import Peg.Match.Evaluation
import Peg.Match.Trace

/-!
# Matchers

A `Matcher` is a pattern with an outer grammar, whose rules the pattern may refer to, and with
options.  `Matcher.run` matches a subject from a position on, and `Matcher.answer` also checks
the position, which is given as a value, and prepares what a caller is told.
-/

namespace Peg

/-- What a match came to, and its progress by then. -/
structure Record where
  outcome : Except Fault Outcome
  progress : Progress

/-- The record of a run. -/
def Run.record (x : Run Outcome) : Record :=
  match x {} with
  | .ok r st => ⟨.ok r, st⟩
  | .error e st => ⟨.error e, st⟩

/-- What a caller is told of a match: its outcome or the error, the number of evaluations when
it is known, and the trace when it is wanted. -/
structure Answer where
  outcome : Except Error Outcome
  steps : Option Nat
  trace : Option (List String)

/-- A pattern ready to be matched. -/
structure Matcher where
  pattern : Pattern
  outer : Option Grammar := none
  options : Options := {}

/-- How deeply evaluations may nest in any match. -/
def nestingLimit : Nat := 1000

/-- The grammar that a value gives for the references of a pattern. -/
def outerGrammar : Value → Except Error (Option Grammar)
  | .null => .ok none
  | .grammar g => .ok (some g)
  | .pattern (.grammar g) => .ok (some g)
  | v => .error (.outerGrammar v)

/-- The position that an integer stands for in a text of a given length: a negative one counts
from the end, and none lies outside the text. -/
def clampedStart (length : Nat) (i : Int) : Nat :=
  min (if i < 0 then i + length else i).toNat length

/-- The position in a subject that a value stands for. -/
def startPosition (subject start : Value) : Except Error Nat :=
  match start, subject with
  | .int i, .text s => .ok (clampedStart s.length i)
  | .int _, _ => .ok 0
  | v, _ => .error (.start v)

namespace Matcher

/-- Makes a matcher of values that stand for a pattern and an outer grammar. -/
def ofValues (pattern outer : Value) (options : Options) : Build Matcher := do
  let p ← pattern.toPattern
  let g ← Build.ofExcept (outerGrammar outer)
  return ⟨p, g, options⟩

/-- Matches a subject from a position on, nesting at most so many evaluations. -/
def runWithin (nesting : Nat) (m : Matcher) (subject : Value) (pos : Nat) : Record :=
  Run.record (m.pattern.eval m.options nesting 0 (.start subject pos m.outer))

/-- Matches a subject from a position on. -/
def run (m : Matcher) (subject : Value) (pos : Nat) : Record :=
  m.runWithin nestingLimit subject pos

/-- The number of evaluations to be told; it is not when they nested too deeply. -/
def stepsTold (r : Record) : Option Nat :=
  match r.outcome with
  | .error .tooDeep => none
  | _ => some r.progress.steps

/-- A trace, if the options ask for one. -/
def traceTold (m : Matcher) (lines : List String) : Option (List String) :=
  if m.options.debug then some lines else none

/-- Matches a subject from a position that is given as a value. -/
def answer (m : Matcher) (subject start : Value) : Answer :=
  match startPosition subject start with
  | .error e => ⟨.error e, some 0, m.traceTold []⟩
  | .ok pos =>
    let r := m.run subject pos
    ⟨r.outcome.mapError .fault, stepsTold r,
      m.traceTold (Trace.lines subject pos r.outcome r.progress)⟩

/-- The outcomes of matching a text from each of its positions on, the end included. -/
def scan (m : Matcher) (text : String) : List (Except Fault Outcome) :=
  (List.range (text.length + 1)).map fun pos => (m.run (.text text) pos).outcome

end Matcher

end Peg
