import Peg.Error
import Peg.Match.Focus
import Peg.Match.Options

/-!
# The progress of a match

A match counts its evaluations, knows which rule applications are in progress, remembers the
outcomes of completed ones if it is asked to, and keeps a log of what happened.

A rule application is known by its `Key`: the grammar, the name of the rule, and the place,
which is the text itself or the path of the object, with the position.  Paths with alike keys
are the same path.
-/

namespace Peg

/-- What tells subjects of rule applications apart: texts by their characters, objects by their
path. -/
inductive Place where
  | text (s : String)
  | object (path : List Value)

/-- Whether two places are the same. -/
def Place.same : Place → Place → Bool
  | .text s, .text t => s == t
  | .object p, .object q => Value.listAgrees .alike p q
  | _, _ => false

/-- What tells rule applications apart. -/
structure Key where
  grammar : Grammar
  rule : String
  place : Place
  pos : Nat

/-- The place of a focus. -/
def Focus.place (f : Focus) : Place :=
  match f.subject with
  | .text s => .text s
  | _ => .object f.path

/-- The key of the application of a rule at a focus. -/
def Focus.key (f : Focus) (g : Grammar) (rule : String) : Key :=
  ⟨g, rule, f.place, f.pos⟩

/-- Whether two keys are those of the same application. -/
def Key.same (k l : Key) : Bool :=
  k.pos == l.pos && k.rule == l.rule && k.place.same l.place && decide (k.grammar = l.grammar)

/-- The circumstances of an evaluation. -/
structure Visit where
  /-- Where the pattern was evaluated. -/
  focus : Focus
  /-- How many evaluations enclosed it. -/
  depth : Nat
  /-- The rule applications in progress. -/
  active : List Key

/-- What happens during a match. -/
inductive Event where
  /-- The evaluation of a pattern was entered. -/
  | entered (visit : Visit)
  /-- The evaluation of the body of a rule began. -/
  | began (key : Key)
  /-- The body of a rule was evaluated, with this outcome. -/
  | completed (key : Key) (outcome : Outcome)
  /-- The evaluation of the body of a rule was stopped. -/
  | abandoned (key : Key)

/-- The progress of a match. -/
structure Progress where
  /-- The number of evaluations entered. -/
  steps : Nat := 0
  /-- The rule applications in progress, the latest first. -/
  active : List Key := []
  /-- The remembered outcomes of rule applications, the latest first. -/
  memo : List (Key × Outcome) := []
  /-- What happened, the latest first. -/
  log : List Event := []

namespace Progress

/-- Whether a rule application is in progress. -/
def isActive (st : Progress) (key : Key) : Bool :=
  st.active.any fun k => k.same key

/-- The remembered outcome of a rule application. -/
def remembered? (st : Progress) (key : Key) : Option Outcome :=
  (st.memo.find? fun e => e.1.same key).map (·.2)

/-- Enters an evaluation. -/
def enter (st : Progress) (f : Focus) (depth : Nat) : Progress :=
  { st with
    steps := st.steps + 1
    log := .entered ⟨f, depth, st.active⟩ :: st.log }

/-- Puts a rule application in progress. -/
def begin (st : Progress) (key : Key) : Progress :=
  { st with
    active := key :: st.active
    log := .began key :: st.log }

/-- The rule applications in progress without a given one. -/
def withdraw (active : List Key) (key : Key) : List Key :=
  active.eraseP fun k => k.same key

/-- Ends a rule application that was stopped. -/
def abandon (st : Progress) (key : Key) : Progress :=
  { st with
    active := withdraw st.active key
    log := .abandoned key :: st.log }

/-- Ends a rule application with its outcome, and remembers it if asked to. -/
def complete (st : Progress) (memoize : Bool) (key : Key) (outcome : Outcome) : Progress :=
  { st with
    active := withdraw st.active key
    memo := if memoize then (key, outcome) :: st.memo else st.memo
    log := .completed key outcome :: st.log }

/-- The completed rule applications with their outcomes, in order. -/
def completions (st : Progress) : List (Key × Outcome) :=
  st.log.reverse.filterMap fun
    | .completed key outcome => some (key, outcome)
    | _ => none

/-- The evaluations entered, in order. -/
def visits (st : Progress) : List Visit :=
  st.log.reverse.filterMap fun
    | .entered visit => some visit
    | _ => none

end Progress

/-- A step of a match, which makes progress and may be stopped. -/
abbrev Run : Type → Type :=
  EStateM Fault Progress

end Peg
