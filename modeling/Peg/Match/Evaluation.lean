import Peg.Match.Plan
import Peg.Match.Progress

/-!
# Evaluating patterns

`Pattern.eval` matches a pattern at a focus: it carries out the plan of the pattern, and answers
its questions by evaluating patterns and applying rules in turn.  `Pattern.step` counts the
evaluation and checks the ceilings before that.  `Pattern.eval` ties the knot and nests at most as
many evaluations as its first number says.

A rule that is applied again at the same place while it is still in progress would never come to
an end; `applyRule` stops the match then.
-/

namespace Peg

/-- An evaluator of patterns. -/
abbrev Evaluator : Type :=
  Pattern → Focus → Run Outcome

/-! ### Rules -/

/-- The remembered outcome of a rule application, if outcomes are remembered. -/
def recalled? (o : Options) (st : Progress) (key : Key) : Option Outcome :=
  if o.memoize then st.remembered? key else none

/-- Evaluates the body of a rule, with the application in progress meanwhile. -/
def evalBody (o : Options) (ev : Evaluator) (key : Key) (body : Pattern) (f : Focus) :
    Run Outcome :=
  fun st =>
    match ev body f (st.begin key) with
    | .ok r st => .ok r (st.complete o.memoize key r)
    | .error e st => .error e (st.abandon key)

/-- Applies a rule of a grammar. -/
def applyRule (o : Options) (ev : Evaluator) (g : Grammar) (rule : String) (f : Focus) :
    Run Outcome :=
  fun st =>
    let key := f.key g rule
    match recalled? o st key with
    | some r => .ok r st
    | none =>
      if st.isActive key then .error (.leftRecursion rule f.pos) st
      else
        match g.rule? rule with
        | none => .error (.undefinedRule rule none) st
        | some body => evalBody o ev key body (f.inScope g) st

/-- Answers a question of a plan. -/
def Question.answer (o : Options) (ev : Evaluator) : Question → Run Outcome
  | .evaluate p f => ev p f
  | .apply g rule f => applyRule o ev g rule f

namespace Pattern

/-! ### Evaluations -/

/-- The ceiling that an evaluation breaks which is the `steps`-th one and is entered at a given
depth. -/
def brokenCeiling? (o : Options) (steps depth : Nat) : Option Fault :=
  match o.maxSteps.filter (· < steps), o.maxDepth.filter (· ≤ depth) with
  | some n, _ => some (.stepsExceeded n)
  | none, some n => some (.depthExceeded n)
  | none, none => none

/-- Enters an evaluation, and stops the match if that breaks a ceiling. -/
def enter (o : Options) (f : Focus) (depth : Nat) : Run Unit :=
  fun st =>
    let st := st.enter f depth
    match brokenCeiling? o st.steps depth with
    | some e => .error e st
    | none => .ok () st

/-- One evaluation, given an evaluator of the patterns inside which is told their depth. -/
def step (o : Options) (ev : Nat → Evaluator) (depth : Nat) (p : Pattern) (f : Focus) :
    Run Outcome := do
  enter o f depth
  (p.plan f).run (Question.answer o (ev (depth + 1)))

/-- Evaluates a pattern at a focus, at most so many evaluations nested as the first number says,
of which this one is entered at a given depth. -/
def eval (o : Options) : Nat → Nat → Evaluator
  | 0 => fun _ _ _ => throw .tooDeep
  | n + 1 => step o (eval o n)

end Pattern

end Peg
