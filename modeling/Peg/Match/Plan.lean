import Peg.Error
import Peg.Match.Focus

/-!
# Plans of matches

What a pattern comes to at a focus depends on what the patterns inside it come to, and the rules
it refers to.  A `Plan` finds that out by asking: it is done with a result, or it stops the match,
or it asks a `Question` and goes on as the answer tells it to.

`Pattern.plan` is the plan of a pattern at a focus.  `Plan.run` carries a plan out, given the
answers to the questions.
-/

namespace Peg

/-- What a plan may ask: what something inside a pattern comes to. -/
inductive Question where
  /-- What a pattern comes to at a focus. -/
  | evaluate (p : Pattern) (f : Focus)
  /-- What the application of a rule of a grammar comes to at a focus. -/
  | apply (g : Grammar) (rule : String) (f : Focus)

/-- How a result is found. -/
inductive Plan (α : Type) where
  /-- The result is there. -/
  | done (result : α)
  /-- There will be no result. -/
  | stop (fault : Fault)
  /-- The answer to a question tells how to go on. -/
  | ask (question : Question) (next : Outcome → Plan α)

namespace Plan

variable {α β : Type}

/-- A plan followed by another one which depends on the result of the first. -/
def bind : Plan α → (α → Plan β) → Plan β
  | done a, k => k a
  | stop e, _ => stop e
  | ask q next, k => ask q fun r => (next r).bind k

instance : Monad Plan where
  pure := done
  bind := bind

/-- Asks what a pattern comes to at a focus. -/
def evaluate (p : Pattern) (f : Focus) : Plan Outcome :=
  ask (.evaluate p f) done

/-- Asks what the application of a rule comes to at a focus. -/
def apply (g : Grammar) (rule : String) (f : Focus) : Plan Outcome :=
  ask (.apply g rule f) done

/-- Carries a plan out, given the answers to its questions. -/
def run {m : Type → Type} [Monad m] [MonadExcept Fault m] (answer : Question → m Outcome) :
    Plan α → m α
  | done a => pure a
  | stop e => throw e
  | ask q next => do
    let r ← answer q
    (next r).run answer

end Plan

/-! ### Repetitions -/

/-- Matches a pattern exactly `n` times in a row. -/
def repeatExactly (p : Pattern) : Nat → Focus → Plan Outcome
  | 0, f => pure (some f.stay)
  | n + 1, f => do
    match ← Plan.evaluate p f with
    | none => return none
    | some r =>
      let rest ← repeatExactly p n (f.moveTo r.stop)
      return rest.map r.after

/-- Matches a pattern as often as it succeeds and consumes something.  A match that consumes nothing
ends the loop and is dropped.

The first number is the room left, and the recursion is on it.  It is never used up: every match
that consumes something leaves less room, so any number that is not below the room makes the same
run, by `run_repeatGreedily_eq`. -/
def repeatGreedily (p : Pattern) : Nat → Focus → Plan Success
  | room, f => do
    match ← Plan.evaluate p f with
    | none => return f.stay
    | some r =>
      if r.stop = f.pos then return f.stay
      else
        match room with
        | 0 => return f.stay
        | room + 1 =>
          let rest ← repeatGreedily p room (f.moveTo r.stop)
          return r.after rest

/-- Matches a pattern as often as it succeeds, but at most `n` times. -/
def repeatUpTo (p : Pattern) : Nat → Focus → Plan Success
  | 0, f => pure f.stay
  | n + 1, f => do
    match ← Plan.evaluate p f with
    | none => return f.stay
    | some r =>
      let rest ← repeatUpTo p n (f.moveTo r.stop)
      return r.after rest

/-- Matches a pattern repeatedly.  Up to a least number of times every match counts; beyond it
only those that consume something. -/
def repeated (p : Pattern) (f : Focus) : Bound → Plan Outcome
  | .atLeast n => do
    match ← repeatExactly p n f with
    | none => return none
    | some r =>
      let g := f.moveTo r.stop
      let rest ← repeatGreedily p g.room g
      return some (r.after rest)
  | .atMost n => do
    let r ← repeatUpTo p n f
    return some r

/-! ### Fields -/

/-- Matches the value of a field, at the place of the object. -/
def matchField (p : Pattern) (f : Focus) (key value : Value) : Plan Outcome := do
  match ← Plan.evaluate p (f.inField key value) with
  | none => return none
  | some r => return some ⟨f.pos, r.captures⟩

/-- Finds the first field whose key matches the selector and whose value matches. -/
def scanFields (selector p : Pattern) (f : Focus) : List (Value × Value) → Plan Outcome
  | [] => pure none
  | (key, value) :: fields => do
    match ← Plan.evaluate selector (f.inKey key) with
    | none => scanFields selector p f fields
    | some r =>
      match ← matchField p f key value with
      | none => scanFields selector p f fields
      | some r' => return some (r.after r')

/-- Matches a field of an object. -/
def matchSelected (p : Pattern) (f : Focus) : Selector → Plan Outcome
  | .literal key =>
    match f.subject.fieldAt? key.value with
    | none => pure none
    | some value => matchField p f key.value value
  | .pattern selector =>
    match f.subject.fields? with
    | none => pure none
    | some fields => scanFields selector p f fields

/-! ### Patterns -/

/-- Matches the root of a grammar. -/
def matchRoot (g : Grammar) (f : Focus) : Plan Outcome :=
  match g.root with
  | .rule name => Plan.apply g name f
  | .inline p => Plan.evaluate p (f.inScope g)

/-- What a pattern does at a focus. -/
def Pattern.plan (p : Pattern) (f : Focus) : Plan Outcome :=
  match p with
  | .literal t => pure (f.matchText t)
  | .truth b => pure (if b then some f.stay else none)
  | .anyChars n => pure (f.matchCount n)
  | .fewerThan n => pure (f.matchFewer n)
  | .charSet s => pure (f.matchClass s.contains)
  | .charRange rs => pure (f.matchClass (inRanges rs))
  | .field key p => matchSelected p f key
  | .sequence p q => do
    match ← Plan.evaluate p f with
    | none => return none
    | some r =>
      let rest ← Plan.evaluate q (f.moveTo r.stop)
      return rest.map r.after
  | .choice p q => do
    match ← Plan.evaluate p f with
    | some r => return some r
    | none => Plan.evaluate q f
  | .repetition p bound => repeated p f bound
  | .difference p q => do
    match ← Plan.evaluate q f with
    | some _ => return none
    | none => Plan.evaluate p f
  | .invert p => do
    match ← Plan.evaluate p f with
    | some _ => return none
    | none => return some f.stay
  | .lookahead p => do
    match ← Plan.evaluate p f with
    | some _ => return some f.stay
    | none => return none
  | .ruleRef name =>
    match f.scope with
    | none => .stop (.undefinedRule name (some .noGrammar))
    | some g => Plan.apply g name f
  | .grammar g => matchRoot g f
  | .span p => do
    let r ← Plan.evaluate p f
    return r.map fun r => ⟨r.stop, ⟨f.spanned r.stop, none⟩ :: r.captures⟩
  | .const v => pure (some (f.capturing v))
  | .position => pure (some (f.capturing f.whereabouts))
  | .group p name => do
    let r ← Plan.evaluate p f
    return r.map fun r => ⟨r.stop, Capture.relabel (some name) r.captures⟩
  | .collect p => do
    let r ← Plan.evaluate p f
    return r.map fun r => ⟨r.stop, [Capture.collect r.captures]⟩

end Peg
