import Peg.Proofs.Asking
import Peg.Proofs.Resemblance

/-!
# Evaluation without a guard

`Pattern.unguarded` evaluates a pattern by its plan and nothing else: it counts no steps, remembers
no outcomes, and does not notice when a rule is applied again at the same place.  Its number bounds
how deeply evaluations nest; a greater one changes no outcome.

An outcome of this evaluator depends on the pattern and the place alone.  That makes it the measure
of the guarded evaluator, whose outcomes might depend on what is in progress or remembered.
-/

namespace Peg

/-- Answers a question by evaluating a pattern or the body of a rule. -/
def Question.resolve (ev : Pattern → Focus → Except Fault Outcome) :
    Question → Except Fault Outcome
  | .evaluate p f => ev p f
  | .apply g rule f =>
    match g.rule? rule with
    | none => throw (.undefinedRule rule none)
    | some body => ev body (f.inScope g)

/-- Evaluates a pattern at a focus, at most so many evaluations nested as the number says. -/
def Pattern.unguarded : Nat → Pattern → Focus → Except Fault Outcome
  | 0 => fun _ _ => throw .tooDeep
  | n + 1 => fun p f => (p.plan f).run (Question.resolve (Pattern.unguarded n))

variable {n m : Nat} {p : Pattern} {f g : Focus} {r s : Outcome} {q q' : Question}

/-- An application of a rule has the outcomes of the body. -/
theorem Question.resolve_apply_eq_ok_iff {ev : Pattern → Focus → Except Fault Outcome}
    {g : Grammar} {rule : String} :
  (Question.apply g rule f).resolve ev = .ok r
    ↔ ∃ body, g.rule? rule = some body ∧ ev body (f.inScope g) = .ok r
  := by
  cases h : g.rule? rule with
  | none => simp [Question.resolve, h, throw, throwThe, MonadExceptOf.throw]
  | some body => simp [Question.resolve, h]

/-- Answers stay when the evaluator has more outcomes. -/
theorem Question.resolve_mono {ev ev' : Pattern → Focus → Except Fault Outcome}
    (hev : ∀ p f r, ev p f = .ok r → ev' p f = .ok r) (h : q.resolve ev = .ok r) :
  q.resolve ev' = .ok r
  := by
  cases q with
  | evaluate p f => apply hev p f r h
  | apply g rule f =>
    obtain ⟨body, hbody, h⟩ := resolve_apply_eq_ok_iff.1 h
    apply resolve_apply_eq_ok_iff.2
    use body, hbody
    apply hev _ _ _ h

namespace Pattern

/-- Evaluations that may nest more deeply have the same outcomes. -/
theorem unguarded_mono (hnm : n ≤ m) (h : unguarded n p f = .ok r) :
  unguarded m p f = .ok r
  := by
  induction n generalizing m p f r with
  | zero => cases h
  | succ n ih =>
    cases m with
    | zero => omega
    | succ m =>
      apply Plan.run_mono h
      intro q r hq
      apply Question.resolve_mono _ hq
      exact fun p f r h => ih (Nat.le_of_succ_le_succ hnm) h

/-- There is only one outcome, however deeply evaluations may nest. -/
theorem unguarded_unique (h : unguarded n p f = .ok r) (h' : unguarded m p f = .ok s) :
  r = s
  := by
  have hr := unguarded_mono (Nat.le_max_left n m) h
  have hs := unguarded_mono (Nat.le_max_right n m) h'
  rw [hr] at hs
  apply Except.ok.inj hs

end Pattern

theorem Question.resolve_unguarded_mono (hnm : n ≤ m)
    (h : q.resolve (Pattern.unguarded n) = .ok r) :
  q.resolve (Pattern.unguarded m) = .ok r
  := by
  apply Question.resolve_mono _ h
  exact fun p f r h => Pattern.unguarded_mono hnm h

theorem Question.resolve_unguarded_unique (h : q.resolve (Pattern.unguarded n) = .ok r)
    (h' : q.resolve (Pattern.unguarded m) = .ok s) :
  r = s
  := by
  have hr := Question.resolve_unguarded_mono (Nat.le_max_left n m) h
  have hs := Question.resolve_unguarded_mono (Nat.le_max_right n m) h'
  rw [hr] at hs
  apply Except.ok.inj hs

/-! ### Positions -/

/-- Outcomes stop ahead of where they start. -/
theorem Pattern.accepts_of_unguarded (h : unguarded n p f = .ok r) :
  f.Accepts r
  := by
  induction n generalizing p f r with
  | zero => cases h
  | succ n ih =>
    apply (p.plan_keeps f).of_run _ h
    intro q r _ hq
    cases q with
    | evaluate q g => apply ih hq
    | apply g rule f =>
      obtain ⟨body, -, hq⟩ := Question.resolve_apply_eq_ok_iff.1 hq
      have hr := ih hq
      apply hr

theorem Question.accepts_of_resolve (h : q.resolve (Pattern.unguarded n) = .ok r) :
  q.focus.Accepts r
  := by
  cases q with
  | evaluate p f => apply Pattern.accepts_of_unguarded h
  | apply g rule f =>
    obtain ⟨body, -, h⟩ := Question.resolve_apply_eq_ok_iff.1 h
    have hr := Pattern.accepts_of_unguarded h
    apply hr

/-! ### Places that resemble each other -/

variable {c : Comparison}

theorem Question.resolve_resembles {ev : Pattern → Focus → Except Fault Outcome}
    (hev : ∀ p f g r, f.Resembles c g → ev p f = .ok r →
      ∃ s, ev p g = .ok s ∧ Outcome.Agrees c r s)
    (hq : q.Resembles c q') (h : q.resolve ev = .ok r) :
  ∃ s, q'.resolve ev = .ok s ∧ Outcome.Agrees c r s
  := by
  cases hq with
  | evaluate hf => apply hev _ _ _ _ hf h
  | apply hf =>
    obtain ⟨body, hbody, h⟩ := resolve_apply_eq_ok_iff.1 h
    obtain ⟨s, hs, hrs⟩ := hev _ _ _ _ (hf.inScope _) h
    use s
    constructor
    · apply resolve_apply_eq_ok_iff.2
      use body
    · apply hrs

/-- At foci that resemble each other, outcomes agree. -/
theorem Pattern.unguarded_resembles (hf : f.Resembles c g) (h : unguarded n p f = .ok r) :
  ∃ s, unguarded n p g = .ok s ∧ Outcome.Agrees c r s
  := by
  induction n generalizing p f g r with
  | zero => cases h
  | succ n ih =>
    apply (p.plan_corresponds hf).of_run _ h
    intro q q' r hq h
    apply Question.resolve_resembles _ hq h
    exact fun p f g r hf h => ih hf h

end Peg
