import Peg.Proofs.Memory

/-!
# Evaluation under a guard

`Pattern.guarded` evaluates a pattern by its plan and nothing else, as `Pattern.unguarded` does, but
it is told which rule applications are in progress, and it stops when one of them is met again.
What it comes to depends only on them, the pattern and the focus.

Runs without ceilings that remember nothing come to the same outcome or the same fault.  This makes
it the measure of such runs when they are stopped as well.
-/

namespace Peg

/-- Answers a question by an evaluator that is told which rule applications are in progress. -/
def Question.answerGuarded (ev : List Key → Pattern → Focus → Except Fault Outcome)
    (active : List Key) : Question → Except Fault Outcome
  | .evaluate p f => ev active p f
  | .apply g rule f =>
    if active.any fun k => k.same (f.key g rule) then throw (.leftRecursion rule f.pos)
    else
      match g.rule? rule with
      | none => throw (.undefinedRule rule none)
      | some body => ev (f.key g rule :: active) body (f.inScope g)

/-- Evaluates a pattern at a focus with some rule applications in progress, at most so many
evaluations nested as the number says. -/
def Pattern.guarded : Nat → List Key → Pattern → Focus → Except Fault Outcome
  | 0 => fun _ _ _ => throw .tooDeep
  | n + 1 => fun active p f => (p.plan f).run (Question.answerGuarded (Pattern.guarded n) active)

theorem Pattern.guarded_succ (n : Nat) (active : List Key) (p : Pattern) (f : Focus) :
  guarded (n + 1) active p f = (p.plan f).run (Question.answerGuarded (guarded n) active)
  := rfl

variable {o : Options} {active : List Key}

/-- A computation with these rule applications in progress ends as the other one does, and leaves
them in progress. -/
def Run.Follows {α : Type} (active : List Key) (x : Run α) (y : Except Fault α) : Prop :=
  ∀ st, st.active = active →
    Run.Ends (fun a st' => y = .ok a ∧ st'.active = active) (fun e _ => y = .error e) (x st)

/-- Ending as another computation does is kept by results, faults and sequencing. -/
def following (active : List Key) : Congruence Run (Except Fault) where
  rel := Run.Follows active
  pure _ _ hst := ⟨rfl, hst⟩
  throw _ _ _ := rfl
  bind {α β x y k l} hx hk st hst := by
    have hrun := hx st hst
    simp only [Bind.bind, EStateM.bind]
    cases h : x st with
    | ok a st' =>
      rw [h] at hrun
      obtain ⟨rfl, hst'⟩ := hrun
      apply hk a st' hst'
    | error e st' =>
      rw [h] at hrun
      obtain rfl := hrun
      rfl

theorem applyRule_follows {ev : Evaluator}
    {ev' : List Key → Pattern → Focus → Except Fault Outcome} (ho : o.memoize = false)
    (hev : ∀ active p f, Run.Follows active (ev p f) (ev' active p f)) (g : Grammar)
    (rule : String) (f : Focus) :
  Run.Follows active (applyRule o ev g rule f)
    ((Question.apply g rule f).answerGuarded ev' active)
  := by
  rintro st rfl
  simp only [Question.answerGuarded]
  have happ := applyRule_application o ev g rule f st
  generalize applyRule o ev g rule f st = x at happ ⊢
  cases happ with
  | recalled hr => simp [recalled?_of_not_memoize ho] at hr
  | active _ hactive =>
    rw [Progress.isActive] at hactive
    rw [if_pos hactive]
    rfl
  | undefined _ hactive hrule =>
    rw [Progress.isActive] at hactive
    rw [if_neg (Bool.eq_false_iff.1 hactive), hrule]
    rfl
  | @body body _ hactive hrule =>
    rw [Progress.isActive] at hactive
    rw [if_neg (Bool.eq_false_iff.1 hactive), hrule]
    have hrun := hev _ body (f.inScope g) (st.begin (f.key g rule)) rfl
    cases hb : ev body (f.inScope g) (st.begin (f.key g rule)) with
    | error e st' =>
      rw [hb] at hrun
      rw [evalBody_error hb]
      apply hrun
    | ok r st' =>
      rw [hb] at hrun
      rw [evalBody_ok hb]
      use hrun.1
      -- the application is withdrawn again, and those before it are still in progress
      simp only [Progress.complete, hrun.2, Progress.begin]
      apply Progress.withdraw_cons_self

/-- A run without ceilings that remembers nothing ends as the evaluation under a guard does. -/
theorem Pattern.eval_follows (ho : o.memoize = false) (hsteps : o.maxSteps = none)
    (hdepth : o.maxDepth = none) (n depth : Nat) (active : List Key) (p : Pattern) (f : Focus) :
  Run.Follows active (eval o n depth p f) (guarded n active p f)
  := by
  induction n generalizing depth active p f with
  | zero => exact fun _ _ => rfl
  | succ n ih =>
    have hanswer : ∀ q, Run.Follows active (Question.answer o (eval o n (depth + 1)) q)
        (q.answerGuarded (guarded n) active) := by
      intro q
      cases q with
      | evaluate q f' => apply ih
      | apply g rule f' => apply applyRule_follows ho fun active p f => ih (depth + 1) active p f
    intro st hst
    rw [eval_succ, brokenCeiling?_of_no_ceilings hsteps hdepth]
    apply (following active).run (p.plan f) hanswer (st.enter f depth) hst

theorem Run.Follows.record {x : Run Outcome} {y : Except Fault Outcome}
    (h : Run.Follows [] x y) :
  x.record.outcome = y
  := by
  have hrun := h {} rfl
  rw [Run.record]
  cases hx : x {} with
  | ok r st =>
    rw [hx] at hrun
    apply hrun.1.symm
  | error e st =>
    rw [hx] at hrun
    apply Eq.symm hrun

/-- A match without ceilings that remembers nothing comes to what its evaluation under a guard comes
to, with nothing in progress. -/
theorem Matcher.outcome_eq_guarded {m : Matcher} (hsteps : m.options.maxSteps = none)
    (hdepth : m.options.maxDepth = none) (n : Nat) (subject : Value) (pos : Nat) :
  ((m.memoizing false).runWithin n subject pos).outcome
    = m.pattern.guarded n [] (.start subject pos m.outer)
  := by
  apply Run.Follows.record
  apply Pattern.eval_follows (o := (m.memoizing false).options) rfl hsteps hdepth

end Peg
