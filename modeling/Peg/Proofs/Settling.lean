import Peg.Proofs.Unguarded

/-!
# Outcomes on which patterns settle

A pattern settles on an outcome at a focus when `Pattern.unguarded` finds it, however deeply it has
to nest.  The same is said of questions and of plans.  A plan settles step by step: a plan followed
by another one settles where the first one settles and then the second one does.
-/

namespace Peg

variable {α β : Type} {p : Pattern} {f : Focus} {r s : Outcome} {q : Question}

/-- The evaluation of a pattern at a focus comes to an outcome. -/
def Pattern.Settles (p : Pattern) (f : Focus) (r : Outcome) : Prop :=
  ∃ n, p.unguarded n f = .ok r

/-- The answer to a question is an outcome. -/
def Question.Settles (q : Question) (r : Outcome) : Prop :=
  ∃ n, q.resolve (Pattern.unguarded n) = .ok r

/-- A plan comes to a result. -/
def Plan.Settles (x : Plan α) (a : α) : Prop :=
  ∃ n, x.run (Question.resolve (Pattern.unguarded n)) = .ok a

/-! ### Patterns and questions -/

theorem Pattern.settles_unique (h : p.Settles f r) (h' : p.Settles f s) :
  r = s
  := by
  obtain ⟨n, h⟩ := h
  obtain ⟨m, h'⟩ := h'
  apply Pattern.unguarded_unique h h'

theorem Question.settles_unique (h : q.Settles r) (h' : q.Settles s) :
  r = s
  := by
  obtain ⟨n, h⟩ := h
  obtain ⟨m, h'⟩ := h'
  apply Question.resolve_unguarded_unique h h'

@[simp]
theorem Question.settles_evaluate_iff :
  (Question.evaluate p f).Settles r ↔ p.Settles f r
  := Iff.rfl

/-- The application of a rule settles on what its body settles on. -/
theorem Question.settles_apply_iff {g : Grammar} {rule : String} :
  (Question.apply g rule f).Settles r
    ↔ ∃ body, g.rule? rule = some body ∧ body.Settles (f.inScope g) r
  := by
  constructor
  · rintro ⟨n, h⟩
    obtain ⟨body, hbody, h⟩ := Question.resolve_apply_eq_ok_iff.1 h
    use body, hbody, n
  · rintro ⟨body, hbody, n, h⟩
    use n
    apply Question.resolve_apply_eq_ok_iff.2
    use body

/-- A pattern settles on what its plan settles on. -/
theorem Pattern.settles_iff_plan :
  p.Settles f r ↔ (p.plan f).Settles r
  := by
  constructor
  · rintro ⟨n, h⟩
    cases n with
    | zero => cases h
    | succ n => use n, h
  · rintro ⟨n, h⟩
    use n + 1, h

theorem Pattern.accepts_of_settles (h : p.Settles f r) :
  f.Accepts r
  := by
  obtain ⟨n, h⟩ := h
  apply Pattern.accepts_of_unguarded h

theorem Question.accepts_of_settles (h : q.Settles r) :
  q.focus.Accepts r
  := by
  obtain ⟨n, h⟩ := h
  apply Question.accepts_of_resolve h

/-! ### Plans -/

namespace Plan

variable {a b : α} {x : Plan α} {k : α → Plan β} {c : β} {n m : Nat}

theorem run_unguarded_mono (hnm : n ≤ m)
    (h : x.run (Question.resolve (Pattern.unguarded n)) = .ok a) :
  x.run (Question.resolve (Pattern.unguarded m)) = .ok a
  := by
  apply run_mono h
  intro q r hq
  apply Question.resolve_unguarded_mono hnm hq

@[simp]
theorem settles_done_iff :
  (done a).Settles b ↔ b = a
  := by
  constructor
  · rintro ⟨n, h⟩
    cases h
    rfl
  · rintro rfl
    use 0
    rfl

theorem settles_done (a : α) :
  (done a).Settles a
  := settles_done_iff.2 rfl

@[simp]
theorem not_settles_stop (e : Fault) :
  ¬ (stop e : Plan α).Settles a
  := by
  rintro ⟨n, h⟩
  cases h

/-- A plan that asks a question settles where the question settles and then the rest does. -/
theorem settles_ask_iff {next : Outcome → Plan α} :
  (ask q next).Settles a ↔ ∃ r, q.Settles r ∧ (next r).Settles a
  := by
  constructor
  · rintro ⟨n, h⟩
    rw [run_ask_except] at h
    cases hq : q.resolve (Pattern.unguarded n) with
    | error e => simp [hq] at h
    | ok r =>
      rw [hq] at h
      use r
      use ⟨n, hq⟩, n, h
  · rintro ⟨r, ⟨n, hq⟩, m, h⟩
    use max n m
    rw [run_ask_except, Question.resolve_unguarded_mono (Nat.le_max_left n m) hq]
    apply run_unguarded_mono (Nat.le_max_right n m) h

/-- A plan followed by another one settles where the first one settles and then the other one
does. -/
theorem settles_bind_iff :
  (x >>= k).Settles c ↔ ∃ a, x.Settles a ∧ (k a).Settles c
  := by
  induction x with
  | done a => simp
  | stop e => simp
  | ask q next ih =>
    simp only [ask_bind, settles_ask_iff, ih]
    constructor
    · rintro ⟨r, hr, a, ha, hc⟩
      exact ⟨a, ⟨r, hr, ha⟩, hc⟩
    · rintro ⟨a, ⟨r, hr, ha⟩, hc⟩
      exact ⟨r, hr, a, ha, hc⟩

@[simp]
theorem settles_evaluate_iff :
  (Plan.evaluate p f).Settles r ↔ p.Settles f r
  := by
  simp [Plan.evaluate, settles_ask_iff]

/-- An evaluation that settles on an outcome goes on with it. -/
theorem Settles.evaluate {l : Outcome → Plan β} (h : p.Settles f r) (hl : (l r).Settles c) :
  (Plan.evaluate p f >>= l).Settles c
  := by
  apply settles_bind_iff.2
  use r
  constructor
  · apply settles_evaluate_iff.2 h
  · apply hl

@[simp]
theorem settles_apply_iff {g : Grammar} {rule : String} :
  (Plan.apply g rule f).Settles r ↔ (Question.apply g rule f).Settles r
  := by
  simp [Plan.apply, settles_ask_iff]

end Plan

end Peg
