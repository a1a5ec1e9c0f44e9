import Mathlib.Data.Nat.Find
import Peg.Proofs.Derivation.Completeness
import Peg.Proofs.Running

/-!
# The guard against left recursion

A rule application that is met again while it is in progress stops the match.  This never prevents
an outcome.  If the application of a rule settles, then it does so first at some nesting, and all
applications that it needs settle at smaller ones; so it is not among them.

`Pattern.eval_sound` says that outcomes of runs are those of `Pattern.unguarded`, and
`Pattern.eval_complete` is the converse: a run comes to the outcome or breaks a ceiling, if no rule
application in progress settles sooner.  Both are about runs which remember nothing.
-/

namespace Peg

variable {top : Value} {o : Options} {n m depth : Nat} {p : Pattern} {f : Focus}
variable {st st' : Progress} {r : Outcome} {g : Grammar} {rule : String} {k l : Key}

/-! ### Soundness -/

/-- Every result of the first computation is that of the second. -/
def Run.Backed {α : Type} (x : Run α) (y : Except Fault α) : Prop :=
  ∀ st a st', x st = .ok a st' → y = .ok a

/-- Having only results that are backed is kept by results, faults and sequencing. -/
def backed : Congruence Run (Except Fault) where
  rel := Run.Backed
  pure a st b st' h := by
    cases h
    rfl
  throw e st b st' h := by
    cases h
  bind {α β x y k l} hx hk st b st'' h := by
    simp only [Bind.bind, EStateM.bind] at h
    cases hst : x st with
    | ok a st' =>
      rw [hst] at h
      rw [hx st a st' hst]
      apply hk a st' b st'' h
    | error e st' => simp [hst] at h

theorem recalled?_of_not_memoize (ho : o.memoize = false) (st : Progress) (key : Key) :
  recalled? o st key = none
  := by
  simp [recalled?, ho]

theorem applyRule_backed {ev : Evaluator} {ev' : Pattern → Focus → Except Fault Outcome}
    (ho : o.memoize = false) (hev : ∀ p f, Run.Backed (ev p f) (ev' p f)) (g : Grammar)
    (rule : String) (f : Focus) :
  Run.Backed (applyRule o ev g rule f) ((Question.apply g rule f).resolve ev')
  := by
  intro st r st' h
  have happ := applyRule_application o ev g rule f st
  rw [h] at happ
  generalize hx : EStateM.Result.ok r st' = x at happ
  cases happ with
  | recalled hr => simp [recalled?_of_not_memoize ho] at hr
  | active _ _ => cases hx
  | undefined _ _ _ => cases hx
  | @body body _ _ hrule =>
    apply Question.resolve_apply_eq_ok_iff.2
    use body, hrule
    cases hbody : ev body (f.inScope g) (st.begin (f.key g rule)) with
    | ok s st'' =>
      rw [evalBody_ok hbody] at hx
      cases hx
      apply hev _ _ _ _ _ hbody
    | error e st'' =>
      rw [evalBody_error hbody] at hx
      cases hx

/-- Answers are backed when evaluations are. -/
theorem Question.answer_backed {ev : Evaluator} {ev' : Pattern → Focus → Except Fault Outcome}
    (ho : o.memoize = false) (hev : ∀ p f, Run.Backed (ev p f) (ev' p f)) (q : Question) :
  Run.Backed (q.answer o ev) (q.resolve ev')
  := by
  cases q with
  | evaluate p f => apply hev
  | apply g rule f => apply applyRule_backed ho hev

/-- A run that remembers nothing comes only to outcomes that an evaluation without a guard comes
to. -/
theorem Pattern.eval_sound (ho : o.memoize = false) (n depth : Nat) (p : Pattern) (f : Focus) :
  Run.Backed (eval o n depth p f) (unguarded n p f)
  := by
  induction n generalizing depth p f with
  | zero =>
    intro st r st' h
    cases h
  | succ n ih =>
    have hanswer : ∀ q, Run.Backed (Question.answer o (eval o n (depth + 1)) q)
        (Question.resolve (unguarded n) q) :=
      Question.answer_backed ho fun p f => ih (depth + 1) p f
    intro st r st' h
    rw [eval_succ] at h
    cases hc : brokenCeiling? o (st.steps + 1) depth with
    | some e => simp [hc] at h
    | none =>
      rw [hc] at h
      apply backed.run (p.plan f) hanswer _ _ _ h

/-! ### Applications that settle -/

/-- The application of a rule with a given key settles within some nesting. -/
def Key.SettlesWithin (top : Value) (n : Nat) (k : Key) : Prop :=
  ∃ f g rule r, f.Placed top ∧ (f.key g rule).same k = true
    ∧ (Question.apply g rule f).resolve (Pattern.unguarded n) = .ok r

theorem Key.SettlesWithin.congr (h : k.SettlesWithin top n) (hkl : k.same l = true) :
  l.SettlesWithin top n
  := by
  obtain ⟨f, g, rule, r, hf, hk, hr⟩ := h
  use f, g, rule, r, hf, Key.same_trans hk hkl

/-- If the application with a key settles, then it settles at every place with that key. -/
theorem Key.SettlesWithin.apply (h : (f.key g rule).SettlesWithin top n) (hf : f.Placed top) :
  ∃ r, (Question.apply g rule f).resolve (Pattern.unguarded n) = .ok r
  := by
  obtain ⟨f', g', rule', r', hf', hk, hr'⟩ := h
  obtain ⟨rfl, rfl, hff⟩ := hf'.resembles top.tells_alike hf hk
  obtain ⟨body, hbody, hr'⟩ := Question.resolve_apply_eq_ok_iff.1 hr'
  obtain ⟨r, hr, -⟩ := Pattern.unguarded_resembles hff hr'
  use r
  apply Question.resolve_apply_eq_ok_iff.2
  use body

open Classical in
/-- A pattern that settles does so first at some nesting. -/
theorem Pattern.exists_least_unguarded (h : p.unguarded n f = .ok r) :
  ∃ m ≤ n, p.unguarded m f = .ok r ∧ ∀ j < m, ∀ s, p.unguarded j f ≠ .ok s
  := by
  have hex : ∃ m, p.unguarded m f = .ok r := ⟨n, h⟩
  use Nat.find hex, Nat.find_min' hex h, Nat.find_spec hex
  intro j hj s hs
  obtain rfl := unguarded_unique h hs
  apply Nat.find_min hex hj hs

/-! ### Completeness -/

section Complete

variable {α : Type} {t : Terms} {P : α → Prop} {x : Plan α} {a : α}
variable {answer : Question → Run Outcome} {answer' : Question → Except Fault Outcome}
variable {I : Progress → Prop} {E : Fault → Progress → Prop}

/-- A plan comes to the result that it has for given answers, or it ends with a fault, if all
questions are answered so or end with a fault. -/
theorem Plan.Keeps.run_complete (hx : x.Keeps t P) (h : x.run answer' = .ok a) (hst : I st)
    (hallowed : ∀ q r, t.asks q → answer' q = .ok r → t.answers q r)
    (hanswer : ∀ q r st, t.asks q → answer' q = .ok r → I st →
      Run.Ends (fun r' st => r' = r ∧ I st) E (answer q st)) :
  Run.Ends (fun b st => b = a ∧ I st) E (x.run answer st)
  := by
  induction x generalizing st with
  | done b =>
    cases h
    use rfl, hst
  | stop e => cases h
  | ask q next ih =>
    rw [Plan.run_ask_except] at h
    rw [Plan.run_ask]
    cases hq : answer' q with
    | error e => simp [hq] at h
    | ok r =>
      rw [hq] at h
      have hr := hanswer q r st hx.1 hq hst
      cases hrun : answer q st with
      | error e st' =>
        rw [hrun] at hr
        apply hr
      | ok r' st' =>
        rw [hrun] at hr
        obtain ⟨rfl, hst'⟩ := hr
        apply ih _ (hx.2 _ (hallowed q _ hx.1 hq)) h hst'

/-- An evaluator comes to the outcomes that the evaluation without a guard comes to within some
nesting, or it ends with one of the faults `E`.  No rule application in progress may settle sooner
than the outcome is found. -/
def Evaluator.CompleteWithin (ev : Evaluator) (top : Value) (E : Fault → Prop) (n : Nat) : Prop :=
  ∀ p f r st, f.Placed top → Pattern.unguarded n p f = .ok r →
    (∀ k ∈ st.active, ∀ j < n, ¬ k.SettlesWithin top j) →
    Run.Ends (fun r' st' => r' = r ∧ st'.active = st.active) (fun e _ => E e) (ev p f st)

/-- The application of a rule comes to its outcome, or it ends with one of the faults `E`.  It is
not in progress, for it settles as soon as it does. -/
theorem applyRule_complete {ev : Evaluator} {E : Fault → Prop} (ho : o.memoize = false)
    (hev : ∀ j ≤ n, ev.CompleteWithin top E j) (hf : f.Placed top)
    (h : (Question.apply g rule f).resolve (Pattern.unguarded n) = .ok r)
    (hactive : ∀ k ∈ st.active, ∀ j ≤ n, ¬ k.SettlesWithin top j) :
  Run.Ends (fun r' st' => r' = r ∧ st'.active = st.active) (fun e _ => E e)
    (applyRule o ev g rule f st)
  := by
  obtain ⟨body, hbody, h⟩ := Question.resolve_apply_eq_ok_iff.1 h
  obtain ⟨j, hj, h, hleast⟩ := Pattern.exists_least_unguarded h
  have hsettles : (f.key g rule).SettlesWithin top j :=
    ⟨f, g, rule, r, hf, Key.same_refl _, Question.resolve_apply_eq_ok_iff.2 ⟨body, hbody, h⟩⟩
  have hfresh : st.isActive (f.key g rule) = false := by
    rw [← Bool.not_eq_true, Progress.isActive, List.any_eq_true]
    rintro ⟨k, hk, hsame⟩
    apply hactive k hk j hj (hsettles.congr (Key.same_symm hsame))
  have hactive' : ∀ k ∈ (st.begin (f.key g rule)).active, ∀ i < j, ¬ k.SettlesWithin top i := by
    intro k hk i hi hsi
    rcases List.mem_cons.1 hk with rfl | hk
    · obtain ⟨s, hs⟩ := hsi.apply hf
      obtain ⟨body', hbody', hs⟩ := Question.resolve_apply_eq_ok_iff.1 hs
      rw [hbody] at hbody'
      cases hbody'
      apply hleast i hi s hs
    · apply hactive k hk i (by omega) hsi
  have hrun := hev j hj body (f.inScope g) r _ (hf.inScope g) h hactive'
  rw [applyRule_body (recalled?_of_not_memoize ho _ _) hfresh hbody]
  cases hb : ev body (f.inScope g) (st.begin (f.key g rule)) with
  | error e st' =>
    rw [hb] at hrun
    rw [evalBody_error hb]
    apply hrun
  | ok s st' =>
    rw [hb] at hrun
    rw [evalBody_ok hb]
    use hrun.1
    simp only [Progress.complete]
    rw [hrun.2]
    apply Progress.withdraw_cons_self

/-- A run comes to the outcome of the evaluation without a guard, or it ends with one of the faults
`E`, which are those of ceilings. -/
theorem Pattern.eval_complete {E : Fault → Prop} (ho : o.memoize = false)
    (hceiling : ∀ steps depth e, brokenCeiling? o steps depth = some e → E e) (n : Nat) :
  ∀ m depth, (m < n → E .tooDeep) → (eval o m depth).CompleteWithin top E n
  := by
  induction n using Nat.strong_induction_on with
  | _ n ih =>
  intro m depth hnesting p f r st hf h hactive
  cases n with
  | zero => cases h
  | succ n =>
    cases m with
    | zero => apply hnesting (Nat.succ_pos n)
    | succ m =>
      have hev : ∀ j ≤ n, (eval o m (depth + 1)).CompleteWithin top E j := by
        intro j hj
        apply ih j (by omega)
        intro hmj
        apply hnesting (by omega)
      rw [eval_succ]
      cases hc : brokenCeiling? o (st.steps + 1) depth with
      | some e => apply hceiling _ _ _ hc
      | none =>
        have henter : (st.enter f depth).active = st.active := rfl
        apply (p.plan_keeps f).run_complete h (I := fun st' => st'.active = st.active) henter
        · intro q r _ hq
          apply Question.accepts_of_resolve hq
        · intro q r' st' hq hr' hst'
          have hq := hq.placed hf
          have hrun : Run.Ends (fun s st'' => s = r' ∧ st''.active = st'.active) (fun e _ => E e)
              (Question.answer o (eval o m (depth + 1)) q st') := by
            cases q with
            | evaluate p' f' =>
              apply hev n (Nat.le_refl n) p' f' r' st' hq hr'
              rw [hst']
              intro k hk j hj
              apply hactive k hk j (by omega)
            | apply g rule f' =>
              apply applyRule_complete ho hev hq hr'
              rw [hst']
              intro k hk j hj
              apply hactive k hk j (by omega)
          apply hrun.imp
          · intro s st'' hs
            use hs.1, hs.2.trans hst'
          · intro _ _ he
            apply he

end Complete

/-! ### Matches -/

/-- The options of a match without ceilings that remembers nothing. -/
def Options.plain (debug : Bool) : Options where
  debug := debug

theorem Pattern.brokenCeiling?_of_no_ceilings (hsteps : o.maxSteps = none)
    (hdepth : o.maxDepth = none) (steps depth : Nat) :
  brokenCeiling? o steps depth = none
  := by
  simp [brokenCeiling?, hsteps, hdepth]

/-- A match without ceilings that remembers nothing comes to the outcome of the evaluation without a
guard, when it may nest as deeply as that. -/
theorem Matcher.outcome_eq_ok_of_unguarded {m : Matcher} {subject : Value} {pos k n : Nat}
    (hmemo : m.options.memoize = false) (hsteps : m.options.maxSteps = none)
    (hdepth : m.options.maxDepth = none) (hkn : k ≤ n)
    (h : m.pattern.unguarded k (.start subject pos m.outer) = .ok r) :
  (m.runWithin n subject pos).outcome = .ok r
  := by
  have hceiling : ∀ steps depth e,
      Pattern.brokenCeiling? m.options steps depth = some e → False := by
    simp [Pattern.brokenCeiling?_of_no_ceilings hsteps hdepth]
  have hcomplete : (Pattern.eval m.options n 0).CompleteWithin subject (fun _ => False) k :=
    Pattern.eval_complete hmemo hceiling k n 0 (by omega)
  have hrun := hcomplete m.pattern _ r {} (Focus.placed_start subject pos m.outer) h (by simp)
  apply Run.record_outcome_eq_ok_iff.2
  cases hx : m.pattern.eval m.options n 0 (.start subject pos m.outer) {} with
  | error e st =>
    rw [hx] at hrun
    cases hrun
  | ok s st =>
    rw [hx] at hrun
    obtain ⟨rfl, -⟩ := hrun
    use st

/-- A match that remembers nothing comes only to outcomes that the evaluation without a guard comes
to. -/
theorem Matcher.unguarded_of_outcome_eq_ok {m : Matcher} {subject : Value} {pos n : Nat}
    (hmemo : m.options.memoize = false) (h : (m.runWithin n subject pos).outcome = .ok r) :
  m.pattern.unguarded n (.start subject pos m.outer) = .ok r
  := by
  obtain ⟨st, hst⟩ := Run.record_outcome_eq_ok_iff.1 h
  apply Pattern.eval_sound hmemo n 0 _ _ _ _ _ hst

/-- A match without ceilings that remembers nothing comes to an outcome, a success or a failure,
exactly if the outcome can be derived. -/
theorem Matcher.outcome_eq_ok_iff_yields (p : Pattern) (outer : Option Grammar) (debug : Bool)
    (subject : Value) (pos : Nat) (r : Outcome) :
  (∃ nesting, ∀ n ≥ nesting,
      (runWithin n ⟨p, outer, .plain debug⟩ subject pos).outcome = .ok r)
    ↔ p.Yields (.start subject pos outer) r
  := by
  rw [Pattern.yields_iff_settles]
  constructor
  · rintro ⟨nesting, h⟩
    use nesting
    apply unguarded_of_outcome_eq_ok rfl (h nesting (Nat.le_refl nesting))
  · rintro ⟨nesting, h⟩
    use nesting
    intro n hn
    apply outcome_eq_ok_of_unguarded rfl rfl rfl hn h

end Peg
