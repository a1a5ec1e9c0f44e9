import Mathlib.Data.List.Induction
import Peg.Proofs.Ceilings
import Peg.Proofs.Derivation.Completeness
import Peg.Proofs.Exchange

/-!
# Evaluations that end with an outcome

`Pattern.EndsWith` says that the evaluation of a pattern at a focus comes to an outcome whenever it
may nest deeply enough.  Two accounts of this are given, for evaluations without ceilings.

By `Pattern.endsWith_iff_comesTo` it is the outcome that the plan of the pattern comes to, in the
view that there is before anything has happened.  The outcome can also be derived, up to the paths
that are recalled: `Pattern.EndsWith.exists_yields` and its converse
`Pattern.Yields.exists_endsWith`.  The first one rests on views that are `Faithful`, in which
nothing is remembered that cannot be derived.
-/

namespace Peg

variable {o : Options} {p : Pattern} {f : Focus} {r : Outcome} {m : Bool} {s t : View m}

/-! ### Runs that come to what plans come to -/

/-- A plan is carried out with the result that it comes to, when evaluations may nest as deeply as
they have to. -/
theorem Plan.ComesTo.run {α : Type} {x : Plan α} {a : α} {s t : View o.memoize}
    (h : x.ComesTo s (.ok (a, t))) (hsteps : o.maxSteps = none) (hdepth : o.maxDepth = none) :
  ∃ nesting, ∀ n ≥ nesting, ∀ depth st, st.view o = s →
    ∃ st', x.run (Question.answer o (Pattern.eval o n depth)) st = .ok a st' ∧ st'.view o = t
  := by
  generalize hv : Except.ok (a, t) = v at h
  induction h generalizing t with
  | done b s =>
    cases hv
    exact ⟨0, fun n _ depth st hst => ⟨st, rfl, hst⟩⟩
  | stop e s => cases hv
  | stopped _ => cases hv
  | broken _ _ _ => cases hv
  | @answered α q next s r v hq _ ih =>
    obtain ⟨nesting, hnext⟩ := ih hv
    use nesting
    rintro n hn depth st rfl
    have hstep := hq ▸ q.steps (st.view o)
    cases hstep with
    | recalled hr =>
      rw [run_ask, Question.answer, applyRule_recalled hr]
      exact hnext n hn depth st rfl
  | @carried α q next s s₁ s₂ x finish r v hq _ _ ihx ih =>
    obtain ⟨nesting, hnext⟩ := ih hv
    obtain ⟨nesting', hx⟩ := ihx rfl
    use max nesting (nesting' + 1)
    rintro n hn depth st rfl
    -- the plan that is carried out nests once more
    obtain ⟨k, rfl⟩ : ∃ k, n = k + 1 := Nat.exists_eq_add_one.2 (by omega)
    have hquestion := hq ▸ q.steps (st.view o)
    cases hquestion with
    | pattern p f =>
      obtain ⟨st₁, hrun, rfl⟩ := hx k (by omega) (depth + 1) (st.enter f depth) rfl
      rw [run_ask, Question.answer, Pattern.eval_succ,
        Pattern.brokenCeiling?_of_no_ceilings hsteps hdepth, hrun]
      exact hnext (k + 1) (by omega) depth st₁ rfl
    | @body g rule f body hnone hactive hbody =>
      obtain ⟨st₁, hrun, rfl⟩ := hx k (by omega) (depth + 1)
        ((st.begin (f.key g rule)).enter (f.inScope g) depth) rfl
      have heval : body.eval o (k + 1) depth (f.inScope g) (st.begin (f.key g rule))
          = .ok r st₁ := by
        rw [Pattern.eval_succ, Pattern.brokenCeiling?_of_no_ceilings hsteps hdepth, hrun]
      rw [run_ask, Question.answer, applyRule_body hnone hactive hbody, evalBody_ok heval]
      exact hnext (k + 1) (by omega) depth _ (Progress.view_complete st₁ _ r)

/-- The evaluations of a pattern at a focus come to an outcome, whenever they may nest deeply
enough. -/
def Pattern.EndsWith (o : Options) (p : Pattern) (f : Focus) (r : Outcome) : Prop :=
  ∃ nesting, ∀ n ≥ nesting, (Run.record (p.eval o n 0 f)).outcome = .ok r

/-- Evaluations come to an outcome when one of them does. -/
theorem Pattern.endsWith_of_record {n : Nat} (h : (Run.record (p.eval o n 0 f)).outcome = .ok r) :
  p.EndsWith o f r
  := by
  use n
  intro k hk
  obtain ⟨st, hst⟩ := Run.record_outcome_eq_ok_iff.1 h
  apply Run.record_outcome_eq_ok_iff.2
  use st
  rw [← hst]
  apply Pattern.eval_deeper hk
  simp [hst]

/-- Ceilings do not show in an evaluation that has an outcome. -/
theorem Pattern.endsWith_of_outcome {n : Nat}
    (h : (Run.record (p.eval o n 0 f)).outcome = .ok r) :
  p.EndsWith (o.under none none) f r
  := by
  apply Pattern.endsWith_of_record (n := n)
  obtain ⟨st, hst⟩ := Run.record_outcome_eq_ok_iff.1 h
  obtain ⟨vs, -, -, hcut⟩ := Pattern.eval_cut o n 0 p f {}
  rw [hst] at hcut
  split at hcut
  · exact Run.record_outcome_eq_ok_iff.2 ⟨st, hcut.symm⟩
  · obtain ⟨st', hst', -⟩ := hcut
    cases hst'

/-- Evaluations come to what the pattern comes to in the view that there is at the start. -/
theorem Pattern.endsWith_iff_comesTo (hsteps : o.maxSteps = none) (hdepth : o.maxDepth = none) :
  p.EndsWith o f r ↔ ∃ t, p.ComesTo f (Progress.view o {}) (.ok (r, t))
  := by
  constructor
  · rintro ⟨n, h⟩
    obtain ⟨st, hst⟩ := Run.record_outcome_eq_ok_iff.1 (h n (Nat.le_refl n))
    have hrun := Pattern.eval_comesTo hsteps hdepth n 0 p f {}
    rw [hst] at hrun
    exact ⟨_, hrun⟩
  · rintro ⟨t, h⟩
    obtain ⟨nesting, hrun⟩ := h.run hsteps hdepth
    obtain ⟨st, hst, -⟩ := hrun nesting (Nat.le_refl nesting) 1 (({} : Progress).enter f 0) rfl
    apply Pattern.endsWith_of_record (n := nesting + 1)
    apply Run.record_outcome_eq_ok_iff.2
    use st
    rw [Pattern.eval_succ, Pattern.brokenCeiling?_of_no_ceilings hsteps hdepth, hst]

/-! ### Faithful views -/

/-- What is remembered about a key agrees with what the application of its rule settles on, at any
place with that key. -/
def View.Faithful (top : Value) (c : Comparison) (s : View m) : Prop :=
  ∀ k r, s.recalled k = some r → ∀ f g rule, f.Placed top → (f.key g rule).same k = true →
    ∃ r₀, (Question.apply g rule f).Settles r₀ ∧ Outcome.Agrees c r₀ r

section Faithful

variable {top : Value} {c : Comparison} {g : Grammar} {rule : String} {k : Key}

theorem View.Faithful.complete {r₀ : Outcome} (htop : top.Tells c) (h : s.Faithful top c)
    (hf : f.Placed top) (hk : (f.key g rule).same k = true)
    (hr : (Question.apply g rule f).Settles r₀) (hagrees : Outcome.Agrees c r₀ r) :
  (s.complete k r).Faithful top c
  := by
  intro l r' hl f' g' rule' hf' hsame
  simp only [View.complete] at hl
  split at hl
  · next hkl =>
    cases hl
    rw [Bool.and_eq_true] at hkl
    have hkeys := Key.same_trans (Key.same_trans hk hkl.2) (Key.same_symm hsame)
    obtain ⟨r₁, hr₁, hagrees₁⟩ := Question.settles_of_same htop hf hf' hkeys hr
    exact ⟨r₁, hr₁, hagrees₁.symm.trans hagrees⟩
  · apply h l r' hl f' g' rule' hf' hsame

/-- A plan that goes the same way as one that comes to a result in a faithful view settles on a
result which is related to it.  The view stays faithful. -/
theorem Plan.ComesTo.settles {α β : Type} {t : Terms} {P : β → Prop} {results : β → α → Prop}
    {x : Plan β} {y : Plan α} {a : α} {s s' : View m} (h : y.ComesTo s (.ok (a, s')))
    (hxy : x.Corresponds c.correspondence results y) (hx : x.Keeps t P)
    (hasks : ∀ q, t.asks q → q.Placed top) (hanswers : ∀ q r, q.focus.Accepts r → t.answers q r)
    (htop : top.Tells c) (hs : s.Faithful top c) :
  (∃ b, x.Settles b ∧ results b a) ∧ s'.Faithful top c
  := by
  generalize hv : Except.ok (a, s') = v at h
  induction h generalizing s' β t with
  | done a s =>
    cases hv
    obtain ⟨b, rfl, hba⟩ := hxy.exists_done
    exact ⟨⟨b, settles_done b, hba⟩, hs⟩
  | stop e s => cases hv
  | stopped _ => cases hv
  | broken _ _ _ => cases hv
  | @answered α q' next' s r v hq _ ih =>
    obtain ⟨q, next, rfl, hqq, hnext⟩ := hxy.exists_ask
    have hstep := hq ▸ q'.steps s
    cases hstep with
    | recalled hr =>
      cases hqq with
      | apply hff =>
        obtain ⟨r₀, hr₀, hagrees⟩ := hs _ _ hr _ _ _ (hasks _ hx.1) (hff.key_same _ _)
        obtain ⟨⟨b, hb, hba⟩, hs'⟩ := ih (hnext r₀ r hagrees)
          (hx.2 _ (hanswers _ _ (Question.accepts_of_settles hr₀))) hasks hanswers hs hv
        exact ⟨⟨b, settles_ask_iff.2 ⟨r₀, hr₀, hb⟩, hba⟩, hs'⟩
  | @carried α q' next' s s₁ s₂ y finish r v hq _ _ ihy ih =>
    obtain ⟨q, next, rfl, hqq, hnext⟩ := hxy.exists_ask
    have hplaced := hasks q hx.1
    -- it is enough that the question settles, and that the view is faithful afterwards
    have hrest : ∀ r₀, q.Settles r₀ → Outcome.Agrees c r₀ r → (finish r s₂).Faithful top c →
        (∃ b, (Plan.ask q next).Settles b ∧ results b a) ∧ s'.Faithful top c := by
      intro r₀ hr₀ hagrees hs₂
      obtain ⟨⟨b, hb, hba⟩, hs'⟩ := ih (hnext r₀ r hagrees)
        (hx.2 _ (hanswers _ _ (Question.accepts_of_settles hr₀))) hasks hanswers hs₂ hv
      exact ⟨⟨b, settles_ask_iff.2 ⟨r₀, hr₀, hb⟩, hba⟩, hs'⟩
    have hstep := hq ▸ q'.steps s
    cases hstep with
    | pattern p f' =>
      cases hqq with
      | evaluate hff =>
        obtain ⟨⟨r₀, hr₀, hagrees⟩, hs₂⟩ := ihy (p.plan_corresponds hff) (p.plan_keeps _)
          (fun _ hq => hq.placed hplaced) (fun _ _ hr => hr) hs rfl
        exact hrest r₀ (Pattern.settles_iff_plan.2 hr₀) hagrees hs₂
    | @body g rule f' body _ _ hbody =>
      cases hqq with
      | apply hff =>
        obtain ⟨⟨r₀, hr₀, hagrees⟩, hs₂⟩ := ihy (body.plan_corresponds (hff.inScope g))
          (body.plan_keeps _) (fun _ hq => hq.placed hplaced) (fun _ _ hr => hr) hs rfl
        have hr₀ := Question.settles_apply_iff.2 ⟨body, hbody, Pattern.settles_iff_plan.2 hr₀⟩
        exact hrest r₀ hr₀ hagrees (hs₂.complete htop hplaced (hff.key_same g rule) hr₀ hagrees)

theorem Progress.faithful_view_start (top : Value) (c : Comparison) (o : Options) :
  (view o {}).Faithful top c
  := by
  intro k r hk
  simp [view, recalled?, remembered?] at hk

end Faithful

/-! ### Outcomes that can be derived -/

section Derivations

variable {top : Value} {c : Comparison}

/-- The outcome that an evaluation ends with agrees with one that can be derived. -/
theorem Pattern.EndsWith.exists_yields (h : p.EndsWith o f r) (hsteps : o.maxSteps = none)
    (hdepth : o.maxDepth = none) (htop : top.Tells c) (hf : f.Placed top) :
  ∃ r₀, p.Yields f r₀ ∧ Outcome.Agrees c r₀ r
  := by
  obtain ⟨t, ht⟩ := (Pattern.endsWith_iff_comesTo hsteps hdepth).1 h
  obtain ⟨⟨r₀, hr₀, hagrees⟩, -⟩ := ht.settles (p.plan_corresponds (.refl f)) (p.plan_keeps f)
    (fun _ hq => hq.placed hf) (fun _ _ hr => hr) htop (Progress.faithful_view_start top c o)
  exact ⟨r₀, Pattern.yields_iff_settles.2 (Pattern.settles_iff_plan.2 hr₀), hagrees⟩

/-- An evaluation that remembers nothing ends with what the pattern settles on. -/
theorem Pattern.exists_eval_of_settles (hmemo : o.memoize = false) (hsteps : o.maxSteps = none)
    (hdepth : o.maxDepth = none) (hf : f.Placed top) (h : p.Settles f r) :
  ∃ n st, p.eval o n 0 f {} = .ok r st
  := by
  obtain ⟨n, hn⟩ := h
  have hceiling : ∀ steps depth e, brokenCeiling? o steps depth = some e → False := by
    simp [brokenCeiling?_of_no_ceilings hsteps hdepth]
  have hcomplete : (eval o n 0).CompleteWithin top (fun _ => False) n :=
    eval_complete hmemo hceiling n n 0 (by omega)
  have hrun := hcomplete p f r {} hf hn (by simp)
  cases hx : p.eval o n 0 f {} with
  | error e st =>
    rw [hx] at hrun
    cases hrun
  | ok r' st =>
    rw [hx] at hrun
    obtain ⟨rfl, -⟩ := hrun
    exact ⟨n, st, hx⟩

/-- An outcome that can be derived agrees with one that the evaluation ends with. -/
theorem Pattern.Yields.exists_endsWith {r₀ : Outcome} (h : p.Yields f r₀)
    (hsteps : o.maxSteps = none) (hdepth : o.maxDepth = none) (htop : top.Tells c)
    (hf : f.Placed top) :
  ∃ r, p.EndsWith o f r ∧ Outcome.Agrees c r₀ r
  := by
  obtain ⟨maxDepth, maxSteps, memoize, debug⟩ := o
  let o : Options := ⟨maxDepth, maxSteps, false, debug⟩
  obtain ⟨n, st, hplain⟩ := Pattern.exists_eval_of_settles (o := o) rfl hsteps hdepth hf
    (Pattern.yields_iff_settles.1 h)
  cases memoize with
  | false =>
    refine ⟨r₀, Pattern.endsWith_of_record (n := n) ?_, .refl r₀⟩
    exact Run.record_outcome_eq_ok_iff.2 ⟨st, hplain⟩
  | true =>
    have hprecedes : p.Precedes top ({} : Progress).active f := by simp [Pattern.Precedes]
    have hstart : ({} : Progress).Recalls top c {} :=
      ⟨.nil, Nat.le_refl _, by simp [Progress.Faithful]⟩
    have hrun := Pattern.eval_recalls (o := o) rfl htop n 0 p f f {} {} hf (.refl f) hprecedes
      hstart
    rw [hplain] at hrun
    generalize hy : p.eval o.remembering n 0 f {} = y at hrun
    cases hrun with
    | ok hagrees _ _ =>
      refine ⟨_, Pattern.endsWith_of_record (n := n) ?_, hagrees⟩
      exact Run.record_outcome_eq_ok_iff.2 ⟨_, hy⟩

end Derivations

/-- Every focus is placed in some object. -/
theorem Focus.exists_placed (f : Focus) :
  ∃ top, f.Placed top
  := by
  obtain ⟨subject, pos, path, scope⟩ := f
  have hleads : ∃ top, Value.Leads top path subject := by
    induction path using List.reverseRecOn generalizing subject with
    | nil => exact ⟨subject, .here⟩
    | append_singleton path key ih =>
      obtain ⟨top, htop⟩ := ih (.dict [(key, subject)])
      exact ⟨top, .field htop rfl List.mem_cons_self⟩
  obtain ⟨top, htop⟩ := hleads
  exact ⟨top, .inr htop⟩

/-! ### Matches -/

namespace Matcher

variable {m : Matcher} {subject : Value} {pos : Nat}

/-- A match without ceilings ends as the evaluation of its pattern does. -/
theorem endsWith_ok_iff (hsteps : m.options.maxSteps = none) (hdepth : m.options.maxDepth = none) :
  m.EndsWith subject pos (.ok r)
    ↔ m.pattern.EndsWith m.options (.start subject pos m.outer) r
  := by
  constructor
  · intro h
    exact ⟨_, h.outcome_eq⟩
  · rintro ⟨nesting, h⟩
    constructor
    · intro e he
      cases he
    · intro n hn
      have hended := runWithin_ended hsteps hdepth hn
      rw [← runWithin_eq_of_ended hended (Nat.le_max_left n nesting)]
      apply h _ (Nat.le_max_right n nesting)

/-- Ceilings do not show in a match that they do not end. -/
theorem endsWith_of_ended {n : Nat} (h : Verdict.Ended (m.runWithin n subject pos).outcome) :
  (m.under none none).EndsWith subject pos (m.runWithin n subject pos).outcome
  := by
  have hcut := m.cutBy_under n subject pos m.options.maxSteps m.options.maxDepth
  have houtcome : (m.runWithin n subject pos).outcome
      = ((m.under none none).runWithin n subject pos).outcome := by
    by_cases hwithin : Record.Within m.options.maxSteps m.options.maxDepth
        ((m.under none none).runWithin n subject pos)
    · exact (hcut.same hwithin).1
    · obtain ⟨i, v, e, -, hbreaks, -, herror, -⟩ := hcut.broken hwithin
      have hceiling := hbreaks.isCeiling
      rw [h e herror] at hceiling
      cases hceiling
  use h
  intro k hk
  rw [houtcome] at h ⊢
  have hended := runWithin_ended (m := m.under none none) rfl rfl hk
  rw [← runWithin_eq_of_ended hended (Nat.le_max_left k n),
    runWithin_eq_of_ended h (Nat.le_max_right k n)]

/-- Matches without ceilings end with verdicts that agree, if they come to the same when they
remember nothing. -/
theorem EndsWith.agrees {m' : Matcher} {v v' : Except Fault Outcome} {c : Comparison}
    (h : m.EndsWith subject pos v) (h' : m'.EndsWith subject pos v')
    (hsteps : m.options.maxSteps = none) (hdepth : m.options.maxDepth = none)
    (htop : subject.Tells c)
    (hplain : ∀ n, ((m'.memoizing false).runWithin n subject pos).outcome
      = ((m.memoizing false).runWithin n subject pos).outcome) :
  Verdict.Agrees c v v'
  := by
  have hle := Nat.le_max_left (m.nestingBound subject pos) (m'.nestingBound subject pos)
  have hle' := Nat.le_max_right (m.nestingBound subject pos) (m'.nestingBound subject pos)
  have hended := runWithin_ended (m := m.memoizing false) hsteps hdepth hle
  rw [← h.outcome_eq _ hle, ← h'.outcome_eq _ hle']
  apply agrees_of_memoizing_false htop hended (hplain _)

/-- A match without ceilings ends with the outcomes that can be derived, when the keys of the
dictionaries in the subject are neither truth values nor floating-point numbers. -/
theorem endsWith_ok_iff_yields (hsteps : m.options.maxSteps = none)
    (hdepth : m.options.maxDepth = none) (hplain : subject.hasPlainKeys = true) :
  m.EndsWith subject pos (.ok r) ↔ m.pattern.Yields (.start subject pos m.outer) r
  := by
  have htop : subject.Tells .identical := Value.tells_identical hplain
  have hplaced := Focus.placed_start subject pos m.outer
  rw [endsWith_ok_iff hsteps hdepth]
  constructor
  · intro h
    obtain ⟨r₀, hr₀, hagrees⟩ := h.exists_yields hsteps hdepth htop hplaced
    rw [← Outcome.agrees_identical_iff.1 hagrees]
    exact hr₀
  · intro h
    obtain ⟨r', hr', hagrees⟩ := h.exists_endsWith hsteps hdepth htop hplaced
    rw [Outcome.agrees_identical_iff.1 hagrees]
    exact hr'

/-- An outcome of a match can be derived, whatever the options are. -/
theorem yields_of_outcome (hplain : subject.hasPlainKeys = true) {n : Nat}
    (h : (m.runWithin n subject pos).outcome = .ok r) :
  m.pattern.Yields (.start subject pos m.outer) r
  := by
  let m' : Matcher := ⟨m.pattern, m.outer, m.options.under none none⟩
  apply (endsWith_ok_iff_yields (m := m') rfl rfl hplain).1
  exact (endsWith_ok_iff rfl rfl).2 (Pattern.endsWith_of_outcome h)

end Matcher

end Peg
