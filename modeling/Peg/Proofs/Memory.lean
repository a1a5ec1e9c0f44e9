import Peg.Proofs.Guard

/-!
# Remembering outcomes

Remembering the outcomes of rule applications changes no outcome, and saves steps.  Two runs are
followed side by side, one that remembers nothing and one that does.  `Progress.Recalls` relates
their progress: the same applications are in progress, no more steps were made, and what is
remembered about a key agrees with what the application settles on at any place with that key.

When the second run recalls an outcome, the first one evaluates the body of the rule.  It must not
meet the guard there.  The reason is that both runs are in the middle of the applications in
progress: if one of those settles, then only later than the application that was recalled.
-/

namespace Peg

variable {top : Value} {c : Comparison} {o : Options} {n depth : Nat} {f f' : Focus}
variable {g : Grammar} {rule : String} {k : Key} {st st' : Progress}

/-- Fewer steps break no ceiling that more steps do not break. -/
theorem Pattern.brokenCeiling?_mono {steps steps' depth : Nat} (hle : steps' ≤ steps)
    (h : brokenCeiling? o steps depth = none) :
  brokenCeiling? o steps' depth = none
  := by
  rw [brokenCeiling?] at h ⊢
  have hsteps : o.maxSteps.filter (· < steps) = none := by
    split at h
    · cases h
    · cases h
    · assumption
  have hsteps' : o.maxSteps.filter (· < steps') = none := by
    rw [Option.filter_eq_none_iff] at hsteps ⊢
    intro a ha
    have hlt := hsteps a ha
    simp only [decide_eq_true_eq] at hlt ⊢
    omega
  rw [hsteps] at h
  rw [hsteps']
  apply h

/-! ### Faithful memories -/

/-- What is remembered about a key agrees with what the application of its rule settles on, at any
place with that key. -/
def Progress.Faithful (top : Value) (c : Comparison) (st : Progress) : Prop :=
  ∀ e ∈ st.memo, ∀ f g rule, f.Placed top → (f.key g rule).same e.1 = true →
    ∃ r, (Question.apply g rule f).Settles r ∧ Outcome.Agrees c r e.2

/-- An application settles on outcomes that agree at all places with the same key. -/
theorem Question.settles_of_same {g' : Grammar} {rule' : String} {r : Outcome}
    (htop : top.Tells c) (hf : f.Placed top) (hf' : f'.Placed top)
    (hsame : (f.key g rule).same (f'.key g' rule') = true)
    (h : (Question.apply g rule f).Settles r) :
  ∃ r', (Question.apply g' rule' f').Settles r' ∧ Outcome.Agrees c r r'
  := by
  obtain ⟨rfl, rfl, hff⟩ := hf.resembles htop hf' hsame
  obtain ⟨body, hbody, n, h⟩ := Question.settles_apply_iff.1 h
  obtain ⟨r', h', hr⟩ := Pattern.unguarded_resembles hff h
  refine ⟨r', ?_, hr⟩
  apply Question.settles_apply_iff.2
  use body, hbody, n

/-- A memory stays faithful when an outcome is added that agrees with what the application settles
on. -/
theorem Progress.Faithful.complete {r s : Outcome} (htop : top.Tells c)
    (h : st.Faithful top c) (hf : f.Placed top) (hk : (f.key g rule).same k = true)
    (hr : (Question.apply g rule f).Settles r) (hrs : Outcome.Agrees c r s) :
  (st.complete true k s).Faithful top c
  := by
  intro e he f' g' rule' hf' hsame
  rcases List.mem_cons.1 he with rfl | he
  · have hkeys := Key.same_trans hk (Key.same_symm hsame)
    obtain ⟨r', hr', hrr'⟩ := Question.settles_of_same htop hf hf' hkeys hr
    use r', hr'
    apply hrr'.symm.trans hrs
  · apply h e he f' g' rule' hf' hsame

/-! ### Two runs side by side -/

/-- How the progress of a run that remembers outcomes is related to that of a run which does not. -/
structure Progress.Recalls (top : Value) (c : Comparison) (st st' : Progress) : Prop where
  active : List.Forall₂ (fun k l => k.same l = true) st.active st'.active
  steps : st'.steps ≤ st.steps
  faithful : st'.Faithful top c

/-- How the result of a run that remembers outcomes is related to that of a run which does not, and
which has the applications `active` in progress: if the latter is stopped by a ceiling then in no
way, and else they end alike. -/
inductive Run.Recalls {α β : Type} (top : Value) (c : Comparison) (active : List Key)
    (results : α → β → Prop) :
    EStateM.Result Fault Progress α → EStateM.Result Fault Progress β → Prop where
  | ok {a : α} {b : β} {st st' : Progress} :
    results a b → st.active = active → st.Recalls top c st' →
      Recalls top c active results (.ok a st) (.ok b st')
  | error {e : Fault} {st st' : Progress} :
    st'.steps ≤ st.steps → Recalls top c active results (.error e st) (.error e st')
  | ceiling {e : Fault} {st : Progress} {y : EStateM.Result Fault Progress β} :
    e.isCeiling = true → Recalls top c active results (.error e st) y

/-- The applications in progress do not settle before a pattern does. -/
def Pattern.Precedes (top : Value) (active : List Key) (p : Pattern) (f : Focus) : Prop :=
  ∀ k ∈ active, ∀ n, k.SettlesWithin top n → ∃ r, p.unguarded n f = .ok r

/-- The applications in progress settle only after a question does. -/
def Question.Precedes (top : Value) (active : List Key) (q : Question) : Prop :=
  ∀ k ∈ active, ∀ n, k.SettlesWithin top n →
    ∃ m < n, ∃ r, q.resolve (Pattern.unguarded m) = .ok r

/-- The applications in progress settle only after a plan has its result. -/
def Plan.Precedes {α : Type} (top : Value) (active : List Key) (x : Plan α) : Prop :=
  ∀ k ∈ active, ∀ n, k.SettlesWithin top n →
    ∃ m < n, ∃ a, x.run (Question.resolve (Pattern.unguarded m)) = .ok a

theorem Pattern.Precedes.plan {active : List Key} {p : Pattern} (h : p.Precedes top active f) :
  (p.plan f).Precedes top active
  := by
  intro k hk n hn
  obtain ⟨r, hr⟩ := h k hk n hn
  cases n with
  | zero => cases hr
  | succ n => use n, Nat.lt_succ_self n, r, hr

/-- What settles only after a question about a pattern does not settle before the pattern. -/
theorem Question.Precedes.evaluate {active : List Key} {p : Pattern}
    (h : (Question.evaluate p f).Precedes top active) :
  p.Precedes top active f
  := by
  intro k hk n hn
  obtain ⟨m, hm, r, hr⟩ := h k hk n hn
  use r
  apply Pattern.unguarded_mono (Nat.le_of_lt hm) hr

section Plans

variable {α β : Type} {active : List Key} {q : Question} {next : Outcome → Plan α} {r : Outcome}

theorem Plan.Precedes.question (h : (ask q next).Precedes top active) :
  q.Precedes top active
  := by
  intro k hk n hn
  obtain ⟨m, hm, a, ha⟩ := h k hk n hn
  rw [run_ask_except] at ha
  cases hq : q.resolve (Pattern.unguarded m) with
  | error e => simp [hq] at ha
  | ok r => use m, hm, r, hq

theorem Plan.Precedes.answered (h : (ask q next).Precedes top active) (hr : q.Settles r) :
  (next r).Precedes top active
  := by
  intro k hk n hn
  obtain ⟨m, hm, a, ha⟩ := h k hk n hn
  rw [run_ask_except] at ha
  cases hq : q.resolve (Pattern.unguarded m) with
  | error e => simp [hq] at ha
  | ok r' =>
    obtain rfl := Question.settles_unique hr ⟨m, hq⟩
    rw [hq] at ha
    use m, hm, a, ha

variable {t : Terms} {P : α → Prop} {results : α → β → Prop} {x : Plan α} {y : Plan β}
variable {answer answer' : Question → Run Outcome}

/-- Two plans that go the same way are carried out alike when corresponding questions are answered
alike. -/
theorem Plan.Corresponds.run_recalls (hxy : x.Corresponds c.correspondence results y)
    (hx : x.Keeps t P) (hprecedes : x.Precedes top active) (hst : st.Recalls top c st')
    (hactive : st.active = active)
    (hallowed : ∀ q r, t.asks q → q.Settles r → t.answers q r)
    (hsettles : ∀ q st r st', answer q st = .ok r st' → q.Settles r)
    (hanswer : ∀ q q' st st', t.asks q → q.Resembles c q' → q.Precedes top active →
      st.Recalls top c st' → st.active = active →
      Run.Recalls top c active (Outcome.Agrees c) (answer q st) (answer' q' st')) :
  Run.Recalls top c active results (x.run answer st) (y.run answer' st')
  := by
  induction hxy using Corresponds.induction generalizing st st' with
  | done a b hab => exact .ok hab hactive hst
  | stop e => apply Run.Recalls.error hst.steps
  | ask q q' next next' hq _ ih =>
    have hrun := hanswer q q' st st' hx.1 hq hprecedes.question hst hactive
    rw [run_ask, run_ask]
    cases hqs : answer q st with
    | error e st₁ =>
      rw [hqs] at hrun
      dsimp only
      generalize answer' q' st' = z at hrun ⊢
      cases hrun with
      | error hsteps => apply Run.Recalls.error hsteps
      | ceiling he => apply Run.Recalls.ceiling he
    | ok r st₁ =>
      rw [hqs] at hrun
      dsimp only
      generalize answer' q' st' = z at hrun ⊢
      cases hrun with
      | ok hrs hactive₁ hst₁ =>
        have hr := hsettles q st r st₁ hqs
        apply ih _ _ hrs (hx.2 r (hallowed q r hx.1 hr)) (hprecedes.answered hr) hst₁ hactive₁

end Plans

/-! ### Rules and patterns -/

/-- The same options, except that outcomes are remembered. -/
def Options.remembering (o : Options) : Options :=
  { o with memoize := true }

/-- What two evaluators of patterns have in common, of which the second one remembers outcomes. -/
def Evaluator.RecalledBy (ev ev' : Evaluator) (top : Value) (c : Comparison) : Prop :=
  ∀ p f f' st st', f.Placed top → f.Resembles c f' → p.Precedes top st.active f →
    st.Recalls top c st' →
    Run.Recalls top c st.active (Outcome.Agrees c) (ev p f st) (ev' p f' st')

section Rules

variable {r s : Outcome}

/-- Applications that settle only before those in progress are not stopped by the guard. -/
theorem applyRule_complete_of_precedes (ho : o.memoize = false) (hf : f.Placed top)
    (h : (Question.apply g rule f).Settles r)
    (hq : (Question.apply g rule f).Precedes top st.active) :
  Run.Ends (fun r' st' => r' = r ∧ st'.active = st.active) (fun e _ => e.isCeiling = true)
    (applyRule o (Pattern.eval o n depth) g rule f st)
  := by
  obtain ⟨body, hbody, m, hm⟩ := Question.settles_apply_iff.1 h
  obtain ⟨j, -, hj, hleast⟩ := Pattern.exists_least_unguarded hm
  have hev : ∀ i ≤ j,
      (Pattern.eval o n depth).CompleteWithin top (fun e => e.isCeiling = true) i := by
    intro i _
    apply Pattern.eval_complete ho
    · intro _ _ _
      apply Pattern.isCeiling_of_broken
    · intro _
      rfl
  apply applyRule_complete ho hev hf (Question.resolve_apply_eq_ok_iff.2 ⟨body, hbody, hj⟩)
  intro k hk i hi hsi
  obtain ⟨i', hi', s, hs⟩ := hq k hk i hsi
  obtain ⟨body', hbody', hs⟩ := Question.resolve_apply_eq_ok_iff.1 hs
  rw [hbody] at hbody'
  cases hbody'
  apply hleast i' (by omega) s hs

/-- A run that remembers nothing comes to an outcome that agrees with a remembered one, and makes
the more steps. -/
theorem applyRule_recalls_remembered (ho : o.memoize = false) (hf : f.Placed top)
    (hff : f.Resembles c f') (hq : (Question.apply g rule f).Precedes top st.active)
    (hst : st.Recalls top c st')
    (hs : recalled? o.remembering st' (f'.key g rule) = some s) :
  Run.Recalls top c st.active (Outcome.Agrees c)
    (applyRule o (Pattern.eval o n depth) g rule f st) (.ok s st')
  := by
  obtain ⟨e, he, hsame, rfl⟩ := recalled?_eq_some hs
  have hkey := Key.same_trans (hff.key_same g rule) (Key.same_symm hsame)
  obtain ⟨r, hr, hrs⟩ := hst.faithful e he f g rule hf hkey
  have hcomplete : Run.Ends (fun r' st' => r' = r ∧ st'.active = st.active)
      (fun e _ => e.isCeiling = true) (applyRule o (Pattern.eval o n depth) g rule f st) :=
    applyRule_complete_of_precedes ho hf hr hq
  have hextends := applyRule_extends (o := o) (fun p f st => Pattern.eval_extends o n depth p f st)
    g rule f st
  cases hrun : applyRule o (Pattern.eval o n depth) g rule f st with
  | error e st₁ =>
    rw [hrun] at hcomplete
    apply Run.Recalls.ceiling hcomplete
  | ok r' st₁ =>
    rw [hrun] at hcomplete hextends
    obtain ⟨rfl, hactive⟩ := hcomplete
    obtain ⟨vs, -, hsteps, -⟩ := hextends.visits
    refine .ok hrs hactive ⟨?_, ?_, hst.faithful⟩
    · rw [hactive]
      apply hst.active
    · have hle := hst.steps
      omega

/-- What settles only after the application of a rule settles only after the body of the rule, and
so does that application itself. -/
theorem Question.Precedes.body {body : Pattern} (hrule : g.rule? rule = some body)
    (hf : f.Placed top) (h : (Question.apply g rule f).Precedes top st.active) :
  body.Precedes top (st.begin (f.key g rule)).active (f.inScope g)
  := by
  intro k hk n hn
  rcases List.mem_cons.1 hk with rfl | hk
  · obtain ⟨r, hr⟩ := hn.apply hf
    obtain ⟨body', hbody', hr⟩ := Question.resolve_apply_eq_ok_iff.1 hr
    rw [hrule] at hbody'
    cases hbody'
    use r
  · obtain ⟨m, hm, r, hr⟩ := h k hk n hn
    obtain ⟨body', hbody', hr⟩ := Question.resolve_apply_eq_ok_iff.1 hr
    rw [hrule] at hbody'
    cases hbody'
    use r
    apply Pattern.unguarded_mono (Nat.le_of_lt hm) hr

/-- Progress stays related when the latest application ends in both runs. -/
theorem Progress.Recalls.complete {active : List Key} {l : Key} {memoize : Bool}
    (h : st.Recalls top c st') (hactive : st.active = k :: active) (hkl : k.same l = true)
    (hfaithful : (st'.complete true l s).Faithful top c) :
  (st.complete memoize k r).active = active
    ∧ (st.complete memoize k r).Recalls top c (st'.complete true l s)
  := by
  have hwithdraw : withdraw st.active k = active := by
    rw [hactive]
    apply withdraw_cons_self
  have hpairs := h.active
  rw [hactive] at hpairs
  obtain ⟨l', ls, hl', hls, hactive'⟩ := List.forall₂_cons_left_iff.1 hpairs
  have hwithdraw' : withdraw st'.active l = ls := by
    have hsame := Key.same_trans (Key.same_symm hl') hkl
    simp [hactive', withdraw, hsame]
  use hwithdraw
  constructor
  · simp only [Progress.complete, hwithdraw, hwithdraw']
    apply hls
  · apply h.steps
  · apply hfaithful

/-- The body of a rule is evaluated alike with and without remembering outcomes. -/
theorem evalBody_recalls {ev ev' : Evaluator} {body : Pattern} (htop : top.Tells c)
    (hev : ev.RecalledBy ev' top c)
    (hbacked : ∀ p f, Run.Backed (ev p f) (p.unguarded n f)) (hrule : g.rule? rule = some body)
    (hf : f.Placed top) (hff : f.Resembles c f')
    (hq : (Question.apply g rule f).Precedes top st.active) (hst : st.Recalls top c st') :
  Run.Recalls top c st.active (Outcome.Agrees c)
    (evalBody o ev (f.key g rule) body (f.inScope g) st)
    (evalBody o.remembering ev' (f'.key g rule) body (f'.inScope g) st')
  := by
  have hkey := hff.key_same g rule
  have hbegin : (st.begin (f.key g rule)).Recalls top c (st'.begin (f'.key g rule)) :=
    ⟨.cons hkey hst.active, hst.steps, hst.faithful⟩
  have hrun := hev body _ _ _ _ (hf.inScope g) (hff.inScope g) (hq.body hrule hf) hbegin
  cases hb : ev body (f.inScope g) (st.begin (f.key g rule)) with
  | error e st₁ =>
    rw [hb] at hrun
    rw [evalBody_error hb]
    generalize hb' : ev' body (f'.inScope g) (st'.begin (f'.key g rule)) = z at hrun
    cases hrun with
    | error hsteps =>
      rw [evalBody_error hb']
      exact .error hsteps
    | ceiling he => apply Run.Recalls.ceiling he
  | ok r st₁ =>
    rw [hb] at hrun
    rw [evalBody_ok hb]
    generalize hb' : ev' body (f'.inScope g) (st'.begin (f'.key g rule)) = z at hrun
    cases hrun with
    | ok hrs hactive hst₁ =>
      rw [evalBody_ok hb']
      have hsettles : (Question.apply g rule f).Settles r := by
        apply Question.settles_apply_iff.2
        use body, hrule, n
        apply hbacked _ _ _ _ _ hb
      have hfaithful := hst₁.faithful.complete htop hf hkey hsettles hrs
      obtain ⟨hactive', hst₂⟩ := hst₁.complete hactive hkey hfaithful
      apply Run.Recalls.ok hrs hactive' hst₂

/-- Rules are applied alike with and without remembering outcomes. -/
theorem applyRule_recalls (ho : o.memoize = false) (htop : top.Tells c)
    (hev : (Pattern.eval o n depth).RecalledBy (Pattern.eval o.remembering n depth) top c)
    (hf : f.Placed top) (hff : f.Resembles c f')
    (hq : (Question.apply g rule f).Precedes top st.active) (hst : st.Recalls top c st') :
  Run.Recalls top c st.active (Outcome.Agrees c)
    (applyRule o (Pattern.eval o n depth) g rule f st)
    (applyRule o.remembering (Pattern.eval o.remembering n depth) g rule f' st')
  := by
  have hnone := recalled?_of_not_memoize ho st (f.key g rule)
  have hactive : st.isActive (f.key g rule) = st'.isActive (f'.key g rule) :=
    Key.any_same_eq hst.active fun hkl => Key.same_congr hkl (hff.key_same g rule)
  have happ := applyRule_application o.remembering (Pattern.eval o.remembering n depth) g rule f'
    st'
  generalize applyRule o.remembering (Pattern.eval o.remembering n depth) g rule f' st' = y
    at happ ⊢
  cases happ with
  | recalled hs => apply applyRule_recalls_remembered ho hf hff hq hst hs
  | active _ ha =>
    rw [applyRule_active hnone (hactive.trans ha), hff.pos]
    apply Run.Recalls.error hst.steps
  | undefined _ ha hrule =>
    rw [applyRule_undefined hnone (hactive.trans ha) hrule]
    apply Run.Recalls.error hst.steps
  | body _ ha hrule =>
    rw [applyRule_body hnone (hactive.trans ha) hrule]
    have hbacked := fun p f => Pattern.eval_sound ho n depth p f
    apply evalBody_recalls htop hev hbacked hrule hf hff hq hst

/-- Patterns are evaluated alike with and without remembering outcomes. -/
theorem Pattern.eval_recalls (ho : o.memoize = false) (htop : top.Tells c) (n depth : Nat) :
  (eval o n depth).RecalledBy (eval o.remembering n depth) top c
  := by
  induction n generalizing depth with
  | zero => exact fun _ _ _ _ _ _ _ _ _ => .ceiling rfl
  | succ n ih =>
    intro p f f' st st' hf hff hp hst
    rw [eval_succ, eval_succ]
    cases hc : brokenCeiling? o (st.steps + 1) depth with
    | some e => apply Run.Recalls.ceiling (isCeiling_of_broken hc)
    | none =>
      have hsteps : st'.steps + 1 ≤ st.steps + 1 := Nat.succ_le_succ hst.steps
      have hc' : brokenCeiling? o.remembering (st'.steps + 1) depth = none :=
        brokenCeiling?_mono hsteps hc
      rw [hc']
      have henter : (st.enter f depth).Recalls top c (st'.enter f' depth) :=
        ⟨hst.active, hsteps, hst.faithful⟩
      have hbacked : ∀ q, Run.Backed (Question.answer o (eval o n (depth + 1)) q)
          (q.resolve (unguarded n)) :=
        Question.answer_backed ho fun p f => eval_sound ho n (depth + 1) p f
      apply (p.plan_corresponds hff).run_recalls (p.plan_keeps f) hp.plan henter rfl
      · exact fun q r _ hr => Question.accepts_of_settles hr
      · intro q st r st' hr
        use n, hbacked q st r st' hr
      · intro q q' st₁ st₁' hq hqq hprecedes hst₁ hactive
        have hplaced := hq.placed hf
        rw [← hactive] at hprecedes ⊢
        cases hqq with
        | evaluate hgg =>
          apply ih (depth + 1) _ _ _ _ _ hplaced hgg hprecedes.evaluate hst₁
        | apply hgg => apply applyRule_recalls ho htop (ih (depth + 1)) hplaced hgg hprecedes hst₁

end Rules

/-! ### Matches -/

/-- The same match, where outcomes are remembered or not. -/
def Matcher.memoizing (m : Matcher) (memoize : Bool) : Matcher :=
  { m with options := { m.options with memoize := memoize } }

/-- The record of a run that is not stopped by a ceiling agrees with that of the run which remembers
outcomes, and makes no fewer steps. -/
theorem Run.Recalls.record {x y : Run Outcome}
    (h : Run.Recalls top c [] (Outcome.Agrees c) (x {}) (y {}))
    (hx : ∀ e, x.record.outcome = .error e → e.isCeiling = false) :
  Verdict.Agrees c x.record.outcome y.record.outcome
    ∧ y.record.progress.steps ≤ x.record.progress.steps
  := by
  simp only [Run.record] at hx ⊢
  generalize x {} = a at h hx
  generalize y {} = b at h
  cases h with
  | ok hrs _ hst => use .ok hrs, hst.steps
  | error hsteps => use .error _, hsteps
  | ceiling he =>
    have hno := hx _ rfl
    rw [he] at hno
    cases hno

theorem Matcher.memoizing_agrees {subject : Value} (htop : subject.Tells c) (m : Matcher)
    (nesting pos : Nat)
    (h : ∀ e, ((m.memoizing false).runWithin nesting subject pos).outcome = .error e →
      e.isCeiling = false) :
  Verdict.Agrees c ((m.memoizing false).runWithin nesting subject pos).outcome
      ((m.memoizing true).runWithin nesting subject pos).outcome
    ∧ ((m.memoizing true).runWithin nesting subject pos).progress.steps
      ≤ ((m.memoizing false).runWithin nesting subject pos).progress.steps
  := by
  have hstart : ({} : Progress).Recalls subject c {} :=
    ⟨.nil, Nat.le_refl _, by simp [Progress.Faithful]⟩
  have hprecedes : m.pattern.Precedes subject ({} : Progress).active
      (.start subject pos m.outer) := by
    simp [Pattern.Precedes]
  have hrun : (Pattern.eval (m.memoizing false).options nesting 0).RecalledBy
      (Pattern.eval (m.memoizing true).options nesting 0) subject c :=
    Pattern.eval_recalls rfl htop nesting 0
  have hresult := hrun _ _ _ _ _ (Focus.placed_start subject pos m.outer) (.refl _) hprecedes
    hstart
  apply hresult.record h

/-- Remembering outcomes is not noticed.  A match that no ceiling ends comes to an outcome of the
same content when outcomes are remembered, in no more steps, and to the same outcome when the keys
of the dictionaries in the subject are neither truth values nor floating-point numbers. -/
theorem Matcher.memoizing_transparent (m : Matcher) (nesting : Nat) (subject : Value) (pos : Nat)
    (h : ∀ e, ((m.memoizing false).runWithin nesting subject pos).outcome = .error e →
      e.isCeiling = false) :
  Verdict.Agrees .alike ((m.memoizing false).runWithin nesting subject pos).outcome
      ((m.memoizing true).runWithin nesting subject pos).outcome
    ∧ ((m.memoizing true).runWithin nesting subject pos).progress.steps
      ≤ ((m.memoizing false).runWithin nesting subject pos).progress.steps
    ∧ (subject.hasPlainKeys = true →
      ((m.memoizing true).runWithin nesting subject pos).outcome
        = ((m.memoizing false).runWithin nesting subject pos).outcome)
  := by
  obtain ⟨hagrees, hsteps⟩ := m.memoizing_agrees subject.tells_alike nesting pos h
  use hagrees, hsteps
  intro hplain
  obtain ⟨hsame, -⟩ := m.memoizing_agrees (Value.tells_identical hplain) nesting pos h
  apply (Verdict.agrees_identical_iff.1 hsame).symm

/-- A field that is looked up and then scanned for, with a rule that captures its path.  The key is
the truth value `true`, and it is looked up as the number one. -/
def twicePlaced : Matcher where
  pattern := .sequence (.field (.literal (.int 1)) (.ruleRef "v"))
    (.field (.pattern (.truth true)) (.ruleRef "v"))
  outer := some ⟨0, [("v", .position)], .rule "v"⟩

/-- The scan recalls the path of the lookup, which is alike. -/
theorem Matcher.memoizing_transparent_twicePlaced :
  ((twicePlaced.memoizing false).runWithin 5 (.dict [(.bool true, .list [])]) 0).outcome
      = .ok (some ⟨0, [⟨.tuple [.int 1], none⟩, ⟨.tuple [.bool true], none⟩]⟩)
    ∧ Verdict.Agrees .alike
      ((twicePlaced.memoizing false).runWithin 5 (.dict [(.bool true, .list [])]) 0).outcome
      ((twicePlaced.memoizing true).runWithin 5 (.dict [(.bool true, .list [])]) 0).outcome
    ∧ ((twicePlaced.memoizing true).runWithin 5 (.dict [(.bool true, .list [])]) 0).outcome
      = .ok (some ⟨0, [⟨.tuple [.int 1], none⟩, ⟨.tuple [.int 1], none⟩]⟩)
  := by
  have hplain : ((twicePlaced.memoizing false).runWithin 5 (.dict [(.bool true, .list [])])
      0).outcome = .ok (some ⟨0, [⟨.tuple [.int 1], none⟩, ⟨.tuple [.bool true], none⟩]⟩) := rfl
  have hagrees := twicePlaced.memoizing_transparent 5 (.dict [(.bool true, .list [])]) 0 (by
    rw [hplain]
    intro e he
    cases he)
  exact ⟨hplain, hagrees.1, rfl⟩

end Peg
