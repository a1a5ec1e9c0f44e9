import Peg.Proofs.Alongside
import Peg.Proofs.Guard
import Peg.Proofs.Nesting

/-!
# Runs in lockstep

Two runs are in lockstep when they evaluate related patterns at related foci, step by step.  A
`Lockstep` says what is related, and that the plans of related patterns ask related questions.  It
has to tell apart the rule applications of the one run as well as those of the other, for the guard
and the memory to go the same way.

By `Lockstep.eval_alike` it follows that both runs end alike: with related outcomes or with the same
fault, after as many steps.  What is known of the patterns and foci of the first run may be any
property that evaluations hand on, and the rule applications that the runs complete may be compared
on the way.

A `Unison` is a lockstep of matches with the same options, at the same positions.  Without ceilings
the second run may be some evaluations ahead.  A `Pairing` is a lockstep of such matches that come
to the same outcomes, however far ahead the second one is.
-/

namespace Peg

/-- The same fault, in a subject where all positions are `k` further on. -/
def Fault.shift (k : Nat) : Fault → Fault
  | .leftRecursion rule pos => .leftRecursion rule (pos + k)
  | e => e

theorem Fault.shift_of_isCeiling {e : Fault} (h : e.isCeiling = true) (k : Nat) :
  e.shift k = e
  := by
  cases e with
  | leftRecursion rule pos => cases h
  | _ => rfl

/-- Evaluations are related as given, and so are applications of the same rule. -/
inductive Question.Related (evaluations : Pattern → Focus → Pattern → Focus → Prop)
    (applications : String → Grammar → Focus → Grammar → Focus → Prop) :
    Question → Question → Prop where
  | evaluate {p p' : Pattern} {f f' : Focus} :
    evaluations p f p' f' → Related evaluations applications (.evaluate p f) (.evaluate p' f')
  | apply {rule : String} {g g' : Grammar} {f f' : Focus} :
    applications rule g f g' f' →
      Related evaluations applications (.apply g rule f) (.apply g' rule f')

/-- A way in which two runs, with options of their own, evaluate patterns side by side. -/
structure Lockstep (o o' : Options) where
  /-- Which patterns at which foci are evaluated side by side. -/
  evaluations : Pattern → Focus → Pattern → Focus → Prop
  /-- Of which grammars, at which foci, a rule is applied side by side. -/
  applications : String → Grammar → Focus → Grammar → Focus → Prop
  /-- Which outcomes are related. -/
  outcomes : Outcome → Outcome → Prop
  /-- What is known of the patterns and foci of the first run. -/
  known : Pattern → Focus → Prop
  /-- How much further on positions are in the second run. -/
  shift : Nat
  /-- How many evaluations the second run is ahead, in steps and in depth. -/
  ahead : Nat
  /-- How the completed rule applications of the two runs compare, with their outcomes. -/
  histories : List (Key × Outcome) → List (Key × Outcome) → Prop
  known_hereditary : Hereditary known
  memoize_eq : o.memoize = o'.memoize
  brokenCeiling?_eq (steps depth : Nat) :
    Pattern.brokenCeiling? o' (steps + ahead) (depth + ahead) = Pattern.brokenCeiling? o steps depth
  plan_corresponds {p p' : Pattern} {f f' : Focus} : known p f → evaluations p f p' f' →
    (p.plan f).Corresponds ⟨Question.Related evaluations applications, fun _ _ => outcomes⟩ outcomes
      (p'.plan f')
  pos_eq {rule : String} {g g' : Grammar} {f f' : Focus} :
    applications rule g f g' f' → f'.pos = f.pos + shift
  body {rule : String} {g g' : Grammar} {f f' : Focus} : applications rule g f g' f' →
    Option.Rel (fun p p' => evaluations p (f.inScope g) p' (f'.inScope g'))
      (g.rule? rule) (g'.rule? rule)
  same_eq {rule rule₁ : String} {g g' g₁ g₁' : Grammar} {f f' f₁ f₁' : Focus} :
    applications rule g f g' f' → applications rule₁ g₁ f₁ g₁' f₁' →
      (f.key g rule).same (f₁.key g₁ rule₁) = (f'.key g' rule).same (f₁'.key g₁' rule₁)
  histories_nil : histories [] []
  histories_concat {rule : String} {g g' : Grammar} {f f' : Focus} {r r' : Outcome}
    {cs cs' : List (Key × Outcome)} :
    applications rule g f g' f' → outcomes r r' → histories cs cs' →
      histories (cs ++ [(f.key g rule, r)]) (cs' ++ [(f'.key g' rule, r')])

namespace Lockstep

variable {o o' : Options} {L : Lockstep o o'} {st st' : Progress} {k k' l l' : Key}
variable {rule : String} {g g' : Grammar} {f f' : Focus} {r r' : Outcome}

/-- Which questions are asked side by side. -/
def questions (L : Lockstep o o') : Question → Question → Prop :=
  Question.Related L.evaluations L.applications

/-! ### Progress side by side -/

/-- The keys of rule applications that are made side by side. -/
inductive Keys (L : Lockstep o o') : Key → Key → Prop where
  | of {rule : String} {g g' : Grammar} {f f' : Focus} :
    L.applications rule g f g' f' → Keys L (f.key g rule) (f'.key g' rule)

/-- What two runs in lockstep have done so far. -/
structure DoneAlike (L : Lockstep o o') (st st' : Progress) : Prop where
  steps : st'.steps = st.steps + L.ahead
  history : L.histories st.completions st'.completions

/-- The progress of two runs in lockstep. -/
structure InStep (L : Lockstep o o') (st st' : Progress) : Prop extends L.DoneAlike st st' where
  active : List.Forall₂ L.Keys st.active st'.active
  memo : List.Forall₂ (fun e e' => L.Keys e.1 e'.1 ∧ L.outcomes e.2 e'.2) st.memo st'.memo

/-- Results of two runs in lockstep: related results, or the same fault, after as many steps. -/
inductive Alike {α β : Type} (L : Lockstep o o') (results : α → β → Prop) :
    EStateM.Result Fault Progress α → EStateM.Result Fault Progress β → Prop where
  | ok {a : α} {b : β} {st st' : Progress} :
    results a b → L.InStep st st' → Alike L results (.ok a st) (.ok b st')
  | error {e : Fault} {st st' : Progress} :
    L.DoneAlike st st' → Alike L results (.error e st) (.error (e.shift L.shift) st')

/-- Two runs of which none is ahead are in step at the start. -/
theorem InStep.start (hL : L.ahead = 0) :
  L.InStep {} {}
  := ⟨⟨by simp [hL], L.histories_nil⟩, .nil, .nil⟩

theorem Keys.same_eq (h : L.Keys k k') (h' : L.Keys l l') :
  k.same l = k'.same l'
  := by
  cases h with
  | of h =>
    cases h' with
    | of h' => apply L.same_eq h h'

theorem InStep.isActive_eq (h : L.InStep st st') (hk : L.Keys k k') :
  st.isActive k = st'.isActive k'
  := Key.any_same_eq h.active fun hl => hl.same_eq hk

theorem InStep.remembered? (h : L.InStep st st') (hk : L.Keys k k') :
  Option.Rel L.outcomes (st.remembered? k) (st'.remembered? k')
  := by
  have hmemo := h.memo
  simp only [Progress.remembered?]
  generalize st.memo = es, st'.memo = es' at hmemo ⊢
  induction hmemo with
  | nil => apply Option.Rel.none
  | @cons e e' es es' he _ ih =>
    rw [List.find?_cons, List.find?_cons, ← he.1.same_eq hk]
    cases e.1.same k with
    | false => apply ih
    | true => apply Option.Rel.some he.2

theorem InStep.recalled? (h : L.InStep st st') (hk : L.Keys k k') :
  Option.Rel L.outcomes (recalled? o st k) (recalled? o' st' k')
  := by
  rw [Peg.recalled?, Peg.recalled?, ← L.memoize_eq]
  split
  · apply h.remembered? hk
  · apply Option.Rel.none

theorem InStep.withdraw {ks ks' : List Key} (h : List.Forall₂ L.Keys ks ks') (hk : L.Keys k k') :
  List.Forall₂ L.Keys (Progress.withdraw ks k) (Progress.withdraw ks' k')
  := by
  simp only [Progress.withdraw]
  induction h with
  | nil => apply List.Forall₂.nil
  | @cons l l' ks ks' hl hks ih =>
    rw [List.eraseP_cons, List.eraseP_cons, ← hl.same_eq hk]
    cases l.same k with
    | false => apply List.Forall₂.cons hl ih
    | true => apply hks

theorem InStep.enter (h : L.InStep st st') (depth : Nat) :
  L.InStep (st.enter f depth) (st'.enter f' (depth + L.ahead))
  := by
  refine ⟨⟨?_, ?_⟩, h.active, h.memo⟩
  · simp only [Progress.enter, h.steps]
    omega
  · simpa using h.history

theorem InStep.begin (h : L.InStep st st') (hk : L.Keys k k') :
  L.InStep (st.begin k) (st'.begin k')
  := by
  refine ⟨⟨h.steps, ?_⟩, .cons hk h.active, h.memo⟩
  simpa using h.history

theorem InStep.complete (h : L.InStep st st') (hk : L.Keys k k') (hr : L.outcomes r r') :
  L.InStep (st.complete o.memoize k r) (st'.complete o'.memoize k' r')
  := by
  refine ⟨⟨h.steps, ?_⟩, InStep.withdraw h.active hk, ?_⟩
  · rw [Progress.completions_complete, Progress.completions_complete]
    cases hk with
    | of hg => apply L.histories_concat hg hr h.history
  · simp only [Progress.complete, ← L.memoize_eq]
    split
    · apply List.Forall₂.cons ⟨hk, hr⟩ h.memo
    · apply h.memo

/-! ### Rules -/

theorem evalBody_alike {ev ev' : Evaluator} {p p' : Pattern} (hst : L.InStep st st')
    (hk : L.Keys k k')
    (hev : L.InStep (st.begin k) (st'.begin k') →
      L.Alike L.outcomes (ev p f (st.begin k)) (ev' p' f' (st'.begin k'))) :
  L.Alike L.outcomes (evalBody o ev k p f st) (evalBody o' ev' k' p' f' st')
  := by
  have hrun := hev (hst.begin hk)
  simp only [evalBody]
  generalize ev p f (st.begin k) = x, ev' p' f' (st'.begin k') = x' at hrun ⊢
  cases hrun with
  | ok hr hst => apply Alike.ok hr (hst.complete hk hr)
  | error hdone =>
    apply Alike.error
    exact ⟨hdone.steps, by simpa using hdone.history⟩

/-- Rules are applied alike when their bodies are evaluated alike. -/
theorem applyRule_alike {ev ev' : Evaluator} (hg : L.applications rule g f g' f')
    (hst : L.InStep st st') (hacceptable : st.Acceptable)
    (hev : ∀ {p p' st st'}, g.rule? rule = some p →
      L.evaluations p (f.inScope g) p' (f'.inScope g') → L.InStep st st' → st.Acceptable →
      L.Alike L.outcomes (ev p (f.inScope g) st) (ev' p' (f'.inScope g') st')) :
  L.Alike L.outcomes (applyRule o ev g rule f st) (applyRule o' ev' g' rule f' st')
  := by
  have hk : L.Keys (f.key g rule) (f'.key g' rule) := .of hg
  have hrecalled := hst.recalled? hk
  have hbody := L.body hg
  simp only [applyRule, ← hst.isActive_eq hk, L.pos_eq hg]
  generalize Peg.recalled? o st (f.key g rule) = x, Peg.recalled? o' st' (f'.key g' rule) = x'
    at hrecalled ⊢
  cases hrecalled with
  | some hr => apply Alike.ok hr hst
  | none =>
    cases st.isActive (f.key g rule) with
    | true => exact .error (e := .leftRecursion rule f.pos) hst.toDoneAlike
    | false =>
      generalize hp : g.rule? rule = y, g'.rule? rule = y' at hbody ⊢
      cases hbody with
      | none => exact .error (e := .undefinedRule rule none) hst.toDoneAlike
      | some hp' =>
        apply evalBody_alike hst hk
        intro hbegin
        apply hev hp hp' hbegin
        apply hacceptable

/-! ### Plans -/

/-- Plans that go the same way are carried out alike when corresponding questions are answered
alike, as long as the progress has a property that allowed answers keep. -/
theorem run_alike {α β : Type} {P : α → β → Prop} {x : Plan α} {y : Plan β} {t : Terms}
    {S : α → Prop} {Q : Question → Question → Prop} {I : Progress → Prop}
    {answer answer' : Question → Run Outcome}
    (hxy : x.Corresponds ⟨Q, fun _ _ => L.outcomes⟩ P y) (hx : x.Keeps t S)
    (hst : L.InStep st st') (hkept : I st)
    (haccepts : ∀ q st r st', I st → answer q st = .ok r st' → t.answers q r ∧ I st')
    (hstops : ∀ e, t.stops e → e.shift L.shift = e)
    (hanswer : ∀ q q' st st', t.asks q → Q q q' → I st → L.InStep st st' →
      L.Alike L.outcomes (answer q st) (answer' q' st')) :
  L.Alike P (x.run answer st) (y.run answer' st')
  := by
  induction hxy using Plan.Corresponds.induction generalizing st st' with
  | done a b hab => exact .ok hab hst
  | stop e =>
    have herror : L.Alike P (.error e st) (.error (e.shift L.shift) st') := .error hst.toDoneAlike
    rw [hstops e hx] at herror
    apply herror
  | ask q q' next next' hq _ ih =>
    have hrun := hanswer q q' st st' hx.1 hq hkept hst
    have hallowed := haccepts q st
    rw [Plan.run_ask, Plan.run_ask]
    generalize answer q st = z, answer' q' st' = z' at hrun hallowed ⊢
    cases hrun with
    | ok hr hst₁ =>
      obtain ⟨hanswers, hkept₁⟩ := hallowed _ _ hkept rfl
      apply ih _ _ hr (hx.2 _ hanswers) hst₁ hkept₁
    | error hdone => apply Alike.error hdone

/-! ### Runs -/

/-- Evaluations that are begun in step end alike if their plans are carried out alike: both count
them, so the second run stays as far ahead, and they break the same ceilings. -/
theorem eval_succ_alike {n depth : Nat} {p p' : Pattern} (hst : L.InStep st st')
    (hrun : L.InStep (st.enter f depth) (st'.enter f' (depth + L.ahead)) →
      L.Alike L.outcomes
        ((p.plan f).run (Question.answer o (Pattern.eval o n (depth + 1))) (st.enter f depth))
        ((p'.plan f').run (Question.answer o' (Pattern.eval o' n (depth + 1 + L.ahead)))
          (st'.enter f' (depth + L.ahead)))) :
  L.Alike L.outcomes (p.eval o (n + 1) depth f st)
    (p'.eval o' (n + 1) (depth + L.ahead) f' st')
  := by
  have henter : L.InStep (st.enter f depth) (st'.enter f' (depth + L.ahead)) := hst.enter depth
  have hceiling := L.brokenCeiling?_eq (st.steps + 1) depth
  rw [Nat.add_right_comm, ← hst.steps] at hceiling
  rw [Pattern.eval_succ, Pattern.eval_succ, hceiling]
  cases hc : Pattern.brokenCeiling? o (st.steps + 1) depth with
  | some e =>
    have herror : L.Alike L.outcomes (.error e (st.enter f depth))
        (.error (e.shift L.shift) (st'.enter f' (depth + L.ahead))) := .error henter.toDoneAlike
    rw [Fault.shift_of_isCeiling (Pattern.isCeiling_of_broken hc)] at herror
    apply herror
  | none =>
    rw [Nat.add_right_comm depth L.ahead 1]
    apply hrun henter

/-- Two runs of related patterns end alike. -/
theorem eval_alike (n depth : Nat) {p p' : Pattern} (hp : L.evaluations p f p' f')
    (hknown : L.known p f) (hst : L.InStep st st') (hacceptable : st.Acceptable) :
  L.Alike L.outcomes (p.eval o n depth f st) (p'.eval o' n (depth + L.ahead) f' st')
  := by
  induction n generalizing depth p p' f f' st st' with
  | zero => exact .error (e := .tooDeep) hst.toDoneAlike
  | succ n ih =>
    apply eval_succ_alike hst
    intro henter
    apply run_alike (I := Progress.Acceptable) (L.plan_corresponds hknown hp) (p.plan_keeps f)
      henter hacceptable
    · exact fun q st r st' hst h => Question.answer_accepts hst h
    · -- a plan stops only for want of a rule, and that fault has no position
      rintro e ⟨name, -, -, rfl⟩
      rfl
    · intro q q' st st' hasks hq hacceptable hst
      cases hq with
      | evaluate hp =>
        apply ih (depth + 1) hp (L.known_hereditary.evaluate hknown hasks) hst hacceptable
      | apply hg =>
        apply applyRule_alike hg hst hacceptable
        intro p p' st st' hrule hp hst hacceptable
        have hbody := L.known_hereditary.body hknown hasks hrule
        apply ih (depth + 1) hp hbody hst hacceptable

/-- Questions that are asked side by side are answered alike, where any pattern is known. -/
theorem answer_alike (hknown : ∀ p f, L.known p f) (n depth : Nat) {q q' : Question}
    (hq : L.questions q q') (hst : L.InStep st st') (hacceptable : st.Acceptable) :
  L.Alike L.outcomes (q.answer o (Pattern.eval o n depth) st)
    (q'.answer o' (Pattern.eval o' n (depth + L.ahead)) st')
  := by
  cases hq with
  | @evaluate p p' f f' hp => exact eval_alike n depth hp (hknown p f) hst hacceptable
  | apply hg =>
    apply applyRule_alike hg hst hacceptable
    intro p p' st st' _ hp hst hacceptable
    exact eval_alike n depth hp (hknown p _) hst hacceptable

/-! ### Records -/

/-- Two runs in lockstep have related outcomes or the same fault. -/
inductive Verdicts (L : Lockstep o o') :
    Except Fault Outcome → Except Fault Outcome → Prop where
  | ok {r r' : Outcome} : L.outcomes r r' → Verdicts L (.ok r) (.ok r')
  | error (e : Fault) : Verdicts L (.error e) (.error (e.shift L.shift))

/-- Where positions are not further on in the second run, the outcomes agree or the fault is the
same. -/
theorem Verdicts.agrees {c : Comparison} {x x' : Except Fault Outcome}
    (houtcomes : L.outcomes = Outcome.Agrees c) (hshift : L.shift = 0) (h : L.Verdicts x x') :
  Verdict.Agrees c x x'
  := by
  cases h with
  | ok hr =>
    rw [houtcomes] at hr
    exact .ok hr
  | error e =>
    have heq : e.shift L.shift = e := by cases e <;> simp [Fault.shift, hshift]
    rw [heq]
    exact .error e

theorem Alike.record {x y : Run Outcome} (h : L.Alike L.outcomes (x {}) (y {})) :
  L.Verdicts x.record.outcome y.record.outcome
    ∧ L.DoneAlike x.record.progress y.record.progress
  := by
  simp only [Run.record]
  generalize x {} = z, y {} = z' at h ⊢
  cases h with
  | ok hr hst => exact ⟨.ok hr, hst.toDoneAlike⟩
  | error hdone => exact ⟨.error _, hdone⟩

/-- Matches that start with related patterns and are nowhere ahead of each other have related
outcomes or the same fault, after as many steps, and what they completed compares. -/
theorem runWithin_alike {m m' : Matcher} (L : Lockstep m.options m'.options) (hL : L.ahead = 0)
    {subject subject' : Value} {pos pos' : Nat}
    (hp : L.evaluations m.pattern (.start subject pos m.outer) m'.pattern
      (.start subject' pos' m'.outer))
    (hknown : L.known m.pattern (.start subject pos m.outer)) (n : Nat) :
  L.Verdicts (m.runWithin n subject pos).outcome (m'.runWithin n subject' pos').outcome
    ∧ (m'.runWithin n subject' pos').progress.steps = (m.runWithin n subject pos).progress.steps
    ∧ L.histories (m.runWithin n subject pos).progress.completions
      (m'.runWithin n subject' pos').progress.completions
  := by
  obtain ⟨hverdicts, hsteps, hhistory⟩ :=
    (L.eval_alike n 0 hp hknown (.start hL) .start).record
  simp only [hL, Nat.add_zero] at hverdicts hsteps hhistory
  exact ⟨hverdicts, hsteps, hhistory⟩

end Lockstep

/-! ### Matches with the same options -/

/-- A way in which two matches with the same options evaluate patterns side by side, at the same
positions, with outcomes that agree. -/
structure Unison where
  /-- Which patterns at which foci are evaluated side by side. -/
  evaluations : Pattern → Focus → Pattern → Focus → Prop
  /-- Of which grammars, at which foci, a rule is applied side by side. -/
  applications : String → Grammar → Focus → Grammar → Focus → Prop
  /-- In which comparison the outcomes agree. -/
  comparison : Comparison
  /-- What is known of the patterns and foci of the first match. -/
  known : Pattern → Focus → Prop
  /-- How the completed rule applications of the two matches compare, with their outcomes. -/
  histories : List (Key × Outcome) → List (Key × Outcome) → Prop
  known_hereditary : Hereditary known
  plan_corresponds {p p' : Pattern} {f f' : Focus} : known p f → evaluations p f p' f' →
    (p.plan f).Corresponds
      (Alongside.correspondence comparison (Question.Related evaluations applications))
      (Outcome.Agrees comparison) (p'.plan f')
  pos_eq {rule : String} {g g' : Grammar} {f f' : Focus} :
    applications rule g f g' f' → f.pos = f'.pos
  body {rule : String} {g g' : Grammar} {f f' : Focus} : applications rule g f g' f' →
    Option.Rel (fun p p' => evaluations p (f.inScope g) p' (f'.inScope g'))
      (g.rule? rule) (g'.rule? rule)
  same_eq {rule rule₁ : String} {g g' g₁ g₁' : Grammar} {f f' f₁ f₁' : Focus} :
    applications rule g f g' f' → applications rule₁ g₁ f₁ g₁' f₁' →
      (f.key g rule).same (f₁.key g₁ rule₁) = (f'.key g' rule).same (f₁'.key g₁' rule₁)
  histories_nil : histories [] []
  histories_concat {rule : String} {g g' : Grammar} {f f' : Focus} {r r' : Outcome}
    {cs cs' : List (Key × Outcome)} :
    applications rule g f g' f' → r.Agrees comparison r' → histories cs cs' →
      histories (cs ++ [(f.key g rule, r)]) (cs' ++ [(f'.key g' rule, r')])

namespace Unison

/-- Matches in unison are in lockstep, whatever their options are. -/
def lockstep (U : Unison) (o : Options) : Lockstep o o where
  evaluations := U.evaluations
  applications := U.applications
  outcomes := Outcome.Agrees U.comparison
  known := U.known
  shift := 0
  ahead := 0
  histories := U.histories
  known_hereditary := U.known_hereditary
  memoize_eq := rfl
  brokenCeiling?_eq _ _ := rfl
  plan_corresponds := U.plan_corresponds
  pos_eq h := (U.pos_eq h).symm
  body := U.body
  same_eq := U.same_eq
  histories_nil := U.histories_nil
  histories_concat := U.histories_concat

/-- Matches in unison have outcomes that agree or the same fault, after as many steps, and what they
completed compares. -/
theorem runWithin_alike (U : Unison) (o : Options) {p p' : Pattern} {outer outer' : Option Grammar}
    {subject subject' : Value} {pos pos' : Nat}
    (hp : U.evaluations p (.start subject pos outer) p' (.start subject' pos' outer'))
    (hknown : U.known p (.start subject pos outer)) (n : Nat) :
  Verdict.Agrees U.comparison (Matcher.runWithin n ⟨p, outer, o⟩ subject pos).outcome
      (Matcher.runWithin n ⟨p', outer', o⟩ subject' pos').outcome
    ∧ (Matcher.runWithin n ⟨p, outer, o⟩ subject pos).progress.steps
      = (Matcher.runWithin n ⟨p', outer', o⟩ subject' pos').progress.steps
    ∧ U.histories (Matcher.runWithin n ⟨p, outer, o⟩ subject pos).progress.completions
      (Matcher.runWithin n ⟨p', outer', o⟩ subject' pos').progress.completions
  := by
  obtain ⟨hverdicts, hsteps, hhistories⟩ :=
    @Lockstep.runWithin_alike ⟨p, outer, o⟩ ⟨p', outer', o⟩ (U.lockstep o) rfl _ _ _ _ hp hknown n
  exact ⟨hverdicts.agrees rfl rfl, hsteps.symm, hhistories⟩

end Unison

/-! ### Matches without ceilings -/

/-- A way in which two matches evaluate patterns side by side, with the same outcomes at the same
positions. -/
structure Pairing where
  /-- Which patterns at which foci are evaluated side by side. -/
  evaluations : Pattern → Focus → Pattern → Focus → Prop
  /-- Of which grammars, at which foci, a rule is applied side by side. -/
  applications : Grammar → Focus → Grammar → Focus → Prop
  /-- What is known of the patterns and foci of the first match. -/
  known : Pattern → Focus → Prop
  known_hereditary : Hereditary known
  plan_corresponds {p p' : Pattern} {f f' : Focus} : known p f → evaluations p f p' f' →
    (p.plan f).Corresponds
      (Alongside.correspondence .identical (Question.Related evaluations fun _ => applications))
      (Outcome.Agrees .identical) (p'.plan f')
  pos_eq {g g' : Grammar} {f f' : Focus} : applications g f g' f' → f.pos = f'.pos
  body {g g' : Grammar} {f f' : Focus} (rule : String) : applications g f g' f' →
    Option.Rel (fun p p' => evaluations p (f.inScope g) p' (f'.inScope g'))
      (g.rule? rule) (g'.rule? rule)
  same_eq {g g' g₁ g₁' : Grammar} {f f' f₁ f₁' : Focus} (rule rule₁ : String) :
    applications g f g' f' → applications g₁ f₁ g₁' f₁' →
      (f.key g rule).same (f₁.key g₁ rule₁) = (f'.key g' rule).same (f₁'.key g₁' rule₁)

/-- Paired matches without ceilings are in lockstep, the second one some evaluations ahead. -/
def Pairing.lockstep (P : Pairing) {o : Options} (hsteps : o.maxSteps = none)
    (hdepth : o.maxDepth = none) (ahead : Nat) : Lockstep o o where
  evaluations := P.evaluations
  applications _ := P.applications
  outcomes := Outcome.Agrees .identical
  known := P.known
  shift := 0
  ahead := ahead
  histories _ _ := True
  known_hereditary := P.known_hereditary
  memoize_eq := rfl
  brokenCeiling?_eq steps depth := by
    rw [Pattern.brokenCeiling?_of_no_ceilings hsteps hdepth,
      Pattern.brokenCeiling?_of_no_ceilings hsteps hdepth]
  plan_corresponds := P.plan_corresponds
  pos_eq h := (P.pos_eq h).symm
  body := P.body _
  same_eq := P.same_eq _ _
  histories_nil := trivial
  histories_concat _ _ _ := trivial

/-- At the start the second match is a step ahead when it has entered a pattern. -/
theorem Pairing.inStep_enter (P : Pairing) {o : Options} (hsteps : o.maxSteps = none)
    (hdepth : o.maxDepth = none) (f : Focus) (depth : Nat) :
  (P.lockstep hsteps hdepth 1).InStep {} (({} : Progress).enter f depth)
  := ⟨⟨rfl, trivial⟩, .nil, .nil⟩

end Peg
