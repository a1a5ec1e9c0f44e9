import Peg.Match.Matcher
import Peg.Proofs.Asking
import Peg.Proofs.Places

/-!
# Runs

A run of the evaluator makes progress and has an outcome, or it is stopped by a fault.  This module
says how runs are put together.  `Plan.Keeps.run` follows a property of the progress along a plan;
`Congruence.run` follows a relation between two ways of answering the questions of a plan.

Two facts about every run are derived.  By `Pattern.eval_extends` a run leaves the rule applications
in progress as they were and adds one visit for each step, at depths from its own on.  By
`Pattern.eval_deeper` a run that does not nest too deeply is the same when it may nest more deeply.
-/

namespace Peg

/-! ### Plans -/

/-- What holds at the end of a run, depending on whether it had a result. -/
def Run.Ends {α : Type} (results : α → Progress → Prop) (faults : Fault → Progress → Prop) :
    EStateM.Result Fault Progress α → Prop
  | .ok a st => results a st
  | .error e st => faults e st

theorem Run.Ends.imp {α : Type} {P Q : α → Progress → Prop} {E F : Fault → Progress → Prop}
    {x : EStateM.Result Fault Progress α} (h : Run.Ends P E x) (hP : ∀ a st, P a st → Q a st)
    (hE : ∀ e st, E e st → F e st) :
  Run.Ends Q F x
  := by
  cases x with
  | ok a st => apply hP a st h
  | error e st => apply hE e st h

/-- The progress that a computation ends with, whether it has a result or not. -/
def Run.finish {α : Type} : EStateM.Result Fault Progress α → Progress
  | .ok _ st => st
  | .error _ st => st

/-- What holds however a computation ends holds of the progress that it ends with. -/
theorem Run.Ends.finish {α : Type} {P : Progress → Prop} {x : EStateM.Result Fault Progress α}
    (h : Run.Ends (fun _ => P) (fun _ => P) x) :
  P (Run.finish x)
  := by
  cases x <;> exact h

section Plan

variable {α : Type} {t : Terms} {P : α → Prop} {x : Plan α} {st : Progress}
variable {answer : Question → Run Outcome} {I : Progress → Prop} {E : Fault → Progress → Prop}

/-- A property of the progress that is kept by allowed answers is kept by a plan which keeps to the
terms. -/
theorem Plan.Keeps.run (hx : x.Keeps t P) (hst : I st)
    (hanswer : ∀ q st, t.asks q → I st →
      Run.Ends (fun r st => t.answers q r ∧ I st) E (answer q st))
    (hstop : ∀ e st, t.stops e → I st → E e st) :
  Run.Ends (fun a st => P a ∧ I st) E (x.run answer st)
  := by
  induction x generalizing st with
  | done a => use hx, hst
  | stop e => apply hstop e st hx hst
  | ask q next ih =>
    rw [Plan.run_ask]
    have hq := hanswer q st hx.1 hst
    cases h : answer q st with
    | error e st' =>
      rw [h] at hq
      apply hq
    | ok r st' =>
      rw [h] at hq
      apply ih r (hx.2 r hq.1) hq.2

/-- The result of a plan that keeps to terms has its property when the answers are allowed. -/
theorem Plan.Keeps.of_run_eq_ok {a : α} {st' : Progress} (hx : x.Keeps t P) (hst : I st)
    (hanswer : ∀ q st r st', I st → answer q st = .ok r st' → t.answers q r ∧ I st')
    (h : x.run answer st = .ok a st') :
  P a ∧ I st'
  := by
  have hrun : Run.Ends (fun a st => P a ∧ I st) (fun _ _ => True) (x.run answer st) := by
    apply hx.run hst
    · intro q st _ hst
      cases hr : answer q st with
      | ok r st' => exact hanswer q st r st' hst hr
      | error e st' => trivial
    · exact fun _ _ _ _ => trivial
  rw [h] at hrun
  exact hrun

end Plan

/-- A relation between computations which is kept by results, faults and sequencing. -/
structure Congruence (m m' : Type → Type) [Monad m] [MonadExcept Fault m] [Monad m']
    [MonadExcept Fault m'] where
  rel {α : Type} : m α → m' α → Prop
  pure {α : Type} (a : α) : rel (pure a) (pure a)
  throw {α : Type} (e : Fault) : rel (throw e : m α) (throw e : m' α)
  bind {α β : Type} {x : m α} {y : m' α} {k : α → m β} {l : α → m' β} :
    rel x y → (∀ a, rel (k a) (l a)) → rel (x >>= k) (y >>= l)

/-- A plan is carried out in related ways when its questions are answered in related ways. -/
theorem Congruence.run {m m' : Type → Type} [Monad m] [MonadExcept Fault m] [Monad m']
    [MonadExcept Fault m'] (C : Congruence m m') {α : Type} (x : Plan α)
    {answer : Question → m Outcome} {answer' : Question → m' Outcome}
    (h : ∀ q, C.rel (answer q) (answer' q)) :
  C.rel (x.run answer) (x.run answer')
  := by
  induction x with
  | done a => apply C.pure
  | stop e => apply C.throw
  | ask q next ih => apply C.bind (h q) ih

/-! ### Rules -/

section Rules

variable {o : Options} {ev : Evaluator} {g : Grammar} {rule : String} {f : Focus}
variable {st st' : Progress} {key : Key} {body : Pattern} {r : Outcome} {e : Fault}

theorem evalBody_ok (h : ev body f (st.begin key) = .ok r st') :
  evalBody o ev key body f st = .ok r (st'.complete o.memoize key r)
  := by
  simp only [evalBody, h]

theorem evalBody_error (h : ev body f (st.begin key) = .error e st') :
  evalBody o ev key body f st = .error e (st'.abandon key)
  := by
  simp only [evalBody, h]

theorem recalled?_eq_some (h : recalled? o st key = some r) :
  ∃ e ∈ st.memo, e.1.same key = true ∧ e.2 = r
  := by
  rw [recalled?] at h
  split at h
  · obtain ⟨e, he, rfl⟩ := Option.map_eq_some_iff.1 h
    exact ⟨e, List.mem_of_find?_eq_some he, by simpa using List.find?_some he, rfl⟩
  · cases h

/-- What the application of a rule comes to: a remembered outcome, a stop because it is in progress
already or because there is no such rule, or what evaluating the body comes to. -/
inductive Application (o : Options) (ev : Evaluator) (g : Grammar) (rule : String) (f : Focus)
    (st : Progress) : EStateM.Result Fault Progress Outcome → Prop where
  | recalled {r : Outcome} :
    recalled? o st (f.key g rule) = some r → Application o ev g rule f st (.ok r st)
  | active :
    recalled? o st (f.key g rule) = none → st.isActive (f.key g rule) = true →
      Application o ev g rule f st (.error (.leftRecursion rule f.pos) st)
  | undefined :
    recalled? o st (f.key g rule) = none → st.isActive (f.key g rule) = false →
      g.rule? rule = none → Application o ev g rule f st (.error (.undefinedRule rule none) st)
  | body {body : Pattern} :
    recalled? o st (f.key g rule) = none → st.isActive (f.key g rule) = false →
      g.rule? rule = some body →
      Application o ev g rule f st (evalBody o ev (f.key g rule) body (f.inScope g) st)

theorem applyRule_application (o : Options) (ev : Evaluator) (g : Grammar) (rule : String)
    (f : Focus) (st : Progress) :
  Application o ev g rule f st (applyRule o ev g rule f st)
  := by
  unfold applyRule
  dsimp only
  split
  · next h => apply Application.recalled h
  · next h =>
    split
    · next hactive => apply Application.active h hactive
    · next hactive =>
      have hactive := Bool.eq_false_iff.2 hactive
      split
      · next hrule => apply Application.undefined h hactive hrule
      · next hrule => apply Application.body h hactive hrule

theorem applyRule_recalled (h : recalled? o st (f.key g rule) = some r) :
  applyRule o ev g rule f st = .ok r st
  := by
  simp only [applyRule, h]

theorem applyRule_active (h : recalled? o st (f.key g rule) = none)
    (hactive : st.isActive (f.key g rule) = true) :
  applyRule o ev g rule f st = .error (.leftRecursion rule f.pos) st
  := by
  simp only [applyRule, h, hactive, if_true]

theorem applyRule_undefined (h : recalled? o st (f.key g rule) = none)
    (hactive : st.isActive (f.key g rule) = false) (hrule : g.rule? rule = none) :
  applyRule o ev g rule f st = .error (.undefinedRule rule none) st
  := by
  simp [applyRule, h, hactive, hrule]

theorem applyRule_body (h : recalled? o st (f.key g rule) = none)
    (hactive : st.isActive (f.key g rule) = false) (hrule : g.rule? rule = some body) :
  applyRule o ev g rule f st = evalBody o ev (f.key g rule) body (f.inScope g) st
  := by
  simp [applyRule, h, hactive, hrule]

end Rules

/-! ### Ceilings -/

/-- The faults of ceilings, of the one on nesting too. -/
def Fault.isCeiling : Fault → Bool
  | .stepsExceeded _ => true
  | .depthExceeded _ => true
  | .tooDeep => true
  | .leftRecursion _ _ => false
  | .undefinedRule _ _ => false

theorem Pattern.isCeiling_of_broken {o : Options} {steps depth : Nat} {e : Fault}
    (h : brokenCeiling? o steps depth = some e) :
  e.isCeiling = true
  := by
  rw [brokenCeiling?] at h
  split at h <;> cases h <;> rfl

/-! ### Progress -/

namespace Progress

variable {st st' st'' : Progress} {low high : Nat}

@[simp]
theorem visits_enter (st : Progress) (f : Focus) (depth : Nat) :
  (st.enter f depth).visits = st.visits ++ [⟨f, depth, st.active⟩]
  := by
  simp [visits, enter]

@[simp]
theorem visits_begin (st : Progress) (key : Key) :
  (st.begin key).visits = st.visits
  := by
  simp [visits, begin]

@[simp]
theorem visits_abandon (st : Progress) (key : Key) :
  (st.abandon key).visits = st.visits
  := by
  simp [visits, abandon]

@[simp]
theorem visits_complete (st : Progress) (memoize : Bool) (key : Key) (r : Outcome) :
  (st.complete memoize key r).visits = st.visits
  := by
  simp [visits, complete]

@[simp]
theorem completions_enter (st : Progress) (f : Focus) (depth : Nat) :
  (st.enter f depth).completions = st.completions
  := by
  simp [completions, enter]

@[simp]
theorem completions_begin (st : Progress) (key : Key) :
  (st.begin key).completions = st.completions
  := by
  simp [completions, begin]

@[simp]
theorem completions_abandon (st : Progress) (key : Key) :
  (st.abandon key).completions = st.completions
  := by
  simp [completions, abandon]

@[simp]
theorem completions_complete (st : Progress) (memoize : Bool) (key : Key) (r : Outcome) :
  (st.complete memoize key r).completions = st.completions ++ [(key, r)]
  := by
  simp [completions, complete]

@[simp]
theorem withdraw_cons_self (active : List Key) (key : Key) :
  withdraw (key :: active) key = active
  := by
  simp [withdraw, key.same_refl]

/-- Further progress with the same rule applications in progress.  Every step of it has a visit, at
a depth within some bounds. -/
structure Extends (low high : Nat) (st st' : Progress) : Prop where
  active : st'.active = st.active
  visits : ∃ vs : List Visit, st'.visits = st.visits ++ vs
    ∧ st'.steps = st.steps + vs.length ∧ ∀ v ∈ vs, low ≤ v.depth ∧ v.depth < high

theorem Extends.refl (st : Progress) :
  st.Extends low high st
  := ⟨rfl, [], by simp, rfl, by simp⟩

theorem Extends.trans (h : st.Extends low high st') (h' : st'.Extends low high st'') :
  st.Extends low high st''
  := by
  obtain ⟨ha, vs, hvs, hsteps, hdepth⟩ := h
  obtain ⟨ha', vs', hvs', hsteps', hdepth'⟩ := h'
  use ha'.trans ha, vs ++ vs'
  refine ⟨?_, ?_, ?_⟩
  · rw [hvs', hvs, List.append_assoc]
  · rw [hsteps', hsteps, List.length_append, Nat.add_assoc]
  · intro v hv
    rcases List.mem_append.1 hv with hv | hv
    · apply hdepth v hv
    · apply hdepth' v hv

theorem Extends.mono {low' high' : Nat} (h : st.Extends low high st') (hlow : low' ≤ low)
    (hhigh : high ≤ high') :
  st.Extends low' high' st'
  := by
  obtain ⟨ha, vs, hvs, hsteps, hdepth⟩ := h
  use ha, vs, hvs, hsteps
  intro v hv
  obtain ⟨h₁, h₂⟩ := hdepth v hv
  omega

theorem extends_enter (st : Progress) (f : Focus) (depth : Nat) (h : depth < high) :
  st.Extends depth high (st.enter f depth)
  := ⟨rfl, [⟨f, depth, st.active⟩], by simp, rfl, by simpa using h⟩

/-- What happens while a rule application is in progress extends what was before, once the
application has ended. -/
theorem Extends.of_begin {key : Key} (h : (st.begin key).Extends low high st') :
  st.Extends low high (st'.abandon key)
    ∧ ∀ memoize r, st.Extends low high (st'.complete memoize key r)
  := by
  obtain ⟨ha, vs, hvs, hsteps, hdepth⟩ := h
  have hactive : withdraw st'.active key = st.active := by
    rw [ha]
    apply withdraw_cons_self
  rw [visits_begin] at hvs
  constructor
  · use hactive, vs, by simpa using hvs, hsteps, hdepth
  · intro memoize r
    use hactive, vs, by simpa using hvs, hsteps, hdepth

end Progress

/-- The application of a rule enters the evaluations that the evaluation of its body enters. -/
theorem evalBody_finish (o : Options) (ev : Evaluator) (key : Key) (body : Pattern) (f : Focus)
    (st : Progress) :
  (Run.finish (evalBody o ev key body f st)).visits
      = (Run.finish (ev body f (st.begin key))).visits
    ∧ (Run.finish (evalBody o ev key body f st)).steps
      = (Run.finish (ev body f (st.begin key))).steps
  := by
  cases h : ev body f (st.begin key) with
  | ok r st' =>
    rw [evalBody_ok h]
    use Progress.visits_complete st' o.memoize key r
    rfl
  | error e st' =>
    rw [evalBody_error h]
    use Progress.visits_abandon st' key
    rfl

namespace Pattern

variable {o : Options} {n m depth : Nat} {p : Pattern} {f : Focus} {st : Progress}

/-- An evaluation is entered, and stopped if that breaks a ceiling; else the plan is carried out. -/
theorem eval_succ (o : Options) (n depth : Nat) (p : Pattern) (f : Focus) (st : Progress) :
  eval o (n + 1) depth p f st =
    match brokenCeiling? o (st.steps + 1) depth with
    | some e => .error e (st.enter f depth)
    | none =>
      (p.plan f).run (Question.answer o (eval o n (depth + 1))) (st.enter f depth)
  := by
  simp only [eval, step, enter, Bind.bind, EStateM.bind, Progress.enter]
  cases brokenCeiling? o (st.steps + 1) depth <;> rfl

end Pattern

/-- Every plan keeps to terms that allow everything. -/
theorem Plan.keeps_anything {α : Type} (x : Plan α) :
  x.Keeps ⟨fun _ => True, fun _ _ => True, fun _ => True⟩ fun _ => True
  := by
  induction x with
  | done a => trivial
  | stop e => trivial
  | ask q next ih => use trivial, fun r _ => ih r

/-! ### Runs extend what was before -/

section Extends

variable {o : Options} {ev : Evaluator} {low high : Nat}

/-- The application of a rule only makes further progress when evaluations do. -/
theorem applyRule_extends
    (hev : ∀ p f st, Run.Ends (fun _ => st.Extends low high) (fun _ => st.Extends low high)
      (ev p f st))
    (g : Grammar) (rule : String) (f : Focus) (st : Progress) :
  Run.Ends (fun _ => st.Extends low high) (fun _ => st.Extends low high)
    (applyRule o ev g rule f st)
  := by
  have happ := applyRule_application o ev g rule f st
  generalize applyRule o ev g rule f st = x at happ ⊢
  cases happ with
  | recalled _ => apply Progress.Extends.refl
  | active _ _ => apply Progress.Extends.refl
  | undefined _ _ _ => apply Progress.Extends.refl
  | @body body _ _ _ =>
    have h := hev body (f.inScope g) (st.begin (f.key g rule))
    cases hbody : ev body (f.inScope g) (st.begin (f.key g rule)) with
    | ok r st' =>
      rw [hbody] at h
      rw [evalBody_ok hbody]
      apply h.of_begin.2
    | error e st' =>
      rw [hbody] at h
      rw [evalBody_error hbody]
      apply h.of_begin.1

/-- A run makes further progress, with visits at most as deep as it may nest. -/
theorem Pattern.eval_extends (o : Options) (n depth : Nat) (p : Pattern) (f : Focus)
    (st : Progress) :
  Run.Ends (fun _ => st.Extends depth (depth + n)) (fun _ => st.Extends depth (depth + n))
    (eval o n depth p f st)
  := by
  induction n generalizing depth p f st with
  | zero => apply Progress.Extends.refl
  | succ n ih =>
    have henter : st.Extends depth (depth + (n + 1)) (st.enter f depth) := by
      apply Progress.extends_enter
      omega
    have hanswer : ∀ q st, Run.Ends (fun _ => st.Extends (depth + 1) (depth + 1 + n))
        (fun _ => st.Extends (depth + 1) (depth + 1 + n))
        (Question.answer o (eval o n (depth + 1)) q st) := by
      intro q st
      cases q with
      | evaluate p f => apply ih
      | apply g rule f => apply applyRule_extends (fun p f st => ih (depth + 1) p f st)
    rw [eval_succ]
    cases brokenCeiling? o (st.steps + 1) depth with
    | some e => apply henter
    | none =>
      apply Run.Ends.imp ((p.plan f).keeps_anything.run henter _ _)
      · intro _ _ h
        apply h.2
      · exact fun _ _ h => h
      · intro q st' _ hst'
        apply (hanswer q st').imp
        · intro r st'' h
          exact ⟨trivial, hst'.trans (h.mono (by omega) (by omega))⟩
        · intro e st'' h
          apply hst'.trans (h.mono (by omega) (by omega))
      · intro _ _ _ h
        apply h

end Extends

/-! ### Runs that may nest more deeply -/

/-- The second computation is the same as the first, unless that one nests too deeply. -/
def Run.Deeper {α : Type} (x y : Run α) : Prop :=
  ∀ st, (∀ st', x st ≠ .error .tooDeep st') → y st = x st

/-- Nesting more deeply is kept by results, faults and sequencing. -/
def deeper : Congruence Run Run where
  rel := Run.Deeper
  pure _ _ _ := rfl
  throw _ _ _ := rfl
  bind {α β x y k l} hx hk st h := by
    simp only [Bind.bind, EStateM.bind] at h ⊢
    cases hst : x st with
    | ok a st' =>
      rw [hx st (by simp [hst]), hst]
      apply hk a st'
      simpa [hst] using h
    | error e st' =>
      have he : e ≠ .tooDeep := by
        rintro rfl
        simp [hst] at h
      rw [hx st (by simp [hst, he]), hst]

section Deeper

variable {o : Options} {ev ev' : Evaluator}

theorem applyRule_deeper (hev : ∀ p f, Run.Deeper (ev p f) (ev' p f)) (g : Grammar)
    (rule : String) (f : Focus) :
  Run.Deeper (applyRule o ev g rule f) (applyRule o ev' g rule f)
  := by
  intro st h
  have happ := applyRule_application o ev g rule f st
  generalize hx : applyRule o ev g rule f st = x at happ h ⊢
  cases happ with
  | recalled hr => rw [applyRule_recalled hr]
  | active hr hactive => rw [applyRule_active hr hactive]
  | undefined hr hactive hrule => rw [applyRule_undefined hr hactive hrule]
  | @body body hr hactive hrule =>
    rw [applyRule_body hr hactive hrule]
    cases hbody : ev body (f.inScope g) (st.begin (f.key g rule)) with
    | ok r st' =>
      rw [evalBody_ok hbody, evalBody_ok]
      rw [hev _ _ _ (by simp [hbody]), hbody]
    | error e st' =>
      rw [evalBody_error hbody] at h ⊢
      rw [evalBody_error]
      rw [hev _ _ _ _, hbody]
      intro st'' he
      rw [hbody] at he
      cases he
      apply h _ rfl

/-- A run that does not nest too deeply is the same when it may nest more deeply. -/
theorem Pattern.eval_deeper {n m : Nat} (hnm : n ≤ m) (depth : Nat) (p : Pattern) (f : Focus) :
  Run.Deeper (eval o n depth p f) (eval o m depth p f)
  := by
  induction n generalizing m depth p f with
  | zero =>
    intro st h
    cases h st rfl
  | succ n ih =>
    cases m with
    | zero => omega
    | succ m =>
      apply deeper.bind
      · intro _ _
        rfl
      · intro _
        apply deeper.run
        intro q
        have hev := fun p f => ih (Nat.le_of_succ_le_succ hnm) (depth + 1) p f
        cases q with
        | evaluate p f => apply hev
        | apply g rule f => apply applyRule_deeper hev

end Deeper

/-! ### Records -/

theorem Run.record_progress {x : Run Outcome} :
  x.record.progress = Run.finish (x {})
  := by
  rw [Run.record]
  cases x {} <;> rfl

theorem Run.record_congr {x y : Run Outcome} (h : x {} = y {}) :
  x.record = y.record
  := by
  simp only [Run.record]
  rw [h]

theorem Run.record_outcome_eq_ok_iff {x : Run Outcome} {r : Outcome} :
  x.record.outcome = .ok r ↔ ∃ st, x {} = .ok r st
  := by
  rw [Run.record]
  cases x {} with
  | ok s st => simp
  | error e st => simp

theorem Run.record_outcome_eq_error_iff {x : Run Outcome} {e : Fault} :
  x.record.outcome = .error e ↔ ∃ st, x {} = .error e st
  := by
  rw [Run.record]
  cases x {} with
  | ok s st => simp
  | error e' st => simp

/-- What holds at the end of a run, with or without a result, holds of the recorded progress. -/
theorem Run.Ends.record {x : Run Outcome} {P : Progress → Prop}
    (h : Run.Ends (fun _ => P) (fun _ => P) (x {})) :
  P x.record.progress
  := by
  rw [Run.record]
  cases hx : x {} <;> rw [hx] at h <;> apply h

end Peg
