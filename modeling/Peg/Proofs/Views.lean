import Peg.Proofs.Guard
import Peg.Proofs.Nesting

/-!
# What a plan comes to in a view

Where a match goes on depends on little of its progress: on the rule applications in progress and on
the outcomes that are remembered, which together are a `View`.  The number of steps, the log and the
depth do not matter without ceilings.

`Plan.ComesTo` is the semantics of plans in views, in big steps and without a bound on the nesting.
By `Pattern.eval_comesTo` every run without ceilings follows it, unless it nests too deeply, and by
`Plan.ComesTo.unique` there is nothing else that it could come to.  Outcomes stop ahead of where
they start, by `Pattern.ComesTo.accepts`, if the remembered ones do.
-/

namespace Peg

/-! ### Views -/

/-- What the evaluation of a pattern sees of the progress of a match. -/
@[ext]
structure View (memoize : Bool) where
  /-- The rule applications in progress, the latest first. -/
  active : List Key
  /-- The remembered outcomes of rule applications. -/
  recalled : Key → Option Outcome
  recalled_congr : ∀ k l : Key, k.same l = true → recalled k = recalled l
  recalled_eq_none : memoize = false → ∀ k, recalled k = none

variable {m : Bool}

namespace View

/-- Whether a rule application is in progress. -/
def isActive (s : View m) (key : Key) : Bool :=
  s.active.any fun k => k.same key

/-- A rule application is put in progress. -/
def begin (s : View m) (key : Key) : View m :=
  { s with active := key :: s.active }

/-- A rule application has ended with an outcome, which is remembered if outcomes are. -/
def complete (s : View m) (key : Key) (r : Outcome) : View m where
  active := Progress.withdraw s.active key
  recalled k := if m && key.same k then some r else s.recalled k
  recalled_congr k l h := by
    have hkey : key.same k = key.same l := Key.same_congr key.same_refl h
    rw [hkey, s.recalled_congr k l h]
  recalled_eq_none hm k := by
    simp [hm, s.recalled_eq_none hm]

end View

/-- What comes of a question in a view: an answer, a stop, or a plan to be carried out in a view,
which then changes with the result. -/
inductive Question.Step (m : Bool) where
  | answered (r : Outcome)
  | stopped (e : Fault)
  | carried (x : Plan Outcome) (s : View m) (finish : Outcome → View m → View m)

/-- What comes of a question in a view.  A pattern is evaluated by its plan.  The application of a
rule is recalled, or stopped, or the plan of the body is carried out with the application in
progress. -/
def Question.step (s : View m) : Question → Question.Step m
  | .evaluate p f => .carried (p.plan f) s fun _ s => s
  | .apply g rule f =>
    let key := f.key g rule
    match s.recalled key with
    | some r => .answered r
    | none =>
      if s.isActive key then .stopped (.leftRecursion rule f.pos)
      else
        match g.rule? rule with
        | none => .stopped (.undefinedRule rule none)
        | some body => .carried (body.plan (f.inScope g)) (s.begin key) fun r s => s.complete key r

namespace Question

variable {s : View m} {g : Grammar} {rule : String} {f : Focus}

theorem step_recalled {r : Outcome} (hr : s.recalled (f.key g rule) = some r) :
  (apply g rule f).step s = .answered r
  := by
  simp only [step, hr]

theorem step_active (hr : s.recalled (f.key g rule) = none)
    (hactive : s.isActive (f.key g rule) = true) :
  (apply g rule f).step s = .stopped (.leftRecursion rule f.pos)
  := by
  simp [step, hr, hactive]

theorem step_undefined (hr : s.recalled (f.key g rule) = none)
    (hactive : s.isActive (f.key g rule) = false) (hrule : g.rule? rule = none) :
  (apply g rule f).step s = .stopped (.undefinedRule rule none)
  := by
  simp [step, hr, hactive, hrule]

theorem step_body {body : Pattern} (hr : s.recalled (f.key g rule) = none)
    (hactive : s.isActive (f.key g rule) = false) (hrule : g.rule? rule = some body) :
  (apply g rule f).step s
    = .carried (body.plan (f.inScope g)) (s.begin (f.key g rule))
      fun r s => s.complete (f.key g rule) r
  := by
  simp [step, hr, hactive, hrule]

/-- All that can come of a question in a view. -/
inductive Steps (s : View m) : Question → Step m → Prop where
  | pattern (p : Pattern) (f : Focus) :
    Steps s (.evaluate p f) (.carried (p.plan f) s fun _ s => s)
  | recalled {g : Grammar} {rule : String} {f : Focus} {r : Outcome} :
    s.recalled (f.key g rule) = some r → Steps s (.apply g rule f) (.answered r)
  | active {g : Grammar} {rule : String} {f : Focus} :
    s.recalled (f.key g rule) = none → s.isActive (f.key g rule) = true →
      Steps s (.apply g rule f) (.stopped (.leftRecursion rule f.pos))
  | undefined {g : Grammar} {rule : String} {f : Focus} :
    s.recalled (f.key g rule) = none → s.isActive (f.key g rule) = false → g.rule? rule = none →
      Steps s (.apply g rule f) (.stopped (.undefinedRule rule none))
  | body {g : Grammar} {rule : String} {f : Focus} {body : Pattern} :
    s.recalled (f.key g rule) = none → s.isActive (f.key g rule) = false →
      g.rule? rule = some body →
      Steps s (.apply g rule f) (.carried (body.plan (f.inScope g)) (s.begin (f.key g rule))
        fun r s => s.complete (f.key g rule) r)

theorem steps (q : Question) (s : View m) :
  q.Steps s (q.step s)
  := by
  cases q with
  | evaluate p f => apply Steps.pattern
  | apply g rule f =>
    cases hr : s.recalled (f.key g rule) with
    | some r => exact step_recalled hr ▸ .recalled hr
    | none =>
      cases hactive : s.isActive (f.key g rule) with
      | true => exact step_active hr hactive ▸ .active hr hactive
      | false =>
        cases hrule : g.rule? rule with
        | none => exact step_undefined hr hactive hrule ▸ .undefined hr hactive hrule
        | some body => exact step_body hr hactive hrule ▸ .body hr hactive hrule

end Question

/-! ### Plans -/

/-- What a plan comes to in a view: a result, with the view that is there then, or a fault. -/
inductive Plan.ComesTo : {α : Type} → Plan α → View m → Except Fault (α × View m) → Prop where
  | done {α : Type} (a : α) (s : View m) : ComesTo (.done a) s (.ok (a, s))
  | stop {α : Type} (e : Fault) (s : View m) : ComesTo (.stop e : Plan α) s (.error e)
  | answered {α : Type} {q : Question} {next : Outcome → Plan α} {s : View m} {r : Outcome}
    {v : Except Fault (α × View m)} :
    q.step s = .answered r → ComesTo (next r) s v → ComesTo (.ask q next) s v
  | stopped {α : Type} {q : Question} {next : Outcome → Plan α} {s : View m} {e : Fault} :
    q.step s = .stopped e → ComesTo (.ask q next) s (.error e)
  | carried {α : Type} {q : Question} {next : Outcome → Plan α} {s s' s'' : View m}
    {x : Plan Outcome} {finish : Outcome → View m → View m} {r : Outcome}
    {v : Except Fault (α × View m)} :
    q.step s = .carried x s' finish → ComesTo x s' (.ok (r, s'')) →
      ComesTo (next r) (finish r s'') v → ComesTo (.ask q next) s v
  | broken {α : Type} {q : Question} {next : Outcome → Plan α} {s s' : View m}
    {x : Plan Outcome} {finish : Outcome → View m → View m} {e : Fault} :
    q.step s = .carried x s' finish → ComesTo x s' (.error e) → ComesTo (.ask q next) s (.error e)

/-- What a pattern comes to at a focus in a view. -/
def Pattern.ComesTo (p : Pattern) (f : Focus) (s : View m) (v : Except Fault (Outcome × View m)) :
    Prop :=
  (p.plan f).ComesTo s v

namespace Plan

variable {α β : Type} {x : Plan α} {q : Question} {next : Outcome → Plan α} {s s' : View m}
variable {v w : Except Fault (α × View m)} {a : α} {e : Fault}

@[simp]
theorem comesTo_done_iff :
  (done a).ComesTo s v ↔ v = .ok (a, s)
  := by
  constructor
  · rintro ⟨⟩
    rfl
  · rintro rfl
    apply ComesTo.done

@[simp]
theorem comesTo_stop_iff :
  (stop e : Plan α).ComesTo s v ↔ v = .error e
  := by
  constructor
  · rintro ⟨⟩
    rfl
  · rintro rfl
    apply ComesTo.stop

theorem comesTo_of_answered {r : Outcome} (hq : q.step s = .answered r) :
  (ask q next).ComesTo s v ↔ (next r).ComesTo s v
  := by
  constructor
  · intro h
    cases h with
    | answered hq' h => cases hq.symm.trans hq'; apply h
    | stopped hq' => cases hq.symm.trans hq'
    | carried hq' _ _ => cases hq.symm.trans hq'
    | broken hq' _ => cases hq.symm.trans hq'
  · exact fun h => .answered hq h

theorem comesTo_of_stopped (hq : q.step s = .stopped e) :
  (ask q next).ComesTo s v ↔ v = .error e
  := by
  constructor
  · intro h
    cases h with
    | answered hq' _ => cases hq.symm.trans hq'
    | stopped hq' => cases hq.symm.trans hq'; rfl
    | carried hq' _ _ => cases hq.symm.trans hq'
    | broken hq' _ => cases hq.symm.trans hq'
  · rintro rfl
    exact .stopped hq

theorem comesTo_of_carried {x : Plan Outcome} {finish : Outcome → View m → View m}
    (hq : q.step s = .carried x s' finish) :
  (ask q next).ComesTo s v
    ↔ (∃ r s'', x.ComesTo s' (.ok (r, s'')) ∧ (next r).ComesTo (finish r s'') v)
      ∨ ∃ e, x.ComesTo s' (.error e) ∧ v = .error e
  := by
  constructor
  · intro h
    cases h with
    | answered hq' _ => cases hq.symm.trans hq'
    | stopped hq' => cases hq.symm.trans hq'
    | carried hq' hx h => cases hq.symm.trans hq'; exact .inl ⟨_, _, hx, h⟩
    | broken hq' hx => cases hq.symm.trans hq'; exact .inr ⟨_, hx, rfl⟩
  · rintro (⟨r, s'', hx, h⟩ | ⟨e, hx, rfl⟩)
    · exact .carried hq hx h
    · exact .broken hq hx

/-- A plan comes to one thing only. -/
theorem ComesTo.unique (h : x.ComesTo s v) (h' : x.ComesTo s w) :
  v = w
  := by
  induction h with
  | done a s => exact (comesTo_done_iff.1 h').symm
  | stop e s => exact (comesTo_stop_iff.1 h').symm
  | answered hq _ ih => apply ih ((comesTo_of_answered hq).1 h')
  | stopped hq => exact ((comesTo_of_stopped hq).1 h').symm
  | carried hq _ _ ihx ih =>
    obtain ⟨r, s'', hx, h'⟩ | ⟨e, hx, -⟩ := (comesTo_of_carried hq).1 h'
    · cases ihx hx
      apply ih h'
    · cases ihx hx
  | broken hq _ ihx =>
    obtain ⟨r, s'', hx, -⟩ | ⟨e, hx, hv⟩ := (comesTo_of_carried hq).1 h'
    · cases ihx hx
    · cases ihx hx
      exact hv.symm

end Plan

/-- What a question comes to in a view. -/
def Question.ComesTo (q : Question) (s : View m) (v : Except Fault (Outcome × View m)) : Prop :=
  (Plan.ask q .done).ComesTo s v

@[simp]
theorem Question.comesTo_evaluate_iff {p : Pattern} {f : Focus} {s : View m}
    {v : Except Fault (Outcome × View m)} :
  (Question.evaluate p f).ComesTo s v ↔ p.ComesTo f s v
  := by
  rw [Question.ComesTo, Plan.comesTo_of_carried rfl]
  simp only [Plan.comesTo_done_iff]
  constructor
  · rintro (⟨r, s', h, rfl⟩ | ⟨e, h, rfl⟩)
    · apply h
    · apply h
  · intro h
    obtain e | ⟨r, s'⟩ := v
    · exact .inr ⟨e, h, rfl⟩
    · exact .inl ⟨r, s', h, rfl⟩

namespace Plan

variable {α β : Type} {x : Plan α} {q : Question} {next : Outcome → Plan α} {s s' : View m}
variable {v w : Except Fault (α × View m)} {a : α} {e : Fault}

/-- A plan that asks comes to what it comes to after the answer, or is stopped by the question. -/
theorem comesTo_ask_iff :
  (ask q next).ComesTo s v
    ↔ (∃ r s', q.ComesTo s (.ok (r, s')) ∧ (next r).ComesTo s' v)
      ∨ ∃ e, q.ComesTo s (.error e) ∧ v = .error e
  := by
  cases hq : q.step s with
  | answered r => simp [Question.ComesTo, comesTo_of_answered hq]
  | stopped e => simp [Question.ComesTo, comesTo_of_stopped hq]
  | carried x s' finish =>
    simp only [Question.ComesTo, comesTo_of_carried hq, comesTo_done_iff]
    constructor
    · rintro (⟨r, s'', hx, h⟩ | ⟨e, hx, rfl⟩)
      · exact .inl ⟨r, _, .inl ⟨r, s'', hx, rfl⟩, h⟩
      · exact .inr ⟨e, .inr ⟨e, hx, rfl⟩, rfl⟩
    · rintro (⟨r, s₁, ⟨_, s'', hx, ⟨⟩⟩ | ⟨_, _, ⟨⟩⟩, h⟩ | ⟨e, ⟨_, _, _, ⟨⟩⟩ | ⟨_, hx, ⟨⟩⟩, rfl⟩)
      · exact .inl ⟨r, s'', hx, h⟩
      · exact .inr ⟨e, hx, rfl⟩

theorem comesTo_evaluate_iff {p : Pattern} {f : Focus} {v : Except Fault (Outcome × View m)} :
  (Plan.evaluate p f).ComesTo s v ↔ p.ComesTo f s v
  := Question.comesTo_evaluate_iff

/-- A plan goes on with its result, or is stopped. -/
theorem comesTo_bind_iff {x : Plan α} {k : α → Plan β} {v : Except Fault (β × View m)} :
  (x >>= k).ComesTo s v
    ↔ (∃ a s', x.ComesTo s (.ok (a, s')) ∧ (k a).ComesTo s' v)
      ∨ ∃ e, x.ComesTo s (.error e) ∧ v = .error e
  := by
  induction x generalizing s with
  | done a => simp
  | stop e => simp
  | ask q next ih =>
    simp only [ask_bind, comesTo_ask_iff, ih]
    constructor
    · rintro (⟨r, s₁, hq, ⟨a, s₂, hx, hk⟩ | ⟨e, hx, rfl⟩⟩ | ⟨e, hq, rfl⟩)
      · exact .inl ⟨a, s₂, .inl ⟨r, s₁, hq, hx⟩, hk⟩
      · exact .inr ⟨e, .inl ⟨r, s₁, hq, hx⟩, rfl⟩
      · exact .inr ⟨e, .inr ⟨e, hq, rfl⟩, rfl⟩
    · rintro (⟨a, s₂, ⟨r, s₁, hq, hx⟩ | ⟨e, -, ⟨⟩⟩, hk⟩ | ⟨e, ⟨r, s₁, hq, hx⟩ | ⟨_, hq, ⟨⟩⟩, rfl⟩)
      · exact .inl ⟨r, s₁, hq, .inl ⟨a, s₂, hx, hk⟩⟩
      · exact .inl ⟨r, s₁, hq, .inr ⟨e, hx, rfl⟩⟩
      · exact .inr ⟨e, hq, rfl⟩

/-- How an evaluation goes on depends on whether it has succeeded. -/
theorem comesTo_evaluate_bind_cases {p : Pattern} {f : Focus} {k : Outcome → Plan α} :
  (Plan.evaluate p f >>= k).ComesTo s v
    ↔ (∃ r s', p.ComesTo f s (.ok (some r, s')) ∧ (k (some r)).ComesTo s' v)
      ∨ (∃ s', p.ComesTo f s (.ok (none, s')) ∧ (k none).ComesTo s' v)
      ∨ ∃ e, p.ComesTo f s (.error e) ∧ v = .error e
  := by
  simp only [comesTo_bind_iff, comesTo_evaluate_iff, Option.exists, ← or_assoc, or_comm]

/-- A result is made of the result of a plan. -/
theorem comesTo_bind_done_iff {x : Plan α} {h : α → β} {v : Except Fault (β × View m)} :
  (x >>= fun a => done (h a)).ComesTo s v ↔ ∃ w, x.ComesTo s w ∧ v = w.map (Prod.map h id)
  := by
  simp only [comesTo_bind_iff, comesTo_done_iff]
  constructor
  · rintro (⟨a, s', hx, rfl⟩ | ⟨e, hx, rfl⟩)
    · exact ⟨_, hx, rfl⟩
    · exact ⟨_, hx, rfl⟩
  · rintro ⟨e | ⟨a, s'⟩, hx, rfl⟩
    · exact .inr ⟨e, hx, rfl⟩
    · exact .inl ⟨a, s', hx, rfl⟩

/-- A result is made of the outcome. -/
theorem comesTo_evaluate_bind_done_iff {p : Pattern} {f : Focus} {h : Outcome → α} :
  (Plan.evaluate p f >>= fun r => done (h r)).ComesTo s v
    ↔ ∃ w, p.ComesTo f s w ∧ v = w.map (Prod.map h id)
  := by
  simp only [comesTo_bind_done_iff, comesTo_evaluate_iff]

end Plan

/-! ### Operations on patterns -/

namespace Pattern

variable {p q : Pattern} {f : Focus} {s : View m} {v : Except Fault (Outcome × View m)}

/-- The second pattern of a sequence goes on where the first one has stopped. -/
theorem comesTo_sequence_iff :
  (sequence p q).ComesTo f s v
    ↔ (∃ r s' w, p.ComesTo f s (.ok (some r, s')) ∧ q.ComesTo (f.moveTo r.stop) s' w
        ∧ v = w.map (Prod.map (Option.map r.after) id))
      ∨ (∃ s', p.ComesTo f s (.ok (none, s')) ∧ v = .ok (none, s'))
      ∨ ∃ e, p.ComesTo f s (.error e) ∧ v = .error e
  := by
  refine Plan.comesTo_evaluate_bind_cases.trans ?_
  simp only [Plan.comesTo_evaluate_bind_done_iff, Plan.pure_eq, Plan.comesTo_done_iff,
    exists_and_left]

/-- The second pattern of a choice is tried where the first one fails. -/
theorem comesTo_choice_iff :
  (choice p q).ComesTo f s v
    ↔ (∃ r s', p.ComesTo f s (.ok (some r, s')) ∧ v = .ok (some r, s'))
      ∨ (∃ s', p.ComesTo f s (.ok (none, s')) ∧ q.ComesTo f s' v)
      ∨ ∃ e, p.ComesTo f s (.error e) ∧ v = .error e
  := by
  refine Plan.comesTo_evaluate_bind_cases.trans ?_
  simp only [Plan.comesTo_evaluate_iff, Plan.pure_eq, Plan.comesTo_done_iff]

/-- A pattern without another one is tried where that one fails. -/
theorem comesTo_difference_iff :
  (difference p q).ComesTo f s v
    ↔ (∃ r s', q.ComesTo f s (.ok (some r, s')) ∧ v = .ok (none, s'))
      ∨ (∃ s', q.ComesTo f s (.ok (none, s')) ∧ p.ComesTo f s' v)
      ∨ ∃ e, q.ComesTo f s (.error e) ∧ v = .error e
  := by
  refine Plan.comesTo_evaluate_bind_cases.trans ?_
  simp only [Plan.comesTo_evaluate_iff, Plan.pure_eq, Plan.comesTo_done_iff]

/-- An inverted pattern succeeds where the pattern fails. -/
theorem comesTo_invert_iff :
  (invert p).ComesTo f s v
    ↔ (∃ r s', p.ComesTo f s (.ok (some r, s')) ∧ v = .ok (none, s'))
      ∨ (∃ s', p.ComesTo f s (.ok (none, s')) ∧ v = .ok (some f.stay, s'))
      ∨ ∃ e, p.ComesTo f s (.error e) ∧ v = .error e
  := by
  refine Plan.comesTo_evaluate_bind_cases.trans ?_
  simp only [Plan.pure_eq, Plan.comesTo_done_iff]

/-- A pattern ahead succeeds where the pattern does. -/
theorem comesTo_lookahead_iff :
  (lookahead p).ComesTo f s v
    ↔ (∃ r s', p.ComesTo f s (.ok (some r, s')) ∧ v = .ok (some f.stay, s'))
      ∨ (∃ s', p.ComesTo f s (.ok (none, s')) ∧ v = .ok (none, s'))
      ∨ ∃ e, p.ComesTo f s (.error e) ∧ v = .error e
  := by
  refine Plan.comesTo_evaluate_bind_cases.trans ?_
  simp only [Plan.pure_eq, Plan.comesTo_done_iff]

end Pattern

/-! ### Acceptable views -/

/-- Every outcome that is remembered in a view is acceptable for its key. -/
def View.Acceptable (s : View m) : Prop :=
  ∀ k r, s.recalled k = some r → k.Accepts r

theorem View.Acceptable.complete {s : View m} {key : Key} {r : Outcome} (h : s.Acceptable)
    (hr : key.Accepts r) :
  (s.complete key r).Acceptable
  := by
  intro k r' hk
  simp only [View.complete] at hk
  split at hk
  · next hsame =>
    cases hk
    rw [Bool.and_eq_true] at hsame
    apply hr.congr hsame.2
  · apply h k r' hk

/-- The result of a plan that keeps to terms has its property, when the terms allow all acceptable
answers. -/
theorem Plan.ComesTo.keeps {α : Type} {x : Plan α} {a : α} {s s' : View m} {t : Terms}
    {P : α → Prop} (h : x.ComesTo s (.ok (a, s'))) (hx : x.Keeps t P)
    (ht : ∀ q r, q.focus.Accepts r → t.answers q r) (hs : s.Acceptable) :
  P a ∧ s'.Acceptable
  := by
  generalize hv : Except.ok (a, s') = v at h
  induction h generalizing s' t with
  | done b s =>
    cases hv
    exact ⟨hx, hs⟩
  | stop e s => cases hv
  | stopped _ => cases hv
  | broken _ _ _ => cases hv
  | @answered α q next s r v hq _ ih =>
    have hsteps := hq ▸ q.steps s
    cases hsteps with
    | recalled hr =>
      have haccepts := (Focus.key_accepts_iff _ _).1 (hs _ _ hr)
      apply ih (hx.2 _ (ht _ _ haccepts)) ht hs hv
  | @carried α q next s s₁ s₂ x finish r v hq _ _ ihx ih =>
    have hsteps := hq ▸ q.steps s
    cases hsteps with
    | pattern p f =>
      obtain ⟨haccepts, hs₂⟩ := ihx (p.plan_keeps f) (fun _ _ h => h) hs rfl
      apply ih (hx.2 _ (ht _ _ haccepts)) ht hs₂ hv
    | @body g rule f body _ _ _ =>
      obtain ⟨haccepts, hs₂⟩ := ihx (body.plan_keeps (f.inScope g)) (fun _ _ h => h) hs rfl
      have haccepts : f.Accepts r := haccepts
      have hcomplete := hs₂.complete ((Focus.key_accepts_iff g rule).2 haccepts)
      apply ih (hx.2 _ (ht _ _ haccepts)) ht hcomplete hv

/-- An outcome stops ahead of where it starts, and views stay acceptable. -/
theorem Pattern.ComesTo.accepts {p : Pattern} {f : Focus} {s t : View m} {r : Outcome}
    (h : p.ComesTo f s (.ok (r, t))) (hs : s.Acceptable) :
  f.Accepts r ∧ t.Acceptable
  := Plan.ComesTo.keeps h (p.plan_keeps f) (fun _ _ h => h) hs

/-! ### Runs -/

namespace Progress

variable {o : Options}

theorem recalled?_congr (o : Options) (st : Progress) {k l : Key} (h : k.same l = true) :
  recalled? o st k = recalled? o st l
  := by
  have hsame : ∀ e : Key × Outcome, e.1.same k = e.1.same l :=
    fun e => Key.same_congr e.1.same_refl h
  simp only [recalled?, remembered?, hsame]

/-- What is seen of the progress of a match with given options. -/
def view (o : Options) (st : Progress) : View o.memoize where
  active := st.active
  recalled := recalled? o st
  recalled_congr _ _ h := recalled?_congr o st h
  recalled_eq_none ho _ := recalled?_of_not_memoize ho st _

/-- Nothing is remembered at the start of a match. -/
theorem acceptable_view_start (o : Options) :
  (view o {}).Acceptable
  := by
  intro k r hk
  simp [view, recalled?, remembered?] at hk

@[simp]
theorem view_enter (st : Progress) (f : Focus) (depth : Nat) :
  (st.enter f depth).view o = st.view o
  := rfl

@[simp]
theorem view_begin (st : Progress) (key : Key) :
  (st.begin key).view o = (st.view o).begin key
  := rfl

@[simp]
theorem view_complete (st : Progress) (key : Key) (r : Outcome) :
  (st.complete o.memoize key r).view o = (st.view o).complete key r
  := by
  ext k
  · rfl
  · simp only [view, View.complete, recalled?, complete, remembered?]
    cases o.memoize with
    | false => rfl
    | true =>
      simp only [if_true, List.find?_cons, Bool.true_and]
      cases key.same k <;> rfl

end Progress

variable {o : Options}

/-- A run does what a plan comes to in the view of the progress, unless it nests too deeply. -/
def Run.ComesTo {α : Type} (o : Options) (x : Plan α) (st : Progress) :
    EStateM.Result Fault Progress α → Prop :=
  Run.Ends (fun a st' => x.ComesTo (st.view o) (.ok (a, st'.view o)))
    fun e _ => e.isCeiling = true ∨ x.ComesTo (st.view o) (.error e)

/-- A plan is carried out as it comes to, when its questions are answered so. -/
theorem Plan.run_comesTo {α : Type} (x : Plan α) {answer : Question → Run Outcome}
    (h : ∀ q st, Run.ComesTo o (.ask q .done) st (answer q st)) (st : Progress) :
  Run.ComesTo o x st (x.run answer st)
  := by
  induction x generalizing st with
  | done a => apply ComesTo.done
  | stop e => exact .inr (.stop e _)
  | ask q next ih =>
    rw [run_ask]
    have hq := h q st
    cases hrun : answer q st with
    | ok r st' =>
      rw [hrun] at hq
      apply (ih r st').imp
      · exact fun a st'' ha => comesTo_ask_iff.2 (.inl ⟨r, _, hq, ha⟩)
      · rintro e st'' (he | he)
        · exact .inl he
        · exact .inr (comesTo_ask_iff.2 (.inl ⟨r, _, hq, he⟩))
    | error e st' =>
      rw [hrun] at hq
      obtain he | he := hq
      · exact .inl he
      · exact .inr (comesTo_ask_iff.2 (.inr ⟨e, he, rfl⟩))

theorem applyRule_comesTo {ev : Evaluator}
    (hev : ∀ p f st, Run.ComesTo o (p.plan f) st (ev p f st)) (g : Grammar) (rule : String)
    (f : Focus) (st : Progress) :
  Run.ComesTo o (.ask (.apply g rule f) .done) st (applyRule o ev g rule f st)
  := by
  have happ := applyRule_application o ev g rule f st
  generalize applyRule o ev g rule f st = x at happ ⊢
  cases happ with
  | recalled hr => exact (Plan.comesTo_of_answered (Question.step_recalled hr)).2 (.done _ _)
  | active hr hactive => exact .inr (.stopped (Question.step_active hr hactive))
  | undefined hr hactive hrule => exact .inr (.stopped (Question.step_undefined hr hactive hrule))
  | @body body hr hactive hrule =>
    have hstep : (Question.apply g rule f).step (st.view o) = _ :=
      Question.step_body hr hactive hrule
    have hbody := hev body (f.inScope g) (st.begin (f.key g rule))
    cases hrun : ev body (f.inScope g) (st.begin (f.key g rule)) with
    | ok r st' =>
      rw [hrun] at hbody
      rw [evalBody_ok hrun]
      have hend : (Plan.done r).ComesTo ((st'.view o).complete (f.key g rule) r)
          (.ok (r, (st'.complete o.memoize (f.key g rule) r).view o)) := by
        simp
      exact .carried hstep hbody hend
    | error e st' =>
      rw [hrun] at hbody
      rw [evalBody_error hrun]
      obtain he | he := hbody
      · exact .inl he
      · exact .inr (.broken hstep he)

/-- A run without ceilings does what the pattern comes to, unless it nests too deeply. -/
theorem Pattern.eval_comesTo (hsteps : o.maxSteps = none) (hdepth : o.maxDepth = none)
    (n depth : Nat) (p : Pattern) (f : Focus) (st : Progress) :
  Run.ComesTo o (p.plan f) st (p.eval o n depth f st)
  := by
  induction n generalizing depth p f st with
  | zero => exact .inl rfl
  | succ n ih =>
    rw [eval_succ, brokenCeiling?_of_no_ceilings hsteps hdepth]
    apply (p.plan f).run_comesTo
    intro q st
    cases q with
    | evaluate p f =>
      apply (ih (depth + 1) p f st).imp
      · exact fun r st' h => Question.comesTo_evaluate_iff.2 h
      · rintro e st' (he | he)
        · exact .inl he
        · exact .inr (Question.comesTo_evaluate_iff.2 he)
    | apply g rule f => apply applyRule_comesTo (ih (depth + 1))

end Peg
