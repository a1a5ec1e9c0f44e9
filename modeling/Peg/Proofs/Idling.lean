import Peg.Proofs.Lockstep

/-!
# Runs that are idle

A run is idle when no rule application is in progress and none is remembered.  A run that remembers
nothing is idle whenever it is not inside a rule application, and there is nothing then by which it
could tell grammars apart.

So two such runs need not keep to one `Lockstep`.  Each time they are idle another one may go on
from there, if it compares them in the same way.  `Lockstep.eval_alike_idle` follows two runs that
are at patterns related in some way of their own outside of the rule applications, and in one
lockstep or another inside of them.
-/

namespace Peg

variable {o o' : Options} {n depth : Nat} {p p' : Pattern} {f f' : Focus} {st st' : Progress}

/-! ### Idle progress -/

/-- No rule application is in progress, and none is remembered. -/
structure Progress.Idle (st : Progress) : Prop where
  active : st.active = []
  memo : st.memo = []

theorem Progress.Idle.acceptable (h : st.Idle) :
  st.Acceptable
  := by
  simp [Progress.Acceptable, h.memo]

theorem applyRule_memo {ev : Evaluator} (ho : o.memoize = false)
    (hev : ∀ p f st, Run.Ends (fun _ st' => st'.memo = st.memo) (fun _ _ => True) (ev p f st))
    (g : Grammar) (rule : String) (f : Focus) (st : Progress) :
  Run.Ends (fun _ st' => st'.memo = st.memo) (fun _ _ => True) (applyRule o ev g rule f st)
  := by
  have happ := applyRule_application o ev g rule f st
  generalize applyRule o ev g rule f st = x at happ ⊢
  cases happ with
  | recalled _ => rfl
  | active _ _ => trivial
  | undefined _ _ _ => trivial
  | @body body _ _ _ =>
    have h := hev body (f.inScope g) (st.begin (f.key g rule))
    cases hbody : ev body (f.inScope g) (st.begin (f.key g rule)) with
    | error e st' =>
      rw [evalBody_error hbody]
      trivial
    | ok r st' =>
      rw [hbody] at h
      rw [evalBody_ok hbody, ho]
      apply h

/-- A run that remembers nothing leaves the memory as it was. -/
theorem Pattern.eval_memo (ho : o.memoize = false) (n depth : Nat) (p : Pattern) (f : Focus)
    (st : Progress) :
  Run.Ends (fun _ st' => st'.memo = st.memo) (fun _ _ => True) (eval o n depth p f st)
  := by
  induction n generalizing depth p f st with
  | zero => trivial
  | succ n ih =>
    rw [eval_succ]
    cases brokenCeiling? o (st.steps + 1) depth with
    | some e => trivial
    | none =>
      have hanswer : ∀ q st, Run.Ends (fun _ st' => st'.memo = st.memo) (fun _ _ => True)
          (Question.answer o (eval o n (depth + 1)) q st) := by
        intro q st
        cases q with
        | evaluate p f => apply ih
        | apply g rule f => apply applyRule_memo ho fun p f st => ih (depth + 1) p f st
      have hrun : Run.Ends (fun _ st' => True ∧ st'.memo = st.memo) (fun _ _ => True)
          ((p.plan f).run (Question.answer o (eval o n (depth + 1))) (st.enter f depth)) := by
        refine (p.plan f).keeps_anything.run (I := fun st' => st'.memo = st.memo) rfl ?_ ?_
        · intro q st' _ hst'
          apply (hanswer q st').imp
          · exact fun _ _ h => ⟨trivial, h.trans hst'⟩
          · exact fun _ _ h => h
        · exact fun _ _ _ _ => trivial
      apply hrun.imp
      · exact fun _ _ h => h.2
      · exact fun _ _ h => h

/-- Idle progress is idle again after an answer, when nothing is remembered. -/
theorem Question.answer_idle (ho : o.memoize = false) (q : Question) (hst : st.Idle) :
  Run.Ends (fun _ st' => st'.Idle) (fun _ _ => True) (q.answer o (Pattern.eval o n depth) st)
  := by
  have hextends : Run.Ends (fun _ => st.Extends depth (depth + n))
      (fun _ => st.Extends depth (depth + n)) (q.answer o (Pattern.eval o n depth) st) := by
    cases q with
    | evaluate p f => apply Pattern.eval_extends
    | apply g rule f => apply applyRule_extends fun p f st => Pattern.eval_extends o n depth p f st
  have hmemo : Run.Ends (fun _ st' => st'.memo = st.memo) (fun _ _ => True)
      (q.answer o (Pattern.eval o n depth) st) := by
    cases q with
    | evaluate p f => apply Pattern.eval_memo ho
    | apply g rule f => apply applyRule_memo ho fun p f st => Pattern.eval_memo ho n depth p f st
  cases h : q.answer o (Pattern.eval o n depth) st with
  | error e st' => trivial
  | ok r st' =>
    rw [h] at hextends hmemo
    exact ⟨hextends.active.trans hst.active, hmemo.trans hst.memo⟩

/-! ### One lockstep after another -/

namespace Lockstep

variable {L M : Lockstep o o'}

theorem InStep.idle (h : L.InStep st st') (hidle : st.Idle) :
  st'.Idle
  := by
  have hactive := h.active
  have hmemo := h.memo
  rw [hidle.active, List.forall₂_nil_left_iff] at hactive
  rw [hidle.memo, List.forall₂_nil_left_iff] at hmemo
  exact ⟨hactive, hmemo⟩

/-- Idle runs are in step when they have done as much. -/
theorem DoneAlike.inStep (h : L.DoneAlike st st') (hidle : st.Idle) (hidle' : st'.Idle) :
  L.InStep st st'
  := by
  use h
  · rw [hidle.active, hidle'.active]
    apply List.Forall₂.nil
  · rw [hidle.memo, hidle'.memo]
    apply List.Forall₂.nil

/-- A lockstep can go on where another one has come to, when the runs are idle: it takes any pattern
and compares the runs in the same way. -/
structure Continues (M L : Lockstep o o') : Prop where
  known (p : Pattern) (f : Focus) : M.known p f
  outcomes_eq : M.outcomes = L.outcomes
  shift_eq : M.shift = L.shift
  ahead_eq : M.ahead = L.ahead
  histories_eq : M.histories = L.histories

theorem Continues.doneAlike_iff (h : M.Continues L) :
  M.DoneAlike st st' ↔ L.DoneAlike st st'
  := by
  constructor
  · rintro ⟨hsteps, hhistory⟩
    rw [h.ahead_eq] at hsteps
    rw [h.histories_eq] at hhistory
    exact ⟨hsteps, hhistory⟩
  · rintro ⟨hsteps, hhistory⟩
    rw [← h.ahead_eq] at hsteps
    rw [← h.histories_eq] at hhistory
    exact ⟨hsteps, hhistory⟩

theorem Continues.inStep (h : M.Continues L) (hst : L.InStep st st') (hidle : st.Idle) :
  M.InStep st st'
  := (h.doneAlike_iff.2 hst.toDoneAlike).inStep hidle (hst.idle hidle)

/-- What is alike in a lockstep that went on is alike in the first one, if the runs are idle
again. -/
theorem Continues.alike (h : M.Continues L) {x y : EStateM.Result Fault Progress Outcome}
    (hxy : M.Alike M.outcomes x y) (hidle : Run.Ends (fun _ st => st.Idle) (fun _ _ => True) x) :
  L.Alike L.outcomes x y
  := by
  cases hxy with
  | ok hr hst =>
    rw [h.outcomes_eq] at hr
    exact .ok hr ((h.doneAlike_iff.1 hst.toDoneAlike).inStep hidle (hst.idle hidle))
  | error hdone =>
    rw [h.shift_eq]
    exact .error (h.doneAlike_iff.1 hdone)

/-- Questions that are asked while two runs are idle: about patterns that are evaluated side by side
outside of rule applications, or such that a lockstep relates which can go on with them. -/
inductive Outside (L : Lockstep o o') (evaluations : Pattern → Focus → Pattern → Focus → Prop) :
    Question → Question → Prop where
  | evaluate {p p' : Pattern} {f f' : Focus} :
    evaluations p f p' f' → Outside L evaluations (.evaluate p f) (.evaluate p' f')
  | continued {M : Lockstep o o'} {q q' : Question} :
    M.Continues L → M.questions q q' → Outside L evaluations q q'

/-- Two idle runs that remember nothing end alike, if the plans of the patterns that they evaluate
side by side go the same way. -/
theorem eval_alike_idle {evaluations : Pattern → Focus → Pattern → Focus → Prop}
    (ho : o.memoize = false)
    (hplan : ∀ {p f p' f'}, evaluations p f p' f' →
      (p.plan f).Corresponds ⟨L.Outside evaluations, fun _ _ => L.outcomes⟩ L.outcomes
        (p'.plan f'))
    (n depth : Nat) (hp : evaluations p f p' f') (hst : L.InStep st st') (hidle : st.Idle) :
  L.Alike L.outcomes (p.eval o n depth f st) (p'.eval o' n (depth + L.ahead) f' st')
  := by
  induction n generalizing depth p p' f f' st st' with
  | zero => exact .error (e := .tooDeep) hst.toDoneAlike
  | succ n ih =>
    apply eval_succ_alike hst
    intro henter
    apply run_alike (I := Progress.Idle) (hplan hp) (p.plan_keeps f) henter
      ⟨hidle.active, hidle.memo⟩
    · intro q st r st' hidle h
      have hagain : Run.Ends (fun _ st' => st'.Idle) (fun _ _ => True)
          (q.answer o (Pattern.eval o n (depth + 1)) st) := q.answer_idle ho hidle
      rw [h] at hagain
      exact ⟨(Question.answer_accepts hidle.acceptable h).1, hagain⟩
    · rintro e ⟨name, -, -, rfl⟩
      rfl
    · intro q q' st st' _ hq hidle hst
      cases hq with
      | evaluate hp => apply ih (depth + 1) hp hst hidle
      | continued hM hq =>
        have halike := answer_alike hM.known n (depth + 1) hq (hM.inStep hst hidle)
          hidle.acceptable
        rw [hM.ahead_eq] at halike
        apply hM.alike halike (q.answer_idle ho hidle)

end Lockstep

end Peg
