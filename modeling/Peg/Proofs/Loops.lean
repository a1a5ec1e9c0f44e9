import Peg.Proofs.CallStack
import Peg.Proofs.Endings
import Peg.Proofs.Positions

/-!
# The rounds of a repetition

A repetition evaluates its pattern again and again, in a loop.  `Plan.posed` lists the questions
that a plan poses while it is carried out, and `Evaluation.parts` the evaluations that another one
begins for them.  For a repetition these are the rounds of the loop.

A loop with a greatest number has at most that many rounds.  One with a least number goes on after
that many rounds only while the pattern consumes something, so the room that is left bounds how
often it can go on.  It stops where the pattern fails or consumes nothing, and never for lack of
rounds.  This is `Matcher.rounds_bounded`.  So the number that the greedy loop is given is never
used up, and any other one that is not below the room would do: `run_repeatGreedily_eq`.
-/

namespace Peg

variable {α β : Type} {p q : Pattern} {f f' : Focus} {st st' : Progress} {n depth room : Nat}

/-! ### The questions posed -/

namespace Plan

variable {answer : Question → Run Outcome} {x : Plan α} {k : α → Plan β} {a : α}

/-- The questions that a plan poses while it is carried out, in order, each with the progress made
by then. -/
def posed (answer : Question → Run Outcome) : Plan α → Progress → List (Question × Progress)
  | done _, _ => []
  | stop _, _ => []
  | ask q next, st =>
    (q, st) ::
      match answer q st with
      | .ok r st' => (next r).posed answer st'
      | .error _ _ => []

theorem mem_posed_iff {q : Question} :
  (q, st') ∈ x.posed answer st ↔ x.Poses answer st q st'
  := by
  constructor
  · intro h
    induction x generalizing st with
    | done _ => cases h
    | stop _ => cases h
    | ask q' next ih =>
      rw [posed] at h
      rcases List.mem_cons.1 h with hfirst | hlater
      · cases hfirst
        exact .first
      · cases hr : answer q' st with
        | error _ _ =>
          rw [hr] at hlater
          cases hlater
        | ok r st₁ =>
          rw [hr] at hlater
          exact .later hr (ih r hlater)
  · intro h
    induction h with
    | first =>
      rw [posed]
      exact List.mem_cons_self
    | later hr _ ih =>
      rw [posed, hr]
      exact List.mem_cons_of_mem _ ih

theorem posed_bind (x : Plan α) (k : α → Plan β) (st : Progress) :
  (x >>= k).posed answer st = x.posed answer st ++
    match x.run answer st with
    | .ok a st' => (k a).posed answer st'
    | .error _ _ => []
  := by
  induction x generalizing st with
  | done a => rfl
  | stop e => rfl
  | ask q next ih =>
    rw [ask_bind, posed, posed, run_ask]
    cases answer q st with
    | error e st' => rfl
    | ok r st' => exact congrArg (List.cons _) (ih r st')

theorem posed_bind_of_run (h : x.run answer st = .ok a st') :
  (x >>= k).posed answer st = x.posed answer st ++ (k a).posed answer st'
  := by
  rw [posed_bind, h]

/-- What is only computed poses nothing. -/
theorem posed_bind_done (x : Plan α) (g : α → β) (st : Progress) :
  (x >>= fun a => done (g a)).posed answer st = x.posed answer st
  := by
  rw [posed_bind]
  cases x.run answer st <;> exact List.append_nil _

theorem posed_evaluate_bind {k : Outcome → Plan β} :
  (evaluate p f >>= k).posed answer st =
    (.evaluate p f, st) ::
      match answer (.evaluate p f) st with
      | .ok r st' => (k r).posed answer st'
      | .error _ _ => []
  := by
  simp only [evaluate, ask_bind, done_bind, posed]

/-- A plan poses at most so many questions if it poses one less after the first. -/
theorem length_posed_evaluate_bind_le {k : Outcome → Plan β}
    (h : ∀ r st', answer (.evaluate p f) st = .ok r st' → ((k r).posed answer st').length ≤ n) :
  ((evaluate p f >>= k).posed answer st).length ≤ n + 1
  := by
  rw [posed_evaluate_bind, List.length_cons]
  apply Nat.succ_le_succ
  cases hr : answer (.evaluate p f) st with
  | error e st' => apply Nat.zero_le
  | ok r st' => apply h r st' hr

/-- The last question that a plan poses is what a pattern comes to at a focus, and the pattern fails
there or consumes nothing. -/
def Rests (answer : Question → Run Outcome) (p : Pattern) (f : Focus) (x : Plan α)
    (st : Progress) : Prop :=
  ∃ before st₁ r st₂, x.posed answer st = before ++ [(.evaluate p f, st₁)]
    ∧ answer (.evaluate p f) st₁ = .ok r st₂ ∧ ∀ s ∈ r, s.stop = f.pos

theorem rests_evaluate {r : Outcome} (h : answer (.evaluate p f) st = .ok r st')
    (hstop : ∀ s ∈ r, s.stop = f.pos) :
  (evaluate p f).Rests answer p f st
  := by
  refine ⟨[], st, r, st', ?_, h, hstop⟩
  simp only [evaluate, posed, h, List.nil_append]

theorem Rests.bind (h : x.run answer st = .ok a st') (hk : (k a).Rests answer p f st') :
  (x >>= k).Rests answer p f st
  := by
  obtain ⟨before, st₁, r, st₂, hposed, hr, hstop⟩ := hk
  refine ⟨x.posed answer st ++ before, st₁, r, st₂, ?_, hr, hstop⟩
  rw [posed_bind_of_run h, hposed, List.append_assoc]

theorem Rests.bind_done {b : β} (h : x.Rests answer p f st) (hx : x.run answer st = .ok a st')
    (hk : k a = done b) :
  (x >>= k).Rests answer p f st
  := by
  rw [Rests, posed_bind_of_run hx, hk, posed, List.append_nil]
  exact h

end Plan

/-! ### Loops -/

/-- There is not more room further on. -/
theorem Focus.Ahead.room_le {pos : Nat} (h : f.Ahead pos) :
  (f.moveTo pos).room ≤ f.room
  := by
  by_cases hpos : pos = f.pos
  · rw [hpos, moveTo_self]
  · exact Nat.le_of_lt (room_moveTo_lt h hpos)

section Loops

variable (answer : Question → Run Outcome)

theorem length_posed_repeatExactly_le (p : Pattern) (n : Nat) (f : Focus) (st : Progress) :
  ((repeatExactly p n f).posed answer st).length ≤ n
  := by
  induction n generalizing f st with
  | zero => exact Nat.le_refl 0
  | succ n ih =>
    apply Plan.length_posed_evaluate_bind_le
    intro r st' _
    cases r with
    | none => apply Nat.zero_le
    | some r =>
      simpa only [Plan.pure_eq, Plan.posed_bind_done] using ih (f.moveTo r.stop) st'

theorem length_posed_repeatGreedily_le (p : Pattern) (room : Nat) (f : Focus) (st : Progress) :
  ((repeatGreedily p room f).posed answer st).length ≤ room + 1
  := by
  induction room generalizing f st with
  | zero =>
    rw [repeatGreedily]
    apply Plan.length_posed_evaluate_bind_le
    intro r st' _
    cases r with
    | none => exact Nat.le_refl 0
    | some r =>
      dsimp only
      split <;> exact Nat.le_refl 0
  | succ room ih =>
    rw [repeatGreedily]
    apply Plan.length_posed_evaluate_bind_le
    intro r st' _
    cases r with
    | none => apply Nat.zero_le
    | some r =>
      dsimp only
      split
      · apply Nat.zero_le
      · simpa only [Plan.pure_eq, Plan.posed_bind_done] using ih (f.moveTo r.stop) st'

theorem length_posed_repeatUpTo_le (p : Pattern) (n : Nat) (f : Focus) (st : Progress) :
  ((repeatUpTo p n f).posed answer st).length ≤ n
  := by
  induction n generalizing f st with
  | zero => exact Nat.le_refl 0
  | succ n ih =>
    apply Plan.length_posed_evaluate_bind_le
    intro r st' _
    cases r with
    | none => apply Nat.zero_le
    | some r =>
      simpa only [Plan.pure_eq, Plan.posed_bind_done] using ih (f.moveTo r.stop) st'

/-- What a greedy loop does after it has evaluated its pattern. -/
def afterRound (p : Pattern) (room : Nat) (f : Focus) : Outcome → Plan Success
  | none => .done f.stay
  | some r =>
    if r.stop = f.pos then .done f.stay
    else
      match room with
      | 0 => .done f.stay
      | room + 1 => repeatGreedily p room (f.moveTo r.stop) >>= fun rest => .done (r.after rest)

theorem repeatGreedily_eq (p : Pattern) (room : Nat) (f : Focus) :
  repeatGreedily p room f = Plan.evaluate p f >>= afterRound p room f
  := by
  cases room <;> rw [repeatGreedily] <;> rfl

theorem afterRound_of_stay {s : Outcome} (h : ∀ t ∈ s, t.stop = f.pos) :
  afterRound p room f s = .done f.stay
  := by
  cases s with
  | none => rfl
  | some t => exact if_pos (h t rfl)

theorem afterRound_succ {t : Success} (h : t.stop ≠ f.pos) :
  afterRound p (room + 1) f (some t)
    = repeatGreedily p room (f.moveTo t.stop) >>= fun rest => .done (t.after rest)
  := if_neg h

end Loops

section Rounds

variable {answer : Question → Run Outcome} {k : Nat} {r : Success}
variable (hanswer : ∀ q st r st', st.Acceptable → answer q st = .ok r st' →
  q.focus.Accepts r ∧ st'.Acceptable)

/-- The terms of a loop: it asks what a pattern comes to further on in the same subject. -/
def roundTerms (p : Pattern) (f : Focus) : Terms where
  asks q := ∃ pos, f.Ahead pos ∧ q = .evaluate p (f.moveTo pos)
  answers q r := q.focus.Accepts r
  stops _ := False

theorem asks_round (p : Pattern) (f : Focus) (pos : Nat) (h : f.Ahead pos) :
  (roundTerms p f).asks (.evaluate p (f.moveTo pos))
  := ⟨pos, h, rfl⟩

include hanswer

/-- What matches a pattern exactly so often stops ahead of where it starts. -/
theorem ahead_of_repeatExactly (hst : st.Acceptable)
    (h : (repeatExactly p k f).run answer st = .ok (some r) st') :
  f.Ahead r.stop ∧ st'.Acceptable
  := by
  have hkeeps := repeatExactly_keeps (asks_round p f) (fun _ _ h => h) k f.ahead_self
  obtain ⟨haccepts, hst'⟩ := hkeeps.of_run_eq_ok hst hanswer h
  exact ⟨Focus.accepts_some.1 haccepts, hst'⟩

theorem length_posed_atLeast_le (hst : st.Acceptable) :
  ((repeated p f (.atLeast k)).posed answer st).length ≤ k + f.room + 1
  := by
  have hexactly := length_posed_repeatExactly_le answer p k f st
  rw [repeated, Plan.posed_bind, List.length_append]
  cases h : (repeatExactly p k f).run answer st with
  | error e st' =>
    rw [List.length_nil]
    omega
  | ok r st' =>
    cases r with
    | none =>
      dsimp only [Plan.pure_eq, Plan.posed]
      rw [List.length_nil]
      omega
    | some r =>
      have hroom := (ahead_of_repeatExactly hanswer hst h).1.room_le
      have hgreedily := length_posed_repeatGreedily_le answer p (f.moveTo r.stop).room
        (f.moveTo r.stop) st'
      simp only [Plan.pure_eq, Plan.posed_bind_done]
      omega

/-- A round that consumes something leaves less room. -/
theorem room_lt_of_round {s : Success} {st₁ : Progress} (hst : st.Acceptable)
    (hround : answer (.evaluate p f) st = .ok (some s) st₁) (hstop : s.stop ≠ f.pos) :
  (f.moveTo s.stop).room < f.room ∧ st₁.Acceptable
  := by
  obtain ⟨haccepts, hst₁⟩ := hanswer _ _ _ _ hst hround
  use Focus.room_moveTo_lt (Focus.accepts_some.1 haccepts) hstop

/-- The number that a greedy loop is given does not matter, if it is not below the room: the loop
never uses it up.  The answers that a run gives are as they have to be for this, by
`Question.answer_accepts`. -/
theorem run_repeatGreedily_eq {room' : Nat} (hroom : f.room ≤ room) (hroom' : f.room ≤ room')
    (hst : st.Acceptable) :
  (repeatGreedily p room f).run answer st = (repeatGreedily p room' f).run answer st
  := by
  induction room using Nat.strong_induction_on generalizing f st room' with
  | _ room ih =>
    rw [repeatGreedily_eq, repeatGreedily_eq, Plan.run_bind, Plan.run_bind]
    cases hs : (Plan.evaluate p f).run answer st with
    | error e st₁ => rfl
    | ok s st₁ =>
      dsimp only
      by_cases hstay : ∀ t ∈ s, t.stop = f.pos
      · rw [afterRound_of_stay hstay, afterRound_of_stay hstay]
      · push Not at hstay
        obtain ⟨t, rfl, hstop⟩ := hstay
        obtain ⟨hlt, hst₁⟩ := room_lt_of_round hanswer hst (Plan.run_evaluate_eq_ok_iff.1 hs) hstop
        -- both numbers leave another round after this one
        obtain ⟨room, rfl⟩ : ∃ k, room = k + 1 := Nat.exists_eq_add_one.2 (by omega)
        obtain ⟨room', rfl⟩ : ∃ k, room' = k + 1 := Nat.exists_eq_add_one.2 (by omega)
        have hrest : (repeatGreedily p room (f.moveTo t.stop)).run answer st₁
            = (repeatGreedily p room' (f.moveTo t.stop)).run answer st₁ :=
          ih room (Nat.lt_succ_self room) (by omega) (by omega) hst₁
        rw [afterRound_succ hstop, afterRound_succ hstop, Plan.run_bind, Plan.run_bind, hrest]

/-- A greedy loop that may have as many rounds as there is room comes to its end where the pattern
fails or consumes nothing. -/
theorem repeatGreedily_rests (hroom : f.room ≤ room) (hst : st.Acceptable)
    (h : (repeatGreedily p room f).run answer st = .ok r st') :
  (repeatGreedily p room f).Rests answer p (f.moveTo r.stop) st
  := by
  induction room using Nat.strong_induction_on generalizing f st r with
  | _ room ih =>
    rw [repeatGreedily_eq] at h ⊢
    obtain ⟨s, st₁, hs, h⟩ := Plan.exists_run_of_bind h
    have hround := Plan.run_evaluate_eq_ok_iff.1 hs
    by_cases hstay : ∀ t ∈ s, t.stop = f.pos
    · rw [afterRound_of_stay hstay] at h
      cases h
      exact (Plan.rests_evaluate hround hstay).bind_done hs (afterRound_of_stay hstay)
    · push Not at hstay
      obtain ⟨t, rfl, hstop⟩ := hstay
      obtain ⟨hlt, hst₁⟩ := room_lt_of_round hanswer hst hround hstop
      obtain ⟨room, rfl⟩ : ∃ k, room = k + 1 := Nat.exists_eq_add_one.2 (by omega)
      rw [afterRound_succ hstop] at h
      obtain ⟨rest, st₂, hrest, h⟩ := Plan.exists_run_of_bind h
      cases h
      have hrests := ih room (Nat.lt_succ_self room) (by omega) hst₁ hrest
      apply Plan.Rests.bind hs
      rw [afterRound_succ hstop]
      exact hrests.bind_done hrest rfl

/-- A loop with a least number comes to its end where the pattern fails or consumes nothing. -/
theorem atLeast_rests (hst : st.Acceptable)
    (h : (repeated p f (.atLeast k)).run answer st = .ok (some r) st') :
  (repeated p f (.atLeast k)).Rests answer p (f.moveTo r.stop) st
  := by
  rw [repeated] at h ⊢
  obtain ⟨s, st₁, hs, h⟩ := Plan.exists_run_of_bind h
  cases s with
  | none => cases h
  | some s =>
    obtain ⟨rest, st₂, hrest, h⟩ := Plan.exists_run_of_bind h
    cases h
    have hst₁ := (ahead_of_repeatExactly hanswer hst hs).2
    have hrests := repeatGreedily_rests hanswer (Nat.le_refl _) hst₁ hrest
    exact .bind hs (hrests.bind_done hrest rfl)

end Rounds

theorem length_posed_atMost_le {answer : Question → Run Outcome} {k : Nat} :
  ((repeated p f (.atMost k)).posed answer st).length ≤ k
  := by
  rw [repeated]
  simp only [Plan.pure_eq, Plan.posed_bind_done]
  apply length_posed_repeatUpTo_le

/-! ### Evaluations begun -/

namespace Evaluation

variable {o : Options} {e e' : Evaluation} {k : Nat} {r : Success}

/-- The evaluation of a pattern that a question asks for, when it is posed in an evaluation at a
depth in which at most so many others may nest. -/
def ofQuestion (nesting depth : Nat) : Question × Progress → Option Evaluation
  | (.evaluate p f, st) => some ⟨nesting, depth, p, f, st⟩
  | (.apply _ _ _, _) => none

/-- The evaluations that an evaluation begins because its plan asks for them, in order. -/
def parts (o : Options) : Evaluation → List Evaluation
  | ⟨0, _, _, _, _⟩ => []
  | ⟨n + 1, depth, p, f, st⟩ =>
    match Pattern.brokenCeiling? o (st.steps + 1) depth with
    | some _ => []
    | none =>
      List.filterMap (ofQuestion n (depth + 1))
        ((p.plan f).posed (Question.answer o (Pattern.eval o n (depth + 1))) (st.enter f depth))

theorem parts_succ (hc : Pattern.brokenCeiling? o (st.steps + 1) depth = none) :
  parts o ⟨n + 1, depth, p, f, st⟩ =
    List.filterMap (ofQuestion n (depth + 1))
      ((p.plan f).posed (Question.answer o (Pattern.eval o n (depth + 1))) (st.enter f depth))
  := by
  rw [parts, hc]

/-- These are the evaluations that it enters and that are not bodies of rules. -/
theorem mem_parts_iff :
  e' ∈ e.parts o ↔ Enters o e none e'
  := by
  constructor
  · intro h
    obtain ⟨_ | n, depth, p, f, st⟩ := e
    · cases h
    · cases hc : Pattern.brokenCeiling? o (st.steps + 1) depth with
      | some fault =>
        rw [parts, hc] at h
        cases h
      | none =>
        rw [parts_succ hc] at h
        obtain ⟨⟨q, st'⟩, hposed, he'⟩ := List.mem_filterMap.1 h
        cases q with
        | evaluate q f' =>
          cases he'
          exact .part hc (Plan.mem_posed_iff.1 hposed)
        | apply g rule f' => cases he'
  · intro h
    cases h with
    | part hc hposes =>
      rw [parts_succ hc]
      exact List.mem_filterMap.2 ⟨_, Plan.mem_posed_iff.2 hposes, rfl⟩

/-- An evaluation begins no more others than its plan poses questions. -/
theorem length_parts_le (h : ∀ n depth st, st.Acceptable →
      ((e.pattern.plan e.focus).posed (Question.answer o (Pattern.eval o n depth)) st).length ≤ k)
    (hst : e.progress.Acceptable) :
  (e.parts o).length ≤ k
  := by
  obtain ⟨_ | n, depth, p, f, st⟩ := e
  · apply Nat.zero_le
  · cases hc : Pattern.brokenCeiling? o (st.steps + 1) depth with
    | some fault =>
      rw [parts, hc]
      apply Nat.zero_le
    | none =>
      rw [parts_succ hc]
      exact Nat.le_trans (List.length_filterMap_le _ _) (h n (depth + 1) (st.enter f depth) hst)

theorem length_parts_atLeast_le (hp : e.pattern = .repetition p (.atLeast k))
    (hst : e.progress.Acceptable) :
  (e.parts o).length ≤ k + e.focus.room + 1
  := by
  apply length_parts_le _ hst
  intro n depth st hst
  rw [hp]
  exact length_posed_atLeast_le (fun _ _ _ _ hst hr => Question.answer_accepts hst hr) hst

/-- The rounds of a repetition evaluate its pattern, further on in the same subject. -/
theorem parts_repetition {bound : Bound} (hp : e.pattern = .repetition p bound)
    (hst : e.progress.Acceptable) (h : e' ∈ e.parts o) :
  e'.pattern = p ∧ ∃ pos, e.focus.Ahead pos ∧ e'.focus = e.focus.moveTo pos
  := by
  have henters := mem_parts_iff.1 h
  cases henters with
  | @part n depth _ q f f' st st' _ hposes =>
    obtain rfl : _ = Pattern.repetition p bound := hp
    have henter : (st.enter f depth).Acceptable := hst
    have hkeeps := repeated_keeps (asks_round p f) (fun _ _ h => h) bound
    have hasks := hkeeps.poses hposes henter fun _ _ _ _ hst hr => Question.answer_accepts hst hr
    obtain ⟨pos, hpos, hq⟩ := hasks.1
    cases hq
    exact ⟨rfl, pos, hpos, rfl⟩

/-- The last round of a repetition with a least number. -/
theorem exists_getLast_parts (hp : e.pattern = .repetition p (.atLeast k))
    (hst : e.progress.Acceptable) (h : e.result o = .ok (some r) st') :
  ∃ e', (e.parts o).getLast? = some e' ∧ e'.focus = e.focus.moveTo r.stop
    ∧ ∃ x st₁, e'.result o = .ok x st₁ ∧ ∀ s ∈ x, s.stop = r.stop
  := by
  obtain ⟨_ | n, depth, _, f, st⟩ := e
  · cases h
  · obtain rfl : _ = Pattern.repetition p (.atLeast k) := hp
    rw [result, Pattern.eval_succ] at h
    cases hc : Pattern.brokenCeiling? o (st.steps + 1) depth with
    | some fault =>
      rw [hc] at h
      cases h
    | none =>
      rw [hc] at h
      have henter : (st.enter f depth).Acceptable := hst
      obtain ⟨before, st₁, x, st₂, hposed, hx, hstop⟩ :=
        atLeast_rests (fun _ _ _ _ hst hr => Question.answer_accepts hst hr) henter h
      refine ⟨⟨n, depth + 1, p, f.moveTo r.stop, st₁⟩, ?_, rfl, x, st₂, hx, hstop⟩
      rw [parts_succ hc, Pattern.plan, hposed, List.filterMap_append]
      exact List.getLast?_concat

end Evaluation

/-! ### Matches -/

/-- Where a repetition with a least number can stop, the pattern fails or consumes nothing. -/
theorem Pattern.Yields.exists_at_stop {k : Nat} {r : Success}
    (h : (repetition p (.atLeast k)).Yields f (some r)) :
  ∃ x, p.Yields (f.moveTo r.stop) x ∧ ∀ s ∈ x, s.stop = r.stop
  := by
  generalize hq : repetition p (.atLeast k) = q at h
  generalize hr : some r = x at h
  induction h generalizing k r with
  | pass hconsumes =>
    subst hq
    cases hconsumes
  | refuse htest _ =>
    subst hq
    cases htest
  | tooFew _ _ => cases hr
  | @counted p f n s rest _ _ _ ih =>
    cases hq
    cases rest with
    | none => cases hr
    | some rest =>
      cases hr
      exact @ih _ rest rfl rfl
  | exhausted hp _ =>
    cases hq
    cases hr
    exact ⟨none, hp, by simp⟩
  | idle hp hstop _ =>
    cases hq
    cases hr
    exact ⟨_, hp, by simpa [Focus.stay] using hstop⟩
  | @again p f s rest _ _ _ _ ih =>
    cases hq
    cases rest with
    | none => cases hr
    | some rest =>
      cases hr
      exact @ih _ rest rfl rfl
  | _ => cases hq

/-- Where an evaluation of a repetition with a least number stops, the pattern that is repeated
ends with a failure or consumes nothing. -/
theorem Pattern.EndsWith.exists_at_stop {o : Options} {k : Nat} {r : Success}
    (h : (repetition p (.atLeast k)).EndsWith o f (some r)) (hsteps : o.maxSteps = none)
    (hdepth : o.maxDepth = none) :
  ∃ x, p.EndsWith o (f.moveTo r.stop) x ∧ ∀ s ∈ x, s.stop = r.stop
  := by
  obtain ⟨top, hf⟩ := f.exists_placed
  have htop : top.Tells .alike := top.tells_alike
  obtain ⟨r₀, hr₀, hagrees⟩ := h.exists_yields hsteps hdepth htop hf
  cases hagrees with
  | @some s₀ _ hs₀ =>
    obtain ⟨x₀, hx₀, hstop⟩ := hr₀.exists_at_stop
    obtain ⟨x, hx, hagrees⟩ := hx₀.exists_endsWith hsteps hdepth htop hf
    rw [hs₀.1] at hx hstop
    refine ⟨x, hx, ?_⟩
    cases hagrees with
    | none => simp
    | some hs => simpa [← hs.1] using hstop

namespace Matcher

variable {m : Matcher} {nesting pos : Nat} {subject : Value}

/-- Repetitions are bounded.  In a match, a repetition evaluates nothing but its pattern, further
on in the same subject.  With a greatest number it does so at most that many times.  With a least
number it does so at most once more than this number and the number of characters that are left
together; and if it succeeds, then the last of these evaluations is where it stops, and fails or
consumes nothing.  Without ceilings the same holds of a match with the pattern alone from where a
match with the repetition stops. -/
theorem rounds_bounded (m : Matcher) (nesting : Nat) (subject : Value) (pos : Nat) :
  (∀ e p bound, (m.evaluation nesting subject pos).Nests m.options e →
      e.pattern = .repetition p bound → ∀ e' ∈ e.parts m.options,
      e'.pattern = p ∧ ∃ k, e.focus.Ahead k ∧ e'.focus = e.focus.moveTo k)
    ∧ (∀ e p n, (m.evaluation nesting subject pos).Nests m.options e →
      e.pattern = .repetition p (.atMost n) → (e.parts m.options).length ≤ n)
    ∧ (∀ e p n, (m.evaluation nesting subject pos).Nests m.options e →
      e.pattern = .repetition p (.atLeast n) →
      (∀ s, e.focus.subject = .text s →
          (e.parts m.options).length ≤ n + (s.length - e.focus.pos) + 1)
        ∧ ((¬ ∃ s, e.focus.subject = .text s) → (e.parts m.options).length ≤ n + 1)
        ∧ ∀ r st, e.result m.options = .ok (some r) st →
          ∃ e', (e.parts m.options).getLast? = some e' ∧ e'.focus = e.focus.moveTo r.stop
            ∧ ∃ x st', e'.result m.options = .ok x st' ∧ ∀ s ∈ x, s.stop = r.stop)
    ∧ ∀ p n r, m.pattern = .repetition p (.atLeast n) →
      (m.runWithin nesting subject pos).outcome = .ok (some r) →
      ∃ x, (⟨p, m.outer, m.options.under none none⟩ : Matcher).EndsWith subject r.stop (.ok x)
        ∧ ∀ s ∈ x, s.stop = r.stop
  := by
  have hmemo : ∀ e, (m.evaluation nesting subject pos).Nests m.options e →
      e.progress.Acceptable :=
    fun e he => (nests_hereditary .anything trivial he).2
  refine ⟨?_, ?_, ?_, ?_⟩
  · intro e p bound he hp e' he'
    exact Evaluation.parts_repetition hp (hmemo e he) he'
  · intro e p n he hp
    apply Evaluation.length_parts_le _ (hmemo e he)
    intro k depth st _
    rw [hp]
    apply length_posed_atMost_le
  · intro e p n he hp
    have hlength : (e.parts m.options).length ≤ n + e.focus.room + 1 :=
      Evaluation.length_parts_atLeast_le hp (hmemo e he)
    refine ⟨?_, ?_, ?_⟩
    · intro s hs
      rwa [Focus.room_text hs] at hlength
    · intro hobject
      rwa [Focus.room_object hobject] at hlength
    · intro r st h
      exact Evaluation.exists_getLast_parts hp (hmemo e he) h
  · intro p n r hp h
    have hfree := Pattern.endsWith_of_outcome h
    rw [hp] at hfree
    obtain ⟨x, hx, hstop⟩ := hfree.exists_at_stop rfl rfl
    exact ⟨x, (endsWith_ok_iff rfl rfl).2 hx, hstop⟩

end Matcher

/-- A greedy repetition inside another one. -/
def nestedRepetition : Matcher where
  pattern := .repetition (.repetition (.literal "x") (.atLeast 0)) (.atLeast 0)

/-- The inner repetition is evaluated twice, and there is nothing left for it the second time. -/
theorem Matcher.rounds_bounded_nestedRepetition :
  (nestedRepetition.runWithin 5 (.text "xxy") 0).outcome = .ok (some ⟨2, []⟩)
    ∧ ((nestedRepetition.evaluation 5 (.text "xxy") 0).parts {}).length = 2
    ∧ 2 ≤ 0 + ("xxy".length - 0) + 1
    ∧ (∃ e', ((nestedRepetition.evaluation 5 (.text "xxy") 0).parts {}).getLast? = some e'
      ∧ e'.focus = (Focus.start (.text "xxy") 0 none).moveTo 2
      ∧ ∃ x st', e'.result {} = .ok x st' ∧ ∀ s ∈ x, s.stop = 2)
    ∧ ∃ x, (⟨.repetition (.literal "x") (.atLeast 0), none, {}⟩ : Matcher).EndsWith (.text "xxy") 2
      (.ok x) ∧ ∀ s ∈ x, s.stop = 2
  := by
  obtain ⟨-, -, hatLeast, hmatch⟩ := nestedRepetition.rounds_bounded 5 (.text "xxy") 0
  obtain ⟨hlength, -, hlast⟩ := hatLeast _ _ 0 .refl rfl
  have hcount : ((nestedRepetition.evaluation 5 (.text "xxy") 0).parts {}).length = 2 := by
    decide +kernel
  have houtcome : (nestedRepetition.runWithin 5 (.text "xxy") 0).outcome
      = .ok (some ⟨2, []⟩) := by decide +kernel
  obtain ⟨st, hst⟩ := Run.record_outcome_eq_ok_iff.1 houtcome
  exact ⟨houtcome, hcount, hcount ▸ hlength "xxy" rfl, hlast ⟨2, []⟩ st hst,
    hmatch _ 0 ⟨2, []⟩ rfl houtcome⟩

end Peg
