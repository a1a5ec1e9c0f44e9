import Peg.Proofs.Memory

/-!
# Completed rule applications

A match logs the rule applications whose bodies were evaluated.  When nothing is remembered, then
what an application completes on its way does not depend on when it happens: two runs from foci that
resemble each other, if both have outcomes, complete the same applications in the same order.  This
is `applyRule_retraced`.
-/

namespace Peg

variable {o : Options} {n n' depth depth' : Nat} {f f' : Focus} {c : Comparison}

/-! ### What is completed -/

namespace Progress

/-- The keys of the completed rule applications, in order. -/
def completed (st : Progress) : List Key :=
  st.completions.map (·.1)

@[simp]
theorem completed_enter (st : Progress) (f : Focus) (depth : Nat) :
  (st.enter f depth).completed = st.completed
  := by
  simp [completed]

@[simp]
theorem completed_begin (st : Progress) (key : Key) :
  (st.begin key).completed = st.completed
  := by
  simp [completed]

@[simp]
theorem completed_abandon (st : Progress) (key : Key) :
  (st.abandon key).completed = st.completed
  := by
  simp [completed]

@[simp]
theorem completed_complete (st : Progress) (memoize : Bool) (key : Key) (r : Outcome) :
  (st.complete memoize key r).completed = st.completed ++ [key]
  := by
  simp [completed]

end Progress

/-! ### Completing the same -/

/-- One list of keys goes on from another in the same way as a third one does from a fourth. -/
def Key.SameSince (ks ks₁ ls ls₁ : List Key) : Prop :=
  ∃ ms ns, ks₁ = ks ++ ms ∧ ls₁ = ls ++ ns ∧ List.Forall₂ (fun k l => k.same l = true) ms ns

namespace Key.SameSince

variable {ks ks₁ ks₂ ls ls₁ ls₂ : List Key} {k l : Key}

theorem refl (ks ls : List Key) :
  SameSince ks ks ls ls
  := ⟨[], [], by simp, by simp, .nil⟩

theorem trans (h : SameSince ks ks₁ ls ls₁) (h' : SameSince ks₁ ks₂ ls₁ ls₂) :
  SameSince ks ks₂ ls ls₂
  := by
  obtain ⟨ms, ns, rfl, rfl, hsame⟩ := h
  obtain ⟨ms', ns', rfl, rfl, hsame'⟩ := h'
  use ms ++ ms', ns ++ ns', List.append_assoc .., List.append_assoc ..
  apply List.rel_append hsame hsame'

theorem concat (hkl : k.same l = true) :
  SameSince ks (ks ++ [k]) ls (ls ++ [l])
  := ⟨[k], [l], rfl, rfl, .cons hkl .nil⟩

/-- Whatever comes in the second place is the same as something in the first one. -/
theorem exists_any (h : SameSince ks ks₁ ls ls₁) :
  ∃ ns, ls₁ = ls ++ ns ∧ ∀ l ∈ ns, ks₁.any l.same = true
  := by
  obtain ⟨ms, ns, rfl, hns, hsame⟩ := h
  have hany : ∀ l ∈ ns, ms.any l.same = true := by
    clear hns
    induction hsame with
    | nil => simp
    | cons hkl _ ih =>
      intro l hl
      rw [List.any_cons, Bool.or_eq_true]
      rcases List.mem_cons.1 hl with rfl | hl
      · exact .inl (same_symm hkl)
      · exact .inr (ih l hl)
  use ns, hns
  intro l hl
  rw [List.any_append, hany l hl, Bool.or_true]

end Key.SameSince

/-- Two runs that, if both have results, have related results and completed the same
applications. -/
def Run.Retraced {α β : Type} (results : α → β → Prop) (st st' : Progress)
    (x : EStateM.Result Fault Progress α) (y : EStateM.Result Fault Progress β) : Prop :=
  ∀ a st₁ b st₁', x = .ok a st₁ → y = .ok b st₁' →
    results a b ∧ Key.SameSince st.completed st₁.completed st'.completed st₁'.completed

theorem Run.Retraced.of_error {α β : Type} {results : α → β → Prop} {st st' st₁ : Progress}
    {e : Fault} {y : EStateM.Result Fault Progress β} :
  Run.Retraced results st st' (.error e st₁ : EStateM.Result Fault Progress α) y
  := by
  intro _ _ _ _ h
  cases h

theorem Run.Retraced.of_error_right {α β : Type} {results : α → β → Prop} {st st' st₁ : Progress}
    {e : Fault} {x : EStateM.Result Fault Progress α} :
  Run.Retraced results st st' x (.error e st₁ : EStateM.Result Fault Progress β)
  := by
  intro _ _ _ _ _ h
  cases h

/-- Plans that go the same way complete the same, if the answers to their questions do. -/
theorem Plan.Corresponds.run_retraced {α β : Type} {results : α → β → Prop} {x : Plan α}
    {y : Plan β} {answer answer' : Question → Run Outcome} {st st' : Progress}
    (hxy : x.Corresponds c.correspondence results y)
    (hanswer : ∀ q q' st st', q.Resembles c q' →
      Run.Retraced (Outcome.Agrees c) st st' (answer q st) (answer' q' st')) :
  Run.Retraced results st st' (x.run answer st) (y.run answer' st')
  := by
  induction hxy using Corresponds.induction generalizing st st' with
  | done a b hab =>
    rintro _ _ _ _ ⟨⟩ ⟨⟩
    exact ⟨hab, .refl _ _⟩
  | stop e => apply Run.Retraced.of_error
  | ask q q' next next' hq _ ih =>
    have hrun := hanswer q q' st st' hq
    rw [run_ask, run_ask]
    cases hqs : answer q st with
    | error e st₁ => apply Run.Retraced.of_error
    | ok r st₁ =>
      cases hqs' : answer' q' st' with
      | error e st₁' => apply Run.Retraced.of_error_right
      | ok s st₁' =>
        obtain ⟨hrs, hsame⟩ := hrun r st₁ s st₁' hqs hqs'
        intro a st₂ b st₂' ha hb
        obtain ⟨hab, hsame'⟩ := ih r s hrs a st₂ b st₂' ha hb
        exact ⟨hab, hsame.trans hsame'⟩

section Rules

variable {ev ev' : Evaluator} {g : Grammar} {rule : String} {st st' : Progress}

/-- Rules are applied to the same completions when patterns are evaluated so. -/
theorem applyRule_retraced (ho : o.memoize = false)
    (hev : ∀ p f f' st st', f.Resembles c f' →
      Run.Retraced (Outcome.Agrees c) st st' (ev p f st) (ev' p f' st'))
    (h : (f.inScope g).Resembles c (f'.inScope g)) :
  Run.Retraced (Outcome.Agrees c) st st' (applyRule o ev g rule f st)
    (applyRule o ev' g rule f' st')
  := by
  have happ := applyRule_application o ev g rule f st
  have happ' := applyRule_application o ev' g rule f' st'
  generalize applyRule o ev g rule f st = x at happ ⊢
  generalize applyRule o ev' g rule f' st' = y at happ' ⊢
  cases happ with
  | recalled hs => simp [recalled?_of_not_memoize ho] at hs
  | active _ _ => apply Run.Retraced.of_error
  | undefined _ _ _ => apply Run.Retraced.of_error
  | @body body _ _ hrule =>
    -- both runs evaluate the body; if one of them were stopped there would be nothing to show
    cases happ' with
    | recalled hs => simp [recalled?_of_not_memoize ho] at hs
    | active _ _ => apply Run.Retraced.of_error_right
    | undefined _ _ _ => apply Run.Retraced.of_error_right
    | body _ _ hrule' =>
      rw [hrule] at hrule'
      cases hrule'
      have hbody := hev body (f.inScope g) (f'.inScope g) (st.begin (f.key g rule))
        (st'.begin (f'.key g rule)) h
      cases hb : ev body (f.inScope g) (st.begin (f.key g rule)) with
      | error e st₁ =>
        rw [evalBody_error hb]
        apply Run.Retraced.of_error
      | ok r st₁ =>
        rw [evalBody_ok hb]
        cases hb' : ev' body (f'.inScope g) (st'.begin (f'.key g rule)) with
        | error e st₁' =>
          rw [evalBody_error hb']
          apply Run.Retraced.of_error_right
        | ok s st₁' =>
          rw [evalBody_ok hb']
          obtain ⟨hrs, hsame⟩ := hbody r st₁ s st₁' hb hb'
          rintro _ _ _ _ ⟨⟩ ⟨⟩
          use hrs
          simp only [Progress.completed_begin, Progress.completed_complete] at hsame ⊢
          apply hsame.trans (.concat (h.key_same g rule))

/-- A pattern that is evaluated at foci which resemble each other completes the same applications,
whenever and however deep in a match. -/
theorem Pattern.eval_retraced (ho : o.memoize = false) (n n' depth depth' : Nat) (p : Pattern)
    (h : f.Resembles c f') :
  Run.Retraced (Outcome.Agrees c) st st' (eval o n depth p f st) (eval o n' depth' p f' st')
  := by
  induction n generalizing n' depth depth' p f f' st st' with
  | zero => apply Run.Retraced.of_error
  | succ n ih =>
    cases n' with
    | zero => apply Run.Retraced.of_error_right
    | succ n' =>
      rw [eval_succ, eval_succ]
      cases brokenCeiling? o (st.steps + 1) depth with
      | some e => apply Run.Retraced.of_error
      | none =>
        cases brokenCeiling? o (st'.steps + 1) depth' with
        | some e => apply Run.Retraced.of_error_right
        | none =>
          have hrun : Run.Retraced (Outcome.Agrees c) (st.enter f depth) (st'.enter f' depth')
              ((p.plan f).run (Question.answer o (eval o n (depth + 1))) (st.enter f depth))
              ((p.plan f').run (Question.answer o (eval o n' (depth' + 1)))
                (st'.enter f' depth')) := by
            apply (p.plan_corresponds h).run_retraced
            intro q q' st st' hqq
            cases hqq with
            | evaluate h => apply ih n' (depth + 1) (depth' + 1) _ h
            | @apply g _ _ _ h =>
              apply applyRule_retraced ho _ (h.inScope g)
              exact fun p f f' st st' h => ih n' (depth + 1) (depth' + 1) p h
          simpa only [Run.Retraced, Progress.completed_enter] using hrun

end Rules

end Peg
