import Peg.Proofs.Views

/-!
# Evaluations that are repeated

An evaluation puts the rule applications that it starts out of progress again, and what was
remembered before is remembered afterwards; so the view only grows.  When the evaluation is repeated
later, it therefore comes to the same.  It recalls what it needs, or else it does everything once
more, and the view is left as it is.
-/

namespace Peg

variable {m : Bool} {s t u : View m} {key : Key} {r : Outcome}

/-- The same rule applications are in progress in the second view, and what is remembered in the
first one is remembered in the second one. -/
structure View.Grows (s t : View m) : Prop where
  active : t.active = s.active
  recalled : ∀ k r, s.recalled k = some r → t.recalled k = some r

namespace View

theorem Grows.refl (s : View m) :
  s.Grows s
  := ⟨rfl, fun _ _ h => h⟩

theorem Grows.trans (h : s.Grows t) (h' : t.Grows u) :
  s.Grows u
  := ⟨h'.active.trans h.active, fun k r hr => h'.recalled k r (h.recalled k r hr)⟩

theorem Grows.isActive_eq (h : s.Grows t) (key : Key) :
  t.isActive key = s.isActive key
  := by
  rw [isActive, h.active, isActive]

/-- When a rule application has ended, it is as before it began, except that its outcome may be
remembered. -/
theorem Grows.complete (hnone : s.recalled key = none) (h : (s.begin key).Grows t) (r : Outcome) :
  s.Grows (t.complete key r)
  := by
  constructor
  · simp only [View.complete, h.active, begin]
    apply Progress.withdraw_cons_self
  · intro k r' hk
    have hother : key.same k = false := by
      rw [Bool.eq_false_iff]
      intro hsame
      rw [← s.recalled_congr key k hsame, hnone] at hk
      cases hk
    simp only [View.complete, hother, Bool.and_false]
    exact h.recalled k r' hk

theorem recalled_complete (t : View true) (key : Key) (r : Outcome) :
  (t.complete key r).recalled key = some r
  := by
  simp [complete, Key.same_refl]

/-- Without remembering outcomes, nothing is left of a rule application that has ended. -/
theorem complete_begin (t : View false) (key : Key) (r : Outcome) :
  (t.begin key).complete key r = t
  := by
  apply View.ext
  · apply Progress.withdraw_cons_self
  · funext k
    simp [complete, begin]

/-- Without remembering outcomes, views are known by what is in progress. -/
theorem Grows.of_active_eq {s t : View false} (h : t.active = s.active) :
  s.Grows t
  := by
  use h
  intro k r hk
  rw [s.recalled_eq_none rfl] at hk
  cases hk

end View

/-! ### Plans -/

namespace Plan

variable {α : Type} {x : Plan α} {a : α}

/-- The view grows while a plan is carried out. -/
theorem ComesTo.grows (h : x.ComesTo s (.ok (a, t))) :
  s.Grows t
  := by
  generalize hv : Except.ok (a, t) = v at h
  induction h generalizing t with
  | done b s =>
    cases hv
    apply View.Grows.refl
  | stop e s => cases hv
  | answered _ _ ih => apply ih hv
  | stopped _ => cases hv
  | broken _ _ _ => cases hv
  | @carried α q next s s' s'' x finish r v hq _ _ ihx ih =>
    have hgrows := ihx rfl
    have hsteps := hq ▸ q.steps s
    cases hsteps with
    | pattern p f => apply hgrows.trans (ih hv)
    | body hnone _ _ => apply (hgrows.complete hnone _).trans (ih hv)

/-- A plan that is carried out again has the same result, and the view stays as it is. -/
theorem ComesTo.replay (h : x.ComesTo s (.ok (a, t))) (hu : t.Grows u) :
  x.ComesTo u (.ok (a, u))
  := by
  generalize hv : Except.ok (a, t) = v at h
  induction h generalizing t u with
  | done b s =>
    cases hv
    apply ComesTo.done
  | stop e s => cases hv
  | stopped _ => cases hv
  | broken _ _ _ => cases hv
  | @answered α q next s r v hq h ih =>
    obtain rfl := hv
    have hsteps := hq ▸ q.steps s
    cases hsteps with
    | recalled hr =>
      have hr := (h.grows.trans hu).recalled _ _ hr
      exact .answered (Question.step_recalled hr) (ih hu rfl)
  | @carried α q next s s' s'' x finish r v hq hx h ihx ih =>
    obtain rfl := hv
    have hnext := ih hu rfl
    have hsteps := hq ▸ q.steps s
    cases hsteps with
    | pattern p f => exact .carried rfl (ihx (h.grows.trans hu) rfl) hnext
    | @body g rule f body hnone hactive hbody =>
      cases m with
      | true =>
        -- The outcome of the application is remembered since then.
        have hr := (h.grows.trans hu).recalled _ _ (s''.recalled_complete (f.key g rule) r)
        exact .answered (Question.step_recalled hr) hnext
      | false =>
        -- Nothing is remembered, and the body is evaluated again.
        have hsu : s.Grows u := ((hx.grows.complete hnone r).trans h.grows).trans hu
        have hstep := Question.step_body (u.recalled_eq_none rfl _)
          ((hsu.isActive_eq _).trans hactive) hbody
        have hagain : s''.Grows (u.begin (f.key g rule)) := by
          apply View.Grows.of_active_eq
          rw [hx.grows.active, View.begin, View.begin, hsu.active]
        apply ComesTo.carried hstep (ihx hagain rfl)
        rw [View.complete_begin]
        exact hnext

end Plan

/-- A pattern that is evaluated again at a focus has the same outcome, and the view stays as it
is. -/
theorem Pattern.ComesTo.replay {p : Pattern} {f : Focus} (h : p.ComesTo f s (.ok (r, t)))
    (hu : t.Grows u) :
  p.ComesTo f u (.ok (r, u))
  := Plan.ComesTo.replay h hu

theorem Pattern.ComesTo.grows {p : Pattern} {f : Focus} (h : p.ComesTo f s (.ok (r, t))) :
  s.Grows t
  := Plan.ComesTo.grows h

end Peg
