import Peg.Proofs.Lockstep
import Peg.Proofs.Slice
import Peg.Proofs.Termination

/-!
# Descending into a field

A field of an object is matched as it would be on its own.  The match of a pattern in a field comes
to the same as the match of the pattern on the value of the field, except that it stops where the
object stands, and it makes one more step.  The paths in the field begin with its key, and so a
captured path would tell the difference; a text has no paths.

The two matches are paired by `Matcher.fieldPairing`, at foci that are `Focus.Beneath` each other.
-/

namespace Peg

/-- A focus in the value of a field on its own, and the same focus beneath the object. -/
structure Focus.Beneath (key : Value) (f f' : Focus) : Prop where
  subject : f.subject = f'.subject
  pos : f.pos = f'.pos
  scope : f.scope = f'.scope
  path : (∃ s, f.subject = .text s) ∨ f'.path = key :: f.path

namespace Focus.Beneath

variable {key : Value} {f f' f₁ f₁' : Focus}

theorem inScope (h : f.Beneath key f') (g : Grammar) :
  (f.inScope g).Beneath key (f'.inScope g)
  := ⟨h.subject, h.pos, rfl, h.path⟩

/-- Positions are captured alike in a text, which has no path. -/
theorem whereabouts_eq (h : f.Beneath key f') (htext : ∃ s, f.subject = .text s) :
  f.whereabouts = f'.whereabouts
  := by
  obtain ⟨s, hs⟩ := htext
  have hs' := h.subject.symm.trans hs
  simp only [whereabouts, hs, hs', h.pos]

theorem place_same_eq (h : f.Beneath key f') (h₁ : f₁.Beneath key f₁') :
  f.place.same f₁.place = f'.place.same f₁'.place
  := by
  by_cases hs : ∃ s, f.subject = .text s
  · obtain ⟨s, hs⟩ := hs
    by_cases hs₁ : ∃ s, f₁.subject = .text s
    · obtain ⟨s₁, hs₁⟩ := hs₁
      rw [place_text hs, place_text hs₁, place_text (h.subject ▸ hs), place_text (h₁.subject ▸ hs₁)]
    · rw [place_text hs, place_object hs₁, place_text (h.subject ▸ hs),
        place_object (h₁.subject ▸ hs₁)]
      rfl
  · by_cases hs₁ : ∃ s, f₁.subject = .text s
    · obtain ⟨s₁, hs₁⟩ := hs₁
      rw [place_object hs, place_text hs₁, place_object (h.subject ▸ hs),
        place_text (h₁.subject ▸ hs₁)]
      rfl
    · rw [place_object hs, place_object hs₁, place_object (h.subject ▸ hs),
        place_object (h₁.subject ▸ hs₁), h.path.resolve_left hs, h₁.path.resolve_left hs₁]
      simp [Place.same, Value.listAgrees]

theorem key_same_eq (h : f.Beneath key f') (h₁ : f₁.Beneath key f₁') (g g₁ : Grammar)
    (rule rule₁ : String) :
  (f.key g rule).same (f₁.key g₁ rule₁) = (f'.key g rule).same (f₁'.key g₁ rule₁)
  := by
  rw [Bool.eq_iff_iff, Key.same_iff, Key.same_iff]
  simp [Focus.key, h.pos, h₁.pos, h.place_same_eq h₁]

end Focus.Beneath

/-- Foci beneath each other are on the same subject. -/
def beneath (key : Value) : Alongside where
  foci := Focus.Beneath key
  subject h := h.subject
  pos h := h.pos
  moveTo h pos := ⟨h.subject, rfl, h.scope, h.path⟩
  inKey h k := ⟨rfl, rfl, h.scope, .inl ⟨_, rfl⟩⟩
  inField h hobject k v := by
    refine ⟨rfl, rfl, h.scope, .inr ?_⟩
    rw [Focus.inField, Focus.inField, h.path.resolve_left hobject]
    rfl

/-- A pattern goes the same way in a field, unless it captures a path. -/
theorem Pattern.plan_beneath {key : Value} {p : Pattern} {f f' : Focus}
    (h : f.Beneath key f') (hp : p = .position → ∃ s, f.subject = .text s)
    {Q : Question → Question → Prop}
    (heval : ∀ q f f', f.Beneath key f' → Q (.evaluate q f) (.evaluate q f'))
    (happly : ∀ rule g f f', f.Beneath key f' → Q (.apply g rule f) (.apply g rule f')) :
  (p.plan f).Corresponds (Alongside.correspondence .identical Q) (Outcome.Agrees .identical)
    (p.plan f')
  := by
  apply plan_alongside (A := beneath key) h
  · exact fun q _ f f' h => heval q f f' h
  · intro hposition
    rw [h.whereabouts_eq (hp hposition)]
    apply Value.agrees_refl
  · rintro name rfl
    simp only [plan, ← h.scope]
    split
    · rfl
    · exact ⟨happly _ _ _ _ h, fun _ _ hr => hr⟩
  · rintro g -
    simp only [matchRoot]
    split
    · exact ⟨happly _ _ _ _ h, fun _ _ hr => hr⟩
    · exact ⟨heval _ _ _ (h.inScope g), fun _ _ hr => hr⟩

namespace Matcher

variable (m : Matcher)

/-- A match of a text, or of patterns among which there is no capture of a position. -/
def Pathless (p : Pattern) (f : Focus) : Prop :=
  (∃ s, f.subject = .text s) ∨ m.Uses p f.scope ∧ ∀ scope, ¬ m.Uses .position scope

/-- Nothing but texts lies inside a text. -/
theorem pathless_hereditary :
  Hereditary m.Pathless
  := by
  have htext : ∀ {f f' : Focus}, (∃ s, f.subject = .text s) → f.Near f' →
      ∃ s, f'.subject = .text s := by
    rintro f f' ⟨s, hs⟩ hnear
    cases hnear with
    | moved _ => exact ⟨s, hs⟩
    | literal hv => cases Value.not_text_of_fieldAt? hv ⟨s, hs⟩
    | field hf _ => cases Value.not_text_of_fields? hf ⟨s, hs⟩
    | key hf _ => cases Value.not_text_of_fields? hf ⟨s, hs⟩
  constructor
  · intro p q f f' hp hq
    rcases hp with hs | ⟨huses, hposition⟩
    · left
      cases hq with
      | part _ hnear => apply htext hs hnear
      | inline _ => exact hs
    · right
      use m.uses_hereditary.evaluate huses hq
  · intro p body g rule f f' hp hq hbody
    rcases hp with hs | ⟨huses, hposition⟩
    · left
      cases hq with
      | rule _ => exact hs
      | ruleRef _ => exact hs
    · right
      use m.uses_hereditary.body huses hq hbody

/-- The match of the value of a field on its own, and the match in the field. -/
def fieldPairing (key : Value) : Pairing where
  evaluations p f p' f' := p = p' ∧ f.Beneath key f'
  applications g f g' f' := g = g' ∧ f.Beneath key f'
  known := m.Pathless
  known_hereditary := m.pathless_hereditary
  plan_corresponds := by
    rintro p _ f f' hknown ⟨rfl, h⟩
    apply Pattern.plan_beneath h
    · rintro rfl
      rcases hknown with hs | ⟨huses, hposition⟩
      · apply hs
      · cases hposition _ huses
    · exact fun q f f' h => .evaluate ⟨rfl, h⟩
    · exact fun rule g f f' h => .apply ⟨rfl, h⟩
  pos_eq h := h.2.pos
  body := by
    rintro g _ f f' rule ⟨rfl, h⟩
    cases g.rule? rule with
    | none => apply Option.Rel.none
    | some body => exact .some ⟨rfl, h.inScope g⟩
  same_eq := by
    rintro g _ g₁ _ f f' f₁ f₁' rule rule₁ ⟨rfl, h⟩ ⟨rfl, h₁⟩
    apply h.key_same_eq h₁

end Matcher

/-! ### Matches -/

/-- The same outcome, at the position of the object. -/
def Outcome.stopAt (pos : Nat) (r : Outcome) : Outcome :=
  r.map fun s => ⟨pos, s.captures⟩

/-- A field that is looked up is evaluated by evaluating its value. -/
theorem Pattern.eval_field {o : Options} {n depth : Nat} {p : Pattern} {key : FieldName}
    {value : Value} {f : Focus} {st : Progress}
    (hceiling : brokenCeiling? o (st.steps + 1) depth = none)
    (hvalue : f.subject.fieldAt? key.value = some value) :
  eval o (n + 1) depth (.field (.literal key) p) f st =
    match eval o n (depth + 1) p (f.inField key.value value) (st.enter f depth) with
    | .ok r st' => .ok (r.stopAt f.pos) st'
    | .error e st' => .error e st'
  := by
  rw [eval_succ, hceiling]
  simp only [plan, matchSelected, hvalue, matchField, Plan.evaluate, Plan.ask_bind, Plan.run_ask,
    Question.answer]
  cases eval o n (depth + 1) p (f.inField key.value value) (st.enter f depth) with
  | error e st' => rfl
  | ok r st' => cases r <;> rfl

namespace Matcher

/-- The same match, in a field of an object. -/
def inField (m : Matcher) (key : FieldName) : Matcher :=
  { m with pattern := .field (.literal key) m.pattern }

/-- The match of a value on its own is in lockstep with the evaluation of the same pattern in the
field that has the value. -/
theorem eval_inField_alike (m : Matcher) (hsteps : m.options.maxSteps = none)
    (hdepth : m.options.maxDepth = none) (d value key : Value)
    (hposition : (∃ s, value = .text s) ∨ ∀ scope, ¬ m.Uses .position scope) (n : Nat) :
  ((m.fieldPairing key).lockstep hsteps hdepth 1).Alike (Outcome.Agrees .identical)
    (m.pattern.eval m.options n 0 (.start value 0 m.outer) {})
    (m.pattern.eval m.options n 1 ((Focus.start d 0 m.outer).inField key value)
      (({} : Progress).enter (.start d 0 m.outer) 0))
  := by
  have hbeneath : Focus.Beneath key (.start value 0 m.outer)
      ((Focus.start d 0 m.outer).inField key value) :=
    ⟨rfl, rfl, rfl, .inr rfl⟩
  have hpathless : m.Pathless m.pattern (.start value 0 m.outer) := by
    rcases hposition with hs | hposition
    · exact .inl hs
    · exact .inr ⟨.start, hposition⟩
  have hst := (m.fieldPairing key).inStep_enter hsteps hdepth (.start d 0 m.outer) 0
  exact Lockstep.eval_alike n 0 ⟨rfl, hbeneath⟩ hpathless hst .start

/-- A match in a field of an object comes to the same as the match of the value of the field on its
own, except that it stops at the position of the object, and after one more step.  The value is a
text, or the match captures no positions.  Without ceilings the matches end. -/
theorem inField_like_alone (m : Matcher) (hsteps : m.options.maxSteps = none)
    (hdepth : m.options.maxDepth = none) (d value : Value) (key : FieldName)
    (hvalue : d.fieldAt? key.value = some value)
    (hposition : (∃ s, value = .text s) ∨ ∀ scope, ¬ m.Uses .position scope) :
  (∀ n, ((m.inField key).runWithin (n + 1) d 0).outcome
        = (m.runWithin n value 0).outcome.map (Outcome.stopAt 0)
      ∧ ((m.inField key).runWithin (n + 1) d 0).progress.steps
        = (m.runWithin n value 0).progress.steps + 1)
    ∧ ∀ n ≥ m.nestingBound value 0, Verdict.Ended (m.runWithin n value 0).outcome
  := by
  constructor
  · intro n
    have hrun := m.eval_inField_alike hsteps hdepth d value key.value hposition n
    have hceiling := Pattern.brokenCeiling?_of_no_ceilings hsteps hdepth
    simp only [runWithin, Run.record, inField]
    rw [Pattern.eval_field (hceiling _ _) hvalue]
    generalize m.pattern.eval m.options n 0 (.start value 0 m.outer) {} = x,
      m.pattern.eval m.options n (0 + 1) _ _ = y at hrun ⊢
    cases hrun with
    | ok hr hst =>
      rw [Outcome.agrees_identical_iff.1 hr]
      exact ⟨rfl, hst.steps⟩
    | @error e _ _ hdone =>
      refine ⟨?_, hdone.steps⟩
      cases e <;> rfl
  · exact fun n hn => runWithin_ended hsteps hdepth hn

end Matcher

/-- Two characters of a text inside a list.  The match in the list stops where it started. -/
theorem Matcher.inField_like_alone_spanOfTwo :
  (Value.list [.text "xyz"]).fieldAt? (.int 0) = some (.text "xyz")
    ∧ (spanOfTwo.runWithin 5 (.text "xyz") 0).outcome = .ok (some ⟨2, [⟨.text "xy", none⟩]⟩)
    ∧ ((spanOfTwo.inField (.int 0)).runWithin 6 (.list [.text "xyz"]) 0).outcome
      = .ok (some ⟨0, [⟨.text "xy", none⟩]⟩)
  := by
  have hvalue : (Value.list [.text "xyz"]).fieldAt? (.int 0) = some (.text "xyz") := rfl
  have halone : (spanOfTwo.runWithin 5 (.text "xyz") 0).outcome
      = .ok (some ⟨2, [⟨.text "xy", none⟩]⟩) := rfl
  obtain ⟨hruns, -⟩ := spanOfTwo.inField_like_alone rfl rfl _ _ (.int 0) hvalue (.inl ⟨_, rfl⟩)
  obtain ⟨hfield, -⟩ := hruns 5
  rw [halone] at hfield
  exact ⟨hvalue, halone, hfield⟩

end Peg
