import Peg.Proofs.Alongside

/-!
# Places that resemble each other

Two foci resemble each other when they have the same subject, position and scope, and paths that
agree; on a text the paths do not matter.  A pattern goes the same way at both foci, and its
outcomes agree: only captured paths can differ.  This is `Pattern.plan_corresponds`.
-/

namespace Peg

/-! ### Foci with paths that agree -/

/-- The same place, except that the paths need only agree, and on a text not even that. -/
structure Focus.Resembles (c : Comparison) (f g : Focus) : Prop where
  subject : f.subject = g.subject
  pos : f.pos = g.pos
  scope : f.scope = g.scope
  path : (∃ s, f.subject = .text s) ∨ Value.listAgrees c f.path g.path = true

/-- The same question about foci that resemble each other. -/
inductive Question.Resembles (c : Comparison) : Question → Question → Prop where
  | evaluate {p : Pattern} {f g : Focus} :
    f.Resembles c g → Resembles c (.evaluate p f) (.evaluate p g)
  | apply {g : Grammar} {rule : String} {f f' : Focus} :
    f.Resembles c f' → Resembles c (.apply g rule f) (.apply g rule f')

/-- Questions correspond when they are the same about foci that resemble each other, and answers
when they agree. -/
def Comparison.correspondence (c : Comparison) : Correspondence where
  questions := Question.Resembles c
  answers _ _ := Outcome.Agrees c

variable {c : Comparison} {f g : Focus}

namespace Focus

theorem Resembles.refl (f : Focus) :
  f.Resembles c f
  := ⟨rfl, rfl, rfl, .inr (Value.listAgrees_refl _)⟩

theorem Resembles.moveTo (h : f.Resembles c g) (pos : Nat) :
  (f.moveTo pos).Resembles c (g.moveTo pos)
  := ⟨h.subject, rfl, h.scope, h.path⟩

theorem Resembles.inScope (h : f.Resembles c g) (grammar : Grammar) :
  (f.inScope grammar).Resembles c (g.inScope grammar)
  := ⟨h.subject, h.pos, rfl, h.path⟩

theorem Resembles.inKey (h : f.Resembles c g) (key : Value) :
  (f.inKey key).Resembles c (g.inKey key)
  := ⟨rfl, rfl, h.scope, .inl ⟨_, rfl⟩⟩

/-- Foci on objects that resemble each other still do in the same field. -/
theorem Resembles.inField (h : f.Resembles c g) (hf : ¬ ∃ s, f.subject = .text s)
    (key value : Value) :
  (f.inField key value).Resembles c (g.inField key value)
  := by
  have hpath := h.path.resolve_left hf
  refine ⟨rfl, rfl, h.scope, .inr ?_⟩
  rw [Focus.inField, Focus.inField, Value.listAgrees_concat]
  use hpath, Value.agrees_refl key

theorem Resembles.whereabouts (h : f.Resembles c g) :
  f.whereabouts.agrees c g.whereabouts = true
  := by
  rcases h.path with ⟨s, hs⟩ | hpath
  · have hs' := h.subject.symm.trans hs
    simp only [Focus.whereabouts, hs, hs', h.pos]
    apply Value.agrees_refl
  · simp only [Focus.whereabouts]
    rw [← h.subject, h.pos]
    split
    · apply Value.agrees_refl
    · apply hpath

end Focus

/-- Resembling foci are on the same subject. -/
def Comparison.alongside (c : Comparison) : Alongside where
  foci := Focus.Resembles c
  subject h := h.subject
  pos h := h.pos
  moveTo h := h.moveTo
  inKey h := h.inKey
  inField h := h.inField

theorem apply_resembles {grammar : Grammar} {rule : String} (h : f.Resembles c g) :
  (Plan.apply grammar rule f).Corresponds c.correspondence (Outcome.Agrees c)
    (Plan.apply grammar rule g)
  := ⟨.apply h, fun _ _ hr => hr⟩

/-- A pattern goes the same way at foci that resemble each other, and its outcomes agree. -/
theorem Pattern.plan_corresponds (p : Pattern) (h : f.Resembles c g) :
  (p.plan f).Corresponds c.correspondence (Outcome.Agrees c) (p.plan g)
  := by
  apply plan_alongside (A := c.alongside) h
  · exact fun q _ f g h => .evaluate h
  · exact fun _ => h.whereabouts
  · rintro name rfl
    simp only [plan, ← h.scope]
    split
    · rfl
    · apply apply_resembles h
  · rintro grammar rfl
    simp only [matchRoot]
    split
    · apply apply_resembles h
    · exact ⟨.evaluate (h.inScope grammar), fun _ _ hr => hr⟩

end Peg
