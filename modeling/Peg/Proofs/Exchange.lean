import Peg.Proofs.Termination
import Peg.Proofs.Views

/-!
# Patterns that can be exchanged

Without ceilings every match ends, and `Matcher.EndsWith` says with what.  Two patterns are
`Interchangeable` when their matches always end with the same outcome or the same error, whatever
the subject, the position, the outer grammar and the options are.

`Pattern.Refines` is the stronger relation that holds in every view, of which patterns inside other
ones are evaluated; it is kept by the operations on patterns.  A pattern that refines another one is
interchangeable with it, since what a pattern comes to is unique.
-/

namespace Peg

variable {subject : Value} {pos : Nat} {p q r : Pattern}

/-! ### How matches end -/

/-- A match ends with a verdict, which is not the fault of a ceiling, whenever evaluations may nest
as deeply as they have to. -/
structure Matcher.EndsWith (m : Matcher) (subject : Value) (pos : Nat)
    (v : Except Fault Outcome) : Prop where
  ended : Verdict.Ended v
  outcome_eq : ∀ n ≥ m.nestingBound subject pos, (m.runWithin n subject pos).outcome = v

namespace Matcher

variable {m : Matcher}

/-- A match ends in one way only. -/
theorem EndsWith.unique {v w : Except Fault Outcome} (h : m.EndsWith subject pos v)
    (h' : m.EndsWith subject pos w) :
  v = w
  := by
  rw [← h.outcome_eq _ (Nat.le_refl _), h'.outcome_eq _ (Nat.le_refl _)]

/-- What a match without ceilings comes to in the view that there is at its start. -/
theorem exists_comesTo (hsteps : m.options.maxSteps = none) (hdepth : m.options.maxDepth = none)
    {n : Nat} (hn : m.nestingBound subject pos ≤ n) :
  ∃ v : Except Fault (Outcome × View m.options.memoize),
    m.pattern.ComesTo (.start subject pos m.outer) (Progress.view m.options {}) v
      ∧ (m.runWithin n subject pos).outcome = v.map Prod.fst
  := by
  have hended := runWithin_ended hsteps hdepth hn
  have hrun := Pattern.eval_comesTo hsteps hdepth n 0 m.pattern (.start subject pos m.outer) {}
  simp only [runWithin, Run.record] at hended ⊢
  cases hx : m.pattern.eval m.options n 0 (.start subject pos m.outer) {} with
  | ok r st =>
    rw [hx] at hrun
    exact ⟨_, hrun, rfl⟩
  | error e st =>
    rw [hx] at hrun hended
    obtain he | he := hrun
    · rw [hended e rfl] at he
      cases he
    · exact ⟨_, he, rfl⟩

/-- A match without ceilings ends with what its pattern comes to. -/
theorem endsWith_of_comesTo (hsteps : m.options.maxSteps = none)
    (hdepth : m.options.maxDepth = none)
    {v : Except Fault (Outcome × View m.options.memoize)}
    (h : m.pattern.ComesTo (.start subject pos m.outer) (Progress.view m.options {}) v) :
  m.EndsWith subject pos (v.map Prod.fst)
  := by
  have hends : ∀ n ≥ m.nestingBound subject pos,
      (m.runWithin n subject pos).outcome = v.map Prod.fst := by
    intro n hn
    obtain ⟨w, hw, heq⟩ := exists_comesTo hsteps hdepth hn
    rw [heq, h.unique hw]
  constructor
  · rw [← hends _ (Nat.le_refl _)]
    apply runWithin_ended hsteps hdepth (Nat.le_refl _)
  · exact hends

end Matcher

namespace Pattern

/-! ### Patterns that end alike -/

/-- The matches of two patterns on a subject end with the same verdict, from any position, with any
outer grammar and with all options without ceilings. -/
def EndsLikeOn (subject : Value) (p q : Pattern) : Prop :=
  ∀ (pos : Nat) (outer : Option Grammar) (o : Options), o.maxSteps = none → o.maxDepth = none →
    ∃ v, Matcher.EndsWith ⟨p, outer, o⟩ subject pos v ∧ Matcher.EndsWith ⟨q, outer, o⟩ subject pos v

/-- The matches of two patterns end with the same verdict on every subject. -/
def Interchangeable (p q : Pattern) : Prop :=
  ∀ subject, EndsLikeOn subject p q

/-- Patterns end alike when the second one comes to whatever the first one comes to in an acceptable
view, for the view at the start of a match is acceptable. -/
theorem endsLikeOn_of_acceptable
    (h : ∀ (m : Bool) (f : Focus) (s : View m) (v : Except Fault (Outcome × View m)),
      s.Acceptable → f.subject = subject → p.ComesTo f s v → q.ComesTo f s v) :
  EndsLikeOn subject p q
  := by
  intro pos outer o hsteps hdepth
  let m : Matcher := ⟨p, outer, o⟩
  obtain ⟨v, hv, -⟩ := m.exists_comesTo hsteps hdepth (Nat.le_refl (m.nestingBound subject pos))
  use v.map Prod.fst, m.endsWith_of_comesTo hsteps hdepth hv
  apply Matcher.endsWith_of_comesTo (m := ⟨q, outer, o⟩) hsteps hdepth
  apply h o.memoize _ _ v (Progress.acceptable_view_start o) rfl hv

theorem endsLikeOn_of_comesTo
    (h : ∀ (m : Bool) (f : Focus) (s : View m) (v : Except Fault (Outcome × View m)),
      f.subject = subject → p.ComesTo f s v → q.ComesTo f s v) :
  EndsLikeOn subject p q
  := endsLikeOn_of_acceptable fun m f s v _ => h m f s v

/-! ### Refinement -/

/-- Whatever the first pattern comes to in a view, the second one comes to as well. -/
def Refines (p q : Pattern) : Prop :=
  ∀ (m : Bool) (f : Focus) (s : View m) (v : Except Fault (Outcome × View m)),
    p.ComesTo f s v → q.ComesTo f s v

theorem Refines.refl (p : Pattern) :
  p.Refines p
  := fun _ _ _ _ h => h

theorem Refines.trans (h : p.Refines q) (h' : q.Refines r) :
  p.Refines r
  := fun m f s v hp => h' m f s v (h m f s v hp)

theorem Refines.interchangeable (h : p.Refines q) :
  Interchangeable p q
  := fun _ => endsLikeOn_of_comesTo fun m f s v _ => h m f s v

/-- The first pattern of a sequence can be refined. -/
theorem Refines.sequence_left (h : q.Refines r) (p : Pattern) :
  (Pattern.sequence q p).Refines (Pattern.sequence r p)
  := by
  intro m f s v hv
  rw [comesTo_sequence_iff] at hv ⊢
  obtain ⟨x, s', w, hq, hp, rfl⟩ | ⟨s', hq, rfl⟩ | ⟨e, hq, rfl⟩ := hv
  · exact .inl ⟨x, s', w, h m f s _ hq, hp, rfl⟩
  · exact .inr (.inl ⟨s', h m f s _ hq, rfl⟩)
  · exact .inr (.inr ⟨e, h m f s _ hq, rfl⟩)

/-- The second pattern of a sequence can be refined. -/
theorem Refines.sequence (p : Pattern) (h : q.Refines r) :
  (sequence p q).Refines (sequence p r)
  := by
  intro m f s v hv
  rw [comesTo_sequence_iff] at hv ⊢
  obtain ⟨x, s', w, hp, hq, rfl⟩ | hv := hv
  · exact .inl ⟨x, s', w, hp, h m _ s' w hq, rfl⟩
  · exact .inr hv

/-- The second pattern of a choice can be refined. -/
theorem Refines.choice (p : Pattern) (h : q.Refines r) :
  (choice p q).Refines (choice p r)
  := by
  intro m f s v hv
  rw [comesTo_choice_iff] at hv ⊢
  obtain hv | ⟨s', hp, hq⟩ | hv := hv
  · exact .inl hv
  · exact .inr (.inl ⟨s', hp, h m f s' v hq⟩)
  · exact .inr (.inr hv)

end Pattern

/-! ### Constructions -/

/-- Two constructions of given operands make patterns that are related, if patterns can be made of
the operands; otherwise they fail as that does. -/
def Build.Pairs (operands : List Value) (rel : Pattern → Pattern → Prop) (x y : Build Value) :
    Prop :=
  ∀ n,
    match Value.toPatterns operands n with
    | .ok _ k => ∃ p q, x n = .ok (.pattern p) k ∧ y n = .ok (.pattern q) k ∧ rel p q
    | .error e k => x n = .error e k ∧ y n = .error e k

/-- A construction makes a pattern that has a property. -/
def Build.Gives (x : Build Value) (P : Pattern → Prop) : Prop :=
  ∃ p, (∀ n, x n = .ok (.pattern p) n) ∧ P p

end Peg
