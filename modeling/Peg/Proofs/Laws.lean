import Peg.Proofs.Exchange
import Peg.Proofs.Replay

/-!
# Laws of sequences, choices and predicates

Sequences and choices are associative, and so it does not matter how their operands are bracketed.
A sequence distributes over a choice after it: the first pattern is evaluated a second time then,
which comes to the same.  A pattern without another one is that pattern after the failure of the
other one, and a pattern ahead is the failure of its failure.
-/

namespace Peg

theorem Success.after_assoc (r s t : Success) :
  (r.after s).after t = r.after (s.after t)
  := by
  simp [after]

namespace Pattern

variable {p q r : Pattern}

/-! ### Sequences and choices -/

theorem sequence_assoc (p q r : Pattern) :
  (sequence p (sequence q r)).Refines (sequence (sequence p q) r)
  := by
  intro m f s v h
  apply comesTo_sequence_iff.2
  obtain ⟨x, s', w, hp, hqr, rfl⟩ | ⟨s', hp, rfl⟩ | ⟨e, hp, rfl⟩ := comesTo_sequence_iff.1 h
  · obtain ⟨y, s'', w, hq, hr, rfl⟩ | ⟨s'', hq, rfl⟩ | ⟨e, hq, rfl⟩ := comesTo_sequence_iff.1 hqr
    · left
      use x.after y, s'', w
      refine ⟨?_, hr, ?_⟩
      · exact comesTo_sequence_iff.2 (.inl ⟨x, s', _, hp, hq, rfl⟩)
      · obtain e | ⟨_ | z, s'''⟩ := w
        · rfl
        · rfl
        · simp [Except.map, Success.after_assoc]
    · right; left
      exact ⟨s'', comesTo_sequence_iff.2 (.inl ⟨x, s', _, hp, hq, rfl⟩), rfl⟩
    · right; right
      exact ⟨e, comesTo_sequence_iff.2 (.inl ⟨x, s', _, hp, hq, rfl⟩), rfl⟩
  · right; left
    exact ⟨s', comesTo_sequence_iff.2 (.inr (.inl ⟨s', hp, rfl⟩)), rfl⟩
  · right; right
    exact ⟨e, comesTo_sequence_iff.2 (.inr (.inr ⟨e, hp, rfl⟩)), rfl⟩

theorem choice_assoc (p q r : Pattern) :
  (choice p (choice q r)).Refines (choice (choice p q) r)
  := by
  intro m f s v h
  apply comesTo_choice_iff.2
  obtain ⟨x, s', hp, rfl⟩ | ⟨s', hp, hqr⟩ | ⟨e, hp, rfl⟩ := comesTo_choice_iff.1 h
  · left
    exact ⟨x, s', comesTo_choice_iff.2 (.inl ⟨x, s', hp, rfl⟩), rfl⟩
  · have hpq : ∀ w, q.ComesTo f s' w → (choice p q).ComesTo f s w :=
      fun w hq => comesTo_choice_iff.2 (.inr (.inl ⟨s', hp, hq⟩))
    obtain ⟨x, s'', hq, rfl⟩ | ⟨s'', hq, hr⟩ | ⟨e, hq, rfl⟩ := comesTo_choice_iff.1 hqr
    · exact .inl ⟨x, s'', hpq _ hq, rfl⟩
    · exact .inr (.inl ⟨s'', hpq _ hq, hr⟩)
    · exact .inr (.inr ⟨e, hpq _ hq, rfl⟩)
  · right; right
    exact ⟨e, comesTo_choice_iff.2 (.inr (.inr ⟨e, hp, rfl⟩)), rfl⟩

/-- A sequence distributes over the choice after it.  When the first alternative fails the first
pattern is evaluated again; it has the same outcome as before and leaves the view as it is. -/
theorem sequence_choice_distrib (p q r : Pattern) :
  (sequence p (choice q r)).Refines (choice (sequence p q) (sequence p r))
  := by
  intro m f s v h
  apply comesTo_choice_iff.2
  obtain ⟨x, s', w, hp, hqr, rfl⟩ | ⟨s', hp, rfl⟩ | ⟨e, hp, rfl⟩ := comesTo_sequence_iff.1 h
  · have hpq : ∀ w, q.ComesTo (f.moveTo x.stop) s' w →
        (sequence p q).ComesTo f s (w.map (Prod.map (Option.map x.after) id)) :=
      fun w hq => comesTo_sequence_iff.2 (.inl ⟨x, s', w, hp, hq, rfl⟩)
    obtain ⟨y, s'', hq, rfl⟩ | ⟨s'', hq, hr⟩ | ⟨e, hq, rfl⟩ := comesTo_choice_iff.1 hqr
    · exact .inl ⟨x.after y, s'', hpq _ hq, rfl⟩
    · right; left
      use s'', hpq _ hq
      exact comesTo_sequence_iff.2 (.inl ⟨x, s'', w, hp.replay hq.grows, hr, rfl⟩)
    · exact .inr (.inr ⟨e, hpq _ hq, rfl⟩)
  · right; left
    use s', comesTo_sequence_iff.2 (.inr (.inl ⟨s', hp, rfl⟩))
    exact comesTo_sequence_iff.2 (.inr (.inl ⟨s', hp.replay (.refl s'), rfl⟩))
  · right; right
    exact ⟨e, comesTo_sequence_iff.2 (.inr (.inr ⟨e, hp, rfl⟩)), rfl⟩

/-! ### Predicates -/

theorem difference_refines (p q : Pattern) :
  (difference p q).Refines (sequence (invert q) p)
  := by
  intro m f s v h
  apply comesTo_sequence_iff.2
  obtain ⟨x, s', hq, rfl⟩ | ⟨s', hq, hp⟩ | ⟨e, hq, rfl⟩ := comesTo_difference_iff.1 h
  · right; left
    exact ⟨s', comesTo_invert_iff.2 (.inl ⟨x, s', hq, rfl⟩), rfl⟩
  · left
    use f.stay, s', v, comesTo_invert_iff.2 (.inr (.inl ⟨s', hq, rfl⟩)), hp
    obtain e | ⟨_ | x, s''⟩ := v <;> rfl
  · right; right
    exact ⟨e, comesTo_invert_iff.2 (.inr (.inr ⟨e, hq, rfl⟩)), rfl⟩

theorem lookahead_refines (p : Pattern) :
  (lookahead p).Refines (invert (invert p))
  := by
  intro m f s v h
  apply comesTo_invert_iff.2
  obtain ⟨x, s', hp, rfl⟩ | ⟨s', hp, rfl⟩ | ⟨e, hp, rfl⟩ := comesTo_lookahead_iff.1 h
  · right; left
    exact ⟨s', comesTo_invert_iff.2 (.inl ⟨x, s', hp, rfl⟩), rfl⟩
  · left
    exact ⟨f.stay, s', comesTo_invert_iff.2 (.inr (.inl ⟨s', hp, rfl⟩)), rfl⟩
  · right; right
    exact ⟨e, comesTo_invert_iff.2 (.inr (.inr ⟨e, hp, rfl⟩)), rfl⟩

/-! ### Any number of operands -/

/-- An operation on patterns that is associative, and may be refined in its second argument. -/
structure Associative (op : Pattern → Pattern → Pattern) : Prop where
  assoc : ∀ p q r, (op p (op q r)).Refines (op (op p q) r)
  refines_right : ∀ p q r, q.Refines r → (op p q).Refines (op p r)

theorem associative_sequence :
  Associative sequence
  := ⟨sequence_assoc, fun p _ _ => Refines.sequence p⟩

theorem associative_choice :
  Associative choice
  := ⟨choice_assoc, fun p _ _ => Refines.choice p⟩

/-- Patterns may be combined in two groups. -/
theorem Associative.combine_append {op : Pattern → Pattern → Pattern} (hop : Associative op)
    (p : Pattern) (ps : List Pattern) (q : Pattern) (qs : List Pattern) :
  (combine op p (ps ++ q :: qs)).Refines (op (combine op p ps) (combine op q qs))
  := by
  induction ps generalizing p with
  | nil => apply Refines.refl
  | cons p' ps ih => exact (hop.refines_right p _ _ (ih p')).trans (hop.assoc _ _ _)

end Pattern

/-! ### Constructions -/

theorem Value.toPatterns_append (vs ws : List Value) :
  toPatterns (vs ++ ws) = do
    let ps ← toPatterns vs
    let qs ← toPatterns ws
    return ps ++ qs
  := by
  induction vs with
  | nil => simp [toPatterns]
  | cons v vs ih => simp [toPatterns, ih]

/-- Of a value and more values a pattern and more patterns are made, or nothing. -/
theorem Value.toPatterns_cons_cases (v : Value) (vs : List Value) (n : Nat) :
  (∃ p ps k, toPatterns (v :: vs) n = .ok (p :: ps) k) ∨ ∃ e k, toPatterns (v :: vs) n = .error e k
  := by
  simp only [toPatterns, Bind.bind, EStateM.bind, Pure.pure, EStateM.pure]
  cases v.toPattern n with
  | error e k => exact .inr ⟨e, k, rfl⟩
  | ok p k =>
    cases hvs : toPatterns vs k with
    | error e l => exact .inr ⟨e, l, by simp [hvs]⟩
    | ok ps l => exact .inl ⟨p, ps, l, by simp [hvs]⟩

namespace Constructor

variable {name : String} {op : Pattern → Pattern → Pattern} {vs : List Value} {n k : Nat}

theorem asValue_combination_of_ok {p : Pattern} {ps : List Pattern}
    (h : Value.toPatterns vs n = .ok (p :: ps) k) :
  asValue (Pattern.combination name op vs) n = .ok (.pattern (Pattern.combine op p ps)) k
  := by
  simp [asValue, Pattern.combination, Bind.bind, EStateM.bind, h, Pure.pure, EStateM.pure]

theorem asValue_combination_of_error {e : Error} (h : Value.toPatterns vs n = .error e k) :
  asValue (Pattern.combination name op vs) n = .error e k
  := by
  simp [asValue, Pattern.combination, Bind.bind, EStateM.bind, h]

/-- Operands may be combined in two groups. -/
theorem combination_append (hop : Pattern.Associative op) (v w : Value) (vs ws : List Value) :
  Build.Pairs (v :: vs ++ w :: ws) Pattern.Interchangeable
    (asValue (Pattern.combination name op (v :: vs ++ w :: ws)))
    (do
      let a ← asValue (Pattern.combination name op (v :: vs))
      let b ← asValue (Pattern.combination name op (w :: ws))
      asValue (Pattern.combination name op [a, b]))
  := by
  intro n
  obtain ⟨p, ps, k, hv⟩ | ⟨e, k, hv⟩ := Value.toPatterns_cons_cases v vs n
  · obtain ⟨q, qs, l, hw⟩ | ⟨e, l, hw⟩ := Value.toPatterns_cons_cases w ws k
    · have hall : Value.toPatterns (v :: vs ++ w :: ws) n = .ok (p :: ps ++ q :: qs) l := by
        rw [Value.toPatterns_append]
        simp [Bind.bind, EStateM.bind, hv, hw, Pure.pure, EStateM.pure]
      simp only [hall]
      refine ⟨_, _, asValue_combination_of_ok hall, ?_,
        (hop.combine_append p ps q qs).interchangeable⟩
      simp only [Bind.bind, EStateM.bind, asValue_combination_of_ok hv,
        asValue_combination_of_ok hw]
      rfl
    · have hall : Value.toPatterns (v :: vs ++ w :: ws) n = .error e l := by
        rw [Value.toPatterns_append]
        simp [Bind.bind, EStateM.bind, hv, hw]
      simp only [hall]
      use asValue_combination_of_error hall
      simp only [Bind.bind, EStateM.bind, asValue_combination_of_ok hv,
        asValue_combination_of_error hw]
  · have hall : Value.toPatterns (v :: vs ++ w :: ws) n = .error e k := by
      rw [Value.toPatterns_append]
      simp [Bind.bind, EStateM.bind, hv]
    simp only [hall]
    use asValue_combination_of_error hall
    simp only [Bind.bind, EStateM.bind, asValue_combination_of_error hv]

/-- The laws of the operations.  The operands of a sequence or of a choice may be combined in two
groups, a sequence distributes over the choice after it, a pattern without another one is that
pattern after the other one inverted, and a pattern ahead is the pattern inverted twice.  Where the
operands cannot be made into patterns, both sides fail with the same error. -/
theorem operations_lawful (v w : Value) (vs ws : List Value) (p q r : Pattern) :
  Build.Pairs (v :: vs ++ w :: ws) Pattern.Interchangeable
      (sequence.apply (v :: vs ++ w :: ws))
      (do
        let a ← sequence.apply (v :: vs)
        let b ← sequence.apply (w :: ws)
        sequence.apply [a, b])
    ∧ Build.Pairs (v :: vs ++ w :: ws) Pattern.Interchangeable
      (choice.apply (v :: vs ++ w :: ws))
      (do
        let a ← choice.apply (v :: vs)
        let b ← choice.apply (w :: ws)
        choice.apply [a, b])
    ∧ Build.Pairs [.pattern p, .pattern q, .pattern r] Pattern.Interchangeable
      (do
        let c ← choice.apply [.pattern q, .pattern r]
        sequence.apply [.pattern p, c])
      (do
        let a ← sequence.apply [.pattern p, .pattern q]
        let b ← sequence.apply [.pattern p, .pattern r]
        choice.apply [a, b])
    ∧ Build.Pairs [.pattern p, .pattern q] Pattern.Interchangeable
      (difference.apply [.pattern p, .pattern q])
      (do
        let a ← invert.apply [.pattern q]
        sequence.apply [a, .pattern p])
    ∧ Build.Pairs [.pattern p] Pattern.Interchangeable
      (lookahead.apply [.pattern p])
      (do
        let a ← invert.apply [.pattern p]
        invert.apply [a])
  := by
  refine ⟨?_, ?_, ?_, ?_, ?_⟩
  · apply combination_append Pattern.associative_sequence
  · apply combination_append Pattern.associative_choice
  · exact fun _ => ⟨_, _, rfl, rfl, (Pattern.sequence_choice_distrib p q r).interchangeable⟩
  · exact fun _ => ⟨_, _, rfl, rfl, (Pattern.difference_refines p q).interchangeable⟩
  · exact fun _ => ⟨_, _, rfl, rfl, (Pattern.lookahead_refines p).interchangeable⟩

end Constructor

end Peg
