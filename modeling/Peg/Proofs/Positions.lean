import Peg.Proofs.Nesting

/-!
# The law of positions

Positions stay inside the subject.  In a text of `n` characters they lie between `0` and `n`, and in
any other value there is only the position `0`; `Value.extent` is the last position.  Every
evaluation of a match begins at such a position, and if it succeeds it stops at one that is not
before it.  This is `Matcher.positions_within_extent`.
-/

namespace Peg

/-- The last position in a value: after all characters of a text, and zero in any other value. -/
def Value.extent : Value → Nat
  | .text s => s.length
  | _ => 0

namespace Focus

variable {f f' : Focus} {pos : Nat}

/-- A focus lies within the extent of its subject. -/
def WithinExtent (f : Focus) : Prop :=
  f.pos ≤ f.subject.extent

theorem room_eq (f : Focus) :
  f.room = f.subject.extent - f.pos
  := by
  rw [room]
  split
  · next s hs =>
    rw [hs]
    rfl
  · next hs =>
    rw [Value.extent]
    · rw [Nat.zero_sub]
    · apply hs

theorem room_text {s : String} (h : f.subject = .text s) :
  f.room = s.length - f.pos
  := by
  rw [room, h]

theorem room_object (h : ¬ ∃ s, f.subject = .text s) :
  f.room = 0
  := by
  rw [room]
  split
  · next s hs => cases h ⟨s, hs⟩
  · rfl

/-- What lies ahead of a focus within its subject lies within the subject. -/
theorem WithinExtent.ahead_iff (h : f.WithinExtent) :
  f.Ahead pos ↔ f.pos ≤ pos ∧ pos ≤ f.subject.extent
  := by
  rw [WithinExtent] at h
  rw [Ahead, room_eq, Nat.add_sub_cancel' h]

/-- The foci near one that lies within its subject lie within theirs. -/
theorem WithinExtent.near (h : f.WithinExtent) (hf : f.Near f') :
  f'.WithinExtent
  := by
  cases hf with
  | moved hpos => exact (h.ahead_iff.1 hpos).2
  | literal _ => apply Nat.zero_le
  | field _ _ => apply Nat.zero_le
  | key _ _ => apply Nat.zero_le

theorem withinExtent_hereditary :
  Hereditary fun _ f => f.WithinExtent
  := by
  constructor
  · intro p q f f' hf hq
    cases hq with
    | part _ hnear => apply hf.near hnear
    | inline _ => apply hf
  · intro p body g rule f f' hf hq _
    cases hq with
    | rule _ => apply hf
    | ruleRef _ => apply hf

end Focus

/-- A start lies within the extent of the subject, whatever integer it is given by. -/
theorem exists_startPosition (subject : Value) (i : Int) :
  ∃ pos, startPosition subject (.int i) = .ok pos ∧ pos ≤ subject.extent
  := by
  cases subject with
  | scalar a =>
    cases a with
    | text s => exact ⟨_, rfl, Nat.min_le_right _ _⟩
    | _ => exact ⟨0, rfl, Nat.zero_le _⟩
  | _ => exact ⟨0, rfl, Nat.zero_le _⟩

/-- Every evaluation in a match begins within the extent of its subject, and where it succeeds it
stops there too, not before it began.  The evaluations are those that make the visits of the match,
and the match itself is one of them. -/
theorem Matcher.positions_within_extent (m : Matcher) (nesting : Nat) (subject : Value) (i : Int) :
  ∃ start, startPosition subject (.int i) = .ok start
    ∧ (∀ e, (m.evaluation nesting subject start).Nests m.options e →
      e.focus.pos ≤ e.focus.subject.extent
        ∧ ∀ s st, e.result m.options = .ok (some s) st →
          e.focus.pos ≤ s.stop ∧ s.stop ≤ e.focus.subject.extent)
    ∧ (∀ v ∈ (m.runWithin nesting subject start).progress.visits,
      ∃ e, (m.evaluation nesting subject start).Nests m.options e ∧ e.visit = v)
    ∧ ∀ s, (m.runWithin nesting subject start).outcome = .ok (some s) →
      start ≤ s.stop ∧ s.stop ≤ subject.extent
  := by
  obtain ⟨start, hstart, hextent⟩ := exists_startPosition subject i
  have hlaw : ∀ e, (m.evaluation nesting subject start).Nests m.options e →
      e.focus.pos ≤ e.focus.subject.extent
        ∧ ∀ s st, e.result m.options = .ok (some s) st →
          e.focus.pos ≤ s.stop ∧ s.stop ≤ e.focus.subject.extent := by
    intro e he
    obtain ⟨hfocus, hmemo⟩ := nests_hereditary Focus.withinExtent_hereditary hextent he
    use hfocus
    intro s st hs
    have haccepts := (Pattern.eval_accepts hmemo hs).1
    exact hfocus.ahead_iff.1 (Focus.accepts_some.1 haccepts)
  use start, hstart, hlaw
  constructor
  · exact fun v hv => exists_nested_of_mem_visits hv
  · intro s hs
    obtain ⟨st, hst⟩ := Run.record_outcome_eq_ok_iff.1 hs
    exact (hlaw _ .refl).2 s st hst

end Peg
