import Peg.Proofs.Endings
import Peg.Proofs.Positions
import Peg.Proofs.Repetition

/-!
# Patterns on objects

An object has no positions to go through, so every success on it stops where it started, and the
next pattern of a sequence or of a repetition is tried at the same focus again.  Whether a pattern
succeeds is then a truth value, and the operations on patterns are those on truth values.

A pattern that is tried again comes to the same, captures included.  So a repetition captures what
the pattern captures, as many times as it has to or may, and a greedy repetition drops its first
match.
-/

namespace Peg

variable {m : Bool} {s t : View m} {o : Options} {p q : Pattern} {f : Focus} {r : Success}

/-! ### Staying in place -/

section Object

variable (hf : ¬ ∃ s, f.subject = .text s)

include hf

theorem Focus.stop_eq_of_object (h : f.Accepts (some r)) :
  r.stop = f.pos
  := by
  obtain ⟨hle, hroom⟩ := Focus.accepts_some.1 h
  have hnone : f.room = 0 := Focus.room_object hf
  omega

/-- What comes after a success on an object is tried at the same focus. -/
theorem Focus.moveTo_of_object (h : f.Accepts (some r)) :
  f.moveTo r.stop = f
  := by
  rw [Focus.stop_eq_of_object hf h, Focus.moveTo_self]

end Object

/-! ### Truth values -/

/-- The evaluation of a pattern at a focus ends, and tells whether the pattern succeeds. -/
def Pattern.Decides (o : Options) (p : Pattern) (f : Focus) (b : Bool) : Prop :=
  ∃ r, p.EndsWith o f r ∧ r.isSome = b

theorem Outcome.Agrees.isSome_eq {c : Comparison} {r r' : Outcome} (h : Outcome.Agrees c r r') :
  r.isSome = r'.isSome
  := by
  cases h <;> rfl

namespace Pattern

section Boolean

variable (hsteps : o.maxSteps = none) (hdepth : o.maxDepth = none) {a b : Bool}

include hsteps hdepth

/-- An evaluation without ceilings tells whether a success or a failure can be derived. -/
theorem decides_iff :
  p.Decides o f b ↔ ∃ r, p.Yields f r ∧ r.isSome = b
  := by
  obtain ⟨top, hplaced⟩ := f.exists_placed
  constructor
  · rintro ⟨r, hr, rfl⟩
    obtain ⟨r₀, hr₀, hagrees⟩ := hr.exists_yields hsteps hdepth top.tells_alike hplaced
    exact ⟨r₀, hr₀, hagrees.isSome_eq⟩
  · rintro ⟨r₀, hr₀, rfl⟩
    obtain ⟨r, hr, hagrees⟩ := hr₀.exists_endsWith hsteps hdepth top.tells_alike hplaced
    exact ⟨r, hr, hagrees.isSome_eq.symm⟩

theorem Decides.sequence (hf : ¬ ∃ s, f.subject = .text s) (hp : p.Decides o f a)
    (hq : q.Decides o f b) :
  (Pattern.sequence p q).Decides o f (a && b)
  := by
  rw [decides_iff hsteps hdepth] at hp hq ⊢
  obtain ⟨r, hr, rfl⟩ := hp
  obtain ⟨r', hr', rfl⟩ := hq
  cases r with
  | none => exact ⟨none, .broken hr, rfl⟩
  | some s =>
    have hstays := Focus.moveTo_of_object hf (accepts_of_settles (yields_iff_settles.1 hr))
    rw [← hstays] at hr'
    exact ⟨_, .sequence hr hr', by simp⟩

theorem Decides.choice (hp : p.Decides o f a) (hq : q.Decides o f b) :
  (Pattern.choice p q).Decides o f (a || b)
  := by
  rw [decides_iff hsteps hdepth] at hp hq ⊢
  obtain ⟨r, hr, rfl⟩ := hp
  obtain ⟨r', hr', rfl⟩ := hq
  cases r with
  | none => exact ⟨r', .second hr hr', rfl⟩
  | some s => exact ⟨some s, .first hr, rfl⟩

theorem Decides.difference (hp : p.Decides o f a) (hq : q.Decides o f b) :
  (Pattern.difference p q).Decides o f (a && !b)
  := by
  rw [decides_iff hsteps hdepth] at hp hq ⊢
  obtain ⟨r, hr, rfl⟩ := hp
  obtain ⟨r', hr', rfl⟩ := hq
  cases r' with
  | none => exact ⟨r, .difference hr' hr, by simp⟩
  | some s => exact ⟨none, .excluded hr', by simp⟩

theorem Decides.invert (hp : p.Decides o f a) :
  (Pattern.invert p).Decides o f (!a)
  := by
  rw [decides_iff hsteps hdepth] at hp ⊢
  obtain ⟨r, hr, rfl⟩ := hp
  cases r with
  | none => exact ⟨_, .invert hr, rfl⟩
  | some s => exact ⟨none, .invertFails hr, rfl⟩

theorem Decides.lookahead (hp : p.Decides o f a) :
  (Pattern.lookahead p).Decides o f a
  := by
  rw [decides_iff hsteps hdepth] at hp ⊢
  obtain ⟨r, hr, rfl⟩ := hp
  cases r with
  | none => exact ⟨none, .lookaheadFails hr, rfl⟩
  | some s => exact ⟨_, .lookahead hr, rfl⟩

end Boolean

end Pattern

/-! ### Repetitions -/

/-- The captures of a success, so many times in a row. -/
def Success.times (n : Nat) (r : Success) : Success :=
  ⟨r.stop, (List.replicate n r.captures).flatten⟩

namespace Pattern

variable (hf : ¬ ∃ s, f.subject = .text s) (hs : s.Acceptable)

include hf hs

theorem ComesTo.stop_eq_of_object (h : p.ComesTo f s (.ok (some r, t))) :
  r.stop = f.pos
  := Focus.stop_eq_of_object hf (h.accepts hs).1

theorem ComesTo.moveTo_of_object (h : p.ComesTo f s (.ok (some r, t))) :
  f.moveTo r.stop = f
  := Focus.moveTo_of_object hf (h.accepts hs).1

theorem ComesTo.times_zero (h : p.ComesTo f s (.ok (some r, t))) :
  r.times 0 = f.stay
  := by
  rw [Success.times, Focus.stay, h.stop_eq_of_object hf hs]
  rfl

/-- A greedy repetition drops the first match on an object. -/
theorem greedy_on_object {r : Outcome} (h : p.ComesTo f s (.ok (r, t))) :
  (repetition p (.atLeast 0)).ComesTo f s (.ok (some f.stay, t))
  := by
  apply (comesTo_atLeast_zero_iff hs).2
  cases r with
  | none => exact ⟨_, .exhausted h, rfl⟩
  | some r => exact ⟨_, .idle h (h.stop_eq_of_object hf hs), rfl⟩

/-- A success that leaves the view as it is can be repeated with the same captures. -/
theorem atLeast_replayed (h : p.ComesTo f s (.ok (some r, s))) (n : Nat) :
  (repetition p (.atLeast n)).ComesTo f s (.ok (some (r.times n), s))
  := by
  induction n with
  | zero =>
    rw [h.times_zero hf hs]
    exact greedy_on_object hf hs h
  | succ n ih =>
    rw [← h.moveTo_of_object hf hs] at ih
    exact comesTo_atLeast_succ_iff.2 (comesTo_sequence_iff.2 (.inl ⟨r, s, _, h, ih, rfl⟩))

theorem atMost_replayed (h : p.ComesTo f s (.ok (some r, s))) (n : Nat) :
  (repetition p (.atMost n)).ComesTo f s (.ok (some (r.times n), s))
  := by
  induction n with
  | zero =>
    rw [h.times_zero hf hs]
    exact comesTo_atMost_zero_iff.2 rfl
  | succ n ih =>
    rw [← h.moveTo_of_object hf hs] at ih
    exact comesTo_atMost_succ_iff.2 (.inl ⟨r, s, _, h, ih, rfl⟩)

/-- A repetition with a least number captures on an object what the pattern does, that often. -/
theorem atLeast_on_object {r : Outcome} (h : p.ComesTo f s (.ok (r, t))) (n : Nat) :
  (repetition p (.atLeast (n + 1))).ComesTo f s (.ok (r.map (Success.times (n + 1)), t))
  := by
  apply comesTo_atLeast_succ_iff.2
  apply comesTo_sequence_iff.2
  cases r with
  | none => exact .inr (.inl ⟨t, h, rfl⟩)
  | some r =>
    have hrest := atLeast_replayed hf (h.accepts hs).2 (h.replay (.refl t)) n
    rw [← h.moveTo_of_object hf hs] at hrest
    exact .inl ⟨r, t, _, h, hrest, rfl⟩

/-- A repetition with a greatest number captures on an object what the pattern does, that often, and
nothing where the pattern fails. -/
theorem atMost_on_object {r : Outcome} (h : p.ComesTo f s (.ok (r, t))) (n : Nat) :
  (repetition p (.atMost (n + 1))).ComesTo f s
    (.ok (some (r.elim f.stay (Success.times (n + 1))), t))
  := by
  apply comesTo_atMost_succ_iff.2
  cases r with
  | none => exact .inr (.inl ⟨t, h, rfl⟩)
  | some r =>
    have hrest := atMost_replayed hf (h.accepts hs).2 (h.replay (.refl t)) n
    rw [← h.moveTo_of_object hf hs] at hrest
    exact .inl ⟨r, t, _, h, hrest, rfl⟩

end Pattern

/-! ### Constructions -/

/-- On objects the operations on patterns are those on truth values.  A repetition with a positive
number captures what the pattern does, so many times in a row; when the number is negative it also
succeeds where the pattern fails.  A repetition without a number succeeds and captures nothing. -/
theorem Constructor.boolean_on_objects (hsteps : o.maxSteps = none) (hdepth : o.maxDepth = none)
    (hf : ¬ ∃ s, f.subject = .text s) {a b : Outcome} (hp : p.EndsWith o f a)
    (hq : q.EndsWith o f b) (n : Nat) :
  Build.Gives (sequence.apply [.pattern p, .pattern q]) (·.Decides o f (a.isSome && b.isSome))
    ∧ Build.Gives (sequence.apply [.pattern q, .pattern p])
      (·.Decides o f (a.isSome && b.isSome))
    ∧ Build.Gives (choice.apply [.pattern p, .pattern q]) (·.Decides o f (a.isSome || b.isSome))
    ∧ Build.Gives (difference.apply [.pattern p, .pattern q])
      (·.Decides o f (a.isSome && !b.isSome))
    ∧ Build.Gives (invert.apply [.pattern p]) (·.Decides o f !a.isSome)
    ∧ Build.Gives (lookahead.apply [.pattern p]) (·.Decides o f a.isSome)
    ∧ Build.Gives (repetition.apply [.pattern p, .int (n + 1 : Nat)])
      (·.EndsWith o f (a.map (Success.times (n + 1))))
    ∧ Build.Gives (repetition.apply [.pattern p, .int (-(n + 1 : Nat))])
      (·.EndsWith o f (some (a.elim f.stay (Success.times (n + 1)))))
    ∧ Build.Gives (repetition.apply [.pattern p, .int 0]) (·.EndsWith o f (some f.stay))
  := by
  have hp' : p.Decides o f a.isSome := ⟨a, hp, rfl⟩
  have hq' : q.Decides o f b.isSome := ⟨b, hq, rfl⟩
  obtain ⟨t, ht⟩ := (Pattern.endsWith_iff_comesTo hsteps hdepth).1 hp
  have hs := Progress.acceptable_view_start o
  have hends : ∀ {p : Pattern} {r : Outcome}, p.ComesTo f (Progress.view o {}) (.ok (r, t)) →
      p.EndsWith o f r :=
    fun h => (Pattern.endsWith_iff_comesTo hsteps hdepth).2 ⟨t, h⟩
  refine ⟨⟨_, fun _ => rfl, hp'.sequence hsteps hdepth hf hq'⟩, ?_,
    ⟨_, fun _ => rfl, hp'.choice hsteps hdepth hq'⟩,
    ⟨_, fun _ => rfl, hp'.difference hsteps hdepth hq'⟩,
    ⟨_, fun _ => rfl, hp'.invert hsteps hdepth⟩, ⟨_, fun _ => rfl, hp'.lookahead hsteps hdepth⟩,
    ⟨_, fun _ => rfl, hends (Pattern.atLeast_on_object hf hs ht n)⟩,
    ⟨_, fun _ => rfl, hends (Pattern.atMost_on_object hf hs ht n)⟩,
    ⟨_, fun _ => rfl, hends (Pattern.greedy_on_object hf hs ht)⟩⟩
  rw [Bool.and_comm]
  exact ⟨_, fun _ => rfl, hq'.sequence hsteps hdepth hf hp'⟩

/-- A place inside an object, where there is another one with a single field. -/
def oneField : Focus :=
  ⟨.dict [(.text "a", .int 1)], 0, [.text "x"], none⟩

/-- A field with the key `a` and any value, for which a number is captured. -/
def sevenForA : Pattern :=
  .field (.literal (.text "a")) (.const (.int 7))

/-- A field with the key `b`. -/
def anyForB : Pattern :=
  .field (.literal (.text "b")) (.truth true)

/-- There is one of the fields and not the other one, and the number is captured twice. -/
theorem Constructor.boolean_on_objects_oneField :
  (¬ ∃ s, oneField.subject = .text s)
    ∧ sevenForA.EndsWith {} oneField (some ⟨0, [⟨.int 7, none⟩]⟩)
    ∧ anyForB.EndsWith {} oneField none
    ∧ Build.Gives (difference.apply [.pattern sevenForA, .pattern anyForB])
      (·.Decides {} oneField true)
    ∧ Build.Gives (repetition.apply [.pattern sevenForA, .int 2])
      (·.EndsWith {} oneField (some ⟨0, [⟨.int 7, none⟩, ⟨.int 7, none⟩]⟩))
  := by
  have hobject : ¬ ∃ s, oneField.subject = .text s := by
    rintro ⟨s, hs⟩
    cases hs
  have hseven : sevenForA.EndsWith {} oneField (some ⟨0, [⟨.int 7, none⟩]⟩) :=
    Pattern.endsWith_of_record (n := 2) rfl
  have hmissing : anyForB.EndsWith {} oneField none := Pattern.endsWith_of_record (n := 2) rfl
  obtain ⟨-, -, -, hdifference, -, -, htwice, -⟩ :=
    boolean_on_objects rfl rfl hobject hseven hmissing 1
  exact ⟨hobject, hseven, hmissing, hdifference, htwice⟩

end Peg
