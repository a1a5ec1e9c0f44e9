import Mathlib.Data.Option.Basic
import Peg.Grammar.References
import Peg.Proofs.Plan

/-!
# Patterns side by side

Runs are compared by following the plans of two patterns side by side.  A `Resemblance` says which
foci and which successes are related.  Patterns that combine related parts in the same way go the
same way at related foci: this is `Resemblance.parallel_corresponds`, and
`Resemblance.field_corresponds` for the fields of an object.
-/

namespace Peg

/-- A relation of foci, with a relation of the successes there, which is kept by what combinations
of patterns do. -/
structure Resemblance where
  foci : Focus → Focus → Prop
  successes : Success → Success → Prop
  stay {f g : Focus} : foci f g → successes f.stay g.stay
  moveTo {f g : Focus} {s s' : Success} :
    foci f g → successes s s' → foci (f.moveTo s.stop) (g.moveTo s'.stop)
  stop_iff {f g : Focus} {s s' : Success} :
    foci f g → successes s s' → (s.stop = f.pos ↔ s'.stop = g.pos)
  room {f g : Focus} : foci f g → f.room = g.room
  after {s s' t t' : Success} :
    successes s s' → successes t t' → successes (s.after t) (s'.after t')
  back {f g : Focus} {s s' : Success} :
    foci f g → successes s s' → successes ⟨f.pos, s.captures⟩ ⟨g.pos, s'.captures⟩

/-- The same combination of patterns, with parts that are related. -/
inductive Pattern.Parallel (rel : Pattern → Pattern → Prop) : Pattern → Pattern → Prop where
  | sequence {p p' q q' : Pattern} :
    rel p p' → rel q q' → Parallel rel (.sequence p q) (.sequence p' q')
  | choice {p p' q q' : Pattern} :
    rel p p' → rel q q' → Parallel rel (.choice p q) (.choice p' q')
  | repetition {p p' : Pattern} {bound : Bound} :
    rel p p' → Parallel rel (.repetition p bound) (.repetition p' bound)
  | difference {p p' q q' : Pattern} :
    rel p p' → rel q q' → Parallel rel (.difference p q) (.difference p' q')
  | invert {p p' : Pattern} : rel p p' → Parallel rel (.invert p) (.invert p')
  | lookahead {p p' : Pattern} : rel p p' → Parallel rel (.lookahead p) (.lookahead p')

/-- The same key, or patterns for keys that are related. -/
inductive Selector.Parallel (rel : Pattern → Pattern → Prop) : Selector → Selector → Prop where
  | literal (name : FieldName) : Parallel rel (.literal name) (.literal name)
  | pattern {p p' : Pattern} : rel p p' → Parallel rel (.pattern p) (.pattern p')

/-- What is related in two combinations are parts of them. -/
theorem Pattern.Parallel.of_parts {rel : Pattern → Pattern → Prop} {p p' : Pattern}
    (h : p.Parallel rel p') :
  p.Parallel (fun q q' => rel q q' ∧ q ∈ p.parts ∧ q' ∈ p'.parts) p'
  := by
  cases h with
  | sequence hp hq => exact .sequence ⟨hp, by simp [parts]⟩ ⟨hq, by simp [parts]⟩
  | choice hp hq => exact .choice ⟨hp, by simp [parts]⟩ ⟨hq, by simp [parts]⟩
  | repetition hp => exact .repetition ⟨hp, by simp [parts]⟩
  | difference hp hq => exact .difference ⟨hp, by simp [parts]⟩ ⟨hq, by simp [parts]⟩
  | invert hp => exact .invert ⟨hp, by simp [parts]⟩
  | lookahead hp => exact .lookahead ⟨hp, by simp [parts]⟩

theorem Value.not_text_of_fields? {v : Value} {fields : List (Value × Value)}
    (h : v.fields? = some fields) :
  ¬ ∃ s, v = .text s
  := by
  rintro ⟨s, rfl⟩
  cases h

theorem Value.not_text_of_fieldAt? {v key value : Value} (h : v.fieldAt? key = some value) :
  ¬ ∃ s, v = .text s
  := by
  rintro ⟨s, rfl⟩
  cases h

namespace Resemblance

/-- The relation of outcomes: two failures, or two successes that are related. -/
def outcomes (R : Resemblance) : Outcome → Outcome → Prop :=
  Option.Rel R.successes

/-- Related questions have related answers. -/
def correspondence (R : Resemblance) (questions : Question → Question → Prop) :
    Correspondence where
  questions := questions
  answers _ _ := R.outcomes

variable {R : Resemblance} {Q : Question → Question → Prop} {p p' q q' : Pattern} {f g : Focus}

/-- Two evaluations go the same way when plans that depend on their outcomes do after two failures
and after two successes. -/
theorem evaluate_corresponds {α β : Type} {P : α → β → Prop} {k : Outcome → Plan α}
    {l : Outcome → Plan β} (hq : Q (.evaluate p f) (.evaluate p' g))
    (hnone : (k none).Corresponds (R.correspondence Q) P (l none))
    (hsome : ∀ s s', R.successes s s' →
      (k (some s)).Corresponds (R.correspondence Q) P (l (some s'))) :
  (Plan.evaluate p f >>= k).Corresponds (R.correspondence Q) P (Plan.evaluate p' g >>= l)
  := by
  constructor
  · apply hq
  · intro r r' hr
    cases hr with
    | none => apply hnone
    | some hs => apply hsome _ _ hs

/-- An outcome that is passed on as it is. -/
theorem passing_corresponds (hq : Q (.evaluate p f) (.evaluate p' g)) :
  (Plan.evaluate p f).Corresponds (R.correspondence Q) R.outcomes (Plan.evaluate p' g)
  := ⟨hq, fun _ _ hr => hr⟩

/-! ### Repetitions -/

section Repetition

variable (hq : ∀ f g, R.foci f g → Q (.evaluate p f) (.evaluate p' g))

include hq

theorem repeatExactly_corresponds (n : Nat) (h : R.foci f g) :
  (repeatExactly p n f).Corresponds (R.correspondence Q) R.outcomes (repeatExactly p' n g)
  := by
  induction n generalizing f g with
  | zero => apply Option.Rel.some (R.stay h)
  | succ n ih =>
    apply evaluate_corresponds (hq f g h)
    · apply Option.Rel.none
    · intro s s' hs
      apply (ih (R.moveTo h hs)).bind
      intro r r' hr
      cases hr with
      | none => apply Option.Rel.none
      | some hr => apply Option.Rel.some (R.after hs hr)

theorem repeatGreedily_corresponds (room : Nat) (h : R.foci f g) :
  (repeatGreedily p room f).Corresponds (R.correspondence Q) R.successes
    (repeatGreedily p' room g)
  := by
  induction room generalizing f g with
  | zero =>
    rw [repeatGreedily, repeatGreedily]
    apply evaluate_corresponds (hq f g h)
    · apply R.stay h
    · -- without room an iteration is dropped, wherever it stops
      intro s s' hs
      dsimp only
      rw [ite_self, ite_self]
      apply R.stay h
  | succ room ih =>
    rw [repeatGreedily, repeatGreedily]
    apply evaluate_corresponds (hq f g h)
    · apply R.stay h
    · intro s s' hs
      dsimp only
      simp only [R.stop_iff h hs]
      split
      · apply R.stay h
      · apply (ih (R.moveTo h hs)).bind
        intro t t' ht
        apply R.after hs ht

theorem repeatUpTo_corresponds (n : Nat) (h : R.foci f g) :
  (repeatUpTo p n f).Corresponds (R.correspondence Q) R.successes (repeatUpTo p' n g)
  := by
  induction n generalizing f g with
  | zero => apply R.stay h
  | succ n ih =>
    apply evaluate_corresponds (hq f g h)
    · apply R.stay h
    · intro s s' hs
      apply (ih (R.moveTo h hs)).bind
      intro t t' ht
      apply R.after hs ht

/-- Repetitions go the same way when their bodies do. -/
theorem repeated_corresponds (bound : Bound) (h : R.foci f g) :
  (repeated p f bound).Corresponds (R.correspondence Q) R.outcomes (repeated p' g bound)
  := by
  cases bound with
  | atLeast n =>
    apply (repeatExactly_corresponds hq n h).bind
    intro r r' hr
    cases hr with
    | none => apply Option.Rel.none
    | some hs =>
      have hfoci := R.moveTo h hs
      simp only [R.room hfoci]
      apply (repeatGreedily_corresponds hq _ hfoci).bind
      intro t t' ht
      apply Option.Rel.some (R.after hs ht)
  | atMost n =>
    apply (repeatUpTo_corresponds hq n h).bind
    intro s s' hs
    apply Option.Rel.some hs

end Repetition

/-! ### Combinations -/

section Combination

variable {rel : Pattern → Pattern → Prop}
  (hrel : ∀ q q' f g, rel q q' → R.foci f g → Q (.evaluate q f) (.evaluate q' g))

include hrel

/-- Combinations go the same way when their parts do. -/
theorem parallel_corresponds (hp : p.Parallel rel p') (h : R.foci f g) :
  (p.plan f).Corresponds (R.correspondence Q) R.outcomes (p'.plan g)
  := by
  cases hp with
  | sequence hp hq =>
    apply evaluate_corresponds (hrel _ _ _ _ hp h)
    · apply Option.Rel.none
    · intro s s' hs
      apply evaluate_corresponds (hrel _ _ _ _ hq (R.moveTo h hs))
      · apply Option.Rel.none
      · exact fun t t' ht => Option.Rel.some (R.after hs ht)
  | choice hp hq =>
    apply evaluate_corresponds (hrel _ _ _ _ hp h)
    · apply passing_corresponds (hrel _ _ _ _ hq h)
    · exact fun s s' hs => Option.Rel.some hs
  | repetition hp => apply repeated_corresponds (fun f g => hrel _ _ f g hp) _ h
  | difference hp hq =>
    apply evaluate_corresponds (hrel _ _ _ _ hq h)
    · apply passing_corresponds (hrel _ _ _ _ hp h)
    · exact fun _ _ _ => Option.Rel.none
  | invert hp =>
    apply evaluate_corresponds (hrel _ _ _ _ hp h)
    · apply Option.Rel.some (R.stay h)
    · exact fun _ _ _ => Option.Rel.none
  | lookahead hp =>
    apply evaluate_corresponds (hrel _ _ _ _ hp h)
    · apply Option.Rel.none
    · exact fun _ _ _ => Option.Rel.some (R.stay h)

theorem matchField_corresponds (hp : rel p p') (h : R.foci f g) {key value : Value}
    (hfield : R.foci (f.inField key value) (g.inField key value)) :
  (matchField p f key value).Corresponds (R.correspondence Q) R.outcomes
    (matchField p' g key value)
  := by
  apply evaluate_corresponds (hrel _ _ _ _ hp hfield)
  · apply Option.Rel.none
  · exact fun _ _ hs => Option.Rel.some (R.back h hs)

/-- Fields are scanned the same way at foci on the same object, if foci inside it are related. -/
theorem scanFields_corresponds (hq : rel q q') (hp : rel p p') (h : R.foci f g)
    (hkey : ∀ key, R.foci (f.inKey key) (g.inKey key))
    (hfield : ∀ key value, R.foci (f.inField key value) (g.inField key value))
    (fields : List (Value × Value)) :
  (scanFields q p f fields).Corresponds (R.correspondence Q) R.outcomes
    (scanFields q' p' g fields)
  := by
  induction fields with
  | nil => apply Option.Rel.none
  | cons e fields ih =>
    apply evaluate_corresponds (hrel _ _ _ _ hq (hkey e.1))
    · apply ih
    · intro s s' hs
      apply (matchField_corresponds hrel hp h (hfield e.1 e.2)).bind
      intro r r' hr
      cases hr with
      | none => apply ih
      | some ht => apply Option.Rel.some (R.after hs ht)

/-- Fields go the same way at foci on the same object, if foci inside it are related. -/
theorem field_corresponds {k k' : Selector} (hk : k.Parallel rel k') (hp : rel p p')
    (h : R.foci f g) (hsubject : f.subject = g.subject)
    (hinside : (¬ ∃ s, f.subject = .text s) → ∀ key,
      R.foci (f.inKey key) (g.inKey key)
        ∧ ∀ value, R.foci (f.inField key value) (g.inField key value)) :
  ((Pattern.field k p).plan f).Corresponds (R.correspondence Q) R.outcomes
    ((Pattern.field k' p').plan g)
  := by
  simp only [Pattern.plan]
  cases hk with
  | literal name =>
    simp only [matchSelected, ← hsubject]
    split
    · apply Option.Rel.none
    · next value hvalue =>
      have hobject := Value.not_text_of_fieldAt? hvalue
      apply matchField_corresponds hrel hp h ((hinside hobject _).2 value)
  | pattern hq =>
    simp only [matchSelected, ← hsubject]
    split
    · apply Option.Rel.none
    · next fields hfields =>
      have hobject := Value.not_text_of_fields? hfields
      apply scanFields_corresponds hrel hq hp h
      · exact fun key => (hinside hobject key).1
      · exact fun key value => (hinside hobject key).2 value

end Combination

end Resemblance

/-! ### Primitive patterns -/

/-- The same lies ahead of two foci: the same rest of a text, or no text. -/
inductive Focus.SameAhead (f g : Focus) : Prop where
  | text {s t : String} :
    f.subject = .text s → g.subject = .text t →
      s.toList.drop f.pos = t.toList.drop g.pos → s.length + g.pos = t.length + f.pos →
      SameAhead f g
  | object :
    (∀ s, f.subject ≠ .text s) → (∀ t, g.subject ≠ .text t) → SameAhead f g

namespace Focus

variable {f g : Focus}

theorem sameAhead_of_eq (hsubject : f.subject = g.subject) (hpos : f.pos = g.pos) :
  f.SameAhead g
  := by
  by_cases hs : ∃ s, f.subject = .text s
  · obtain ⟨s, hs⟩ := hs
    apply SameAhead.text hs (hsubject ▸ hs)
    · rw [hpos]
    · rw [hpos]
  · apply SameAhead.object
    · exact fun s h => hs ⟨s, h⟩
    · exact fun s h => hs ⟨s, hsubject.trans h⟩

theorem SameAhead.room_eq (h : f.SameAhead g) :
  f.room = g.room
  := by
  cases h with
  | text hs ht _ hlen =>
    simp only [room, hs, ht]
    omega
  | object hs ht =>
    rw [room, room]
    split
    · next s hf => cases hs s hf
    · rfl

/-- Outcomes at two foci: two failures, or two successes that consume as much and capture
nothing. -/
inductive Consumes (f g : Focus) : Outcome → Outcome → Prop where
  | none : Consumes f g none none
  | some (n : Nat) : Consumes f g (some ⟨f.pos + n, []⟩) (some ⟨g.pos + n, []⟩)

theorem consumes_ite {b c : Prop} [Decidable b] [Decidable c] (h : b ↔ c) (n : Nat) :
  f.Consumes g (if b then some ⟨f.pos + n, []⟩ else none)
    (if c then some ⟨g.pos + n, []⟩ else none)
  := by
  simp only [h]
  split
  · apply Consumes.some
  · apply Consumes.none

theorem SameAhead.matchText (h : f.SameAhead g) (t : String) :
  f.Consumes g (f.matchText t) (g.matchText t)
  := by
  cases h with
  | text hs ht hdrop _ =>
    simp only [Focus.matchText, hs, ht, hdrop]
    apply consumes_ite Iff.rfl
  | object hs ht =>
    rw [Focus.matchText, Focus.matchText]
    split
    · next s hf => cases hs s hf
    · apply Consumes.none

theorem SameAhead.matchCount (h : f.SameAhead g) (n : Nat) :
  f.Consumes g (f.matchCount n) (g.matchCount n)
  := by
  cases h with
  | text hs ht _ hlen =>
    simp only [Focus.matchCount, hs, ht]
    apply consumes_ite
    omega
  | object hs ht =>
    rw [Focus.matchCount, Focus.matchCount]
    split
    · next s hf => cases hs s hf
    · apply Consumes.none

theorem SameAhead.matchFewer (h : f.SameAhead g) (n : Nat) :
  f.Consumes g (f.matchFewer n) (g.matchFewer n)
  := by
  cases h with
  | text hs ht _ hlen =>
    simp only [Focus.matchFewer, hs, ht]
    apply consumes_ite _ 0
    omega
  | object hs ht =>
    rw [Focus.matchFewer, Focus.matchFewer]
    split
    · next s hf => cases hs s hf
    · apply Consumes.none

theorem SameAhead.matchClass (h : f.SameAhead g) (member : Char → Bool) :
  f.Consumes g (f.matchClass member) (g.matchClass member)
  := by
  cases h with
  | @text s t hs ht hdrop _ =>
    have hchar : s.toList[f.pos]? = t.toList[g.pos]? := by
      rw [← List.head?_drop, ← List.head?_drop, hdrop]
    simp only [Focus.matchClass, hs, ht, hchar]
    split
    · apply consumes_ite Iff.rfl
    · apply Consumes.none
  | object hs ht =>
    rw [Focus.matchClass, Focus.matchClass]
    split
    · next s hf => cases hs s hf
    · apply Consumes.none

end Focus

/-- Whether a pattern looks only at what lies ahead in a text, or at nothing, and captures
nothing. -/
def Pattern.isPrimitive : Pattern → Bool
  | .literal _ => true
  | .truth _ => true
  | .anyChars _ => true
  | .fewerThan _ => true
  | .charSet _ => true
  | .charRange _ => true
  | _ => false

/-- Where the same lies ahead, a primitive pattern consumes as much. -/
theorem Resemblance.primitive_corresponds {R : Resemblance} {Q : Question → Question → Prop}
    {p : Pattern} {f g : Focus} (hp : p.isPrimitive = true) (h : f.SameAhead g)
    (hR : ∀ n, R.successes ⟨f.pos + n, []⟩ ⟨g.pos + n, []⟩) :
  (p.plan f).Corresponds (R.correspondence Q) R.outcomes (p.plan g)
  := by
  have hconsumes : ∀ {r r' : Outcome}, f.Consumes g r r' → R.outcomes r r' := by
    intro r r' hr
    cases hr with
    | none => apply Option.Rel.none
    | some n => apply Option.Rel.some (hR n)
  cases p with
  | literal t => apply hconsumes (h.matchText t)
  | truth b =>
    cases b with
    | false => apply Option.Rel.none
    | true => apply Option.Rel.some (hR 0)
  | anyChars n => apply hconsumes (h.matchCount n)
  | fewerThan n => apply hconsumes (h.matchFewer n)
  | charSet s => apply hconsumes (h.matchClass _)
  | charRange rs => apply hconsumes (h.matchClass _)
  | _ => cases hp

end Peg
