import Mathlib.Data.Option.Basic
import Peg.Grammar.References
import Peg.Proofs.Plan

/-!
# What patterns ask

A pattern at a focus asks only about its parts, at foci near its own, and about the rules and roots
of grammars.  `Pattern.Asks` lists these questions.  As long as every answer stops ahead of the
focus of its question, so does the outcome of the pattern: this is `Pattern.plan_keeps`, the law of
positions for a single evaluation.
-/

namespace Peg

namespace Focus

/-- A position lies ahead of a focus: not before it, and as far as the subject goes. -/
def Ahead (f : Focus) (pos : Nat) : Prop :=
  f.pos ≤ pos ∧ pos ≤ f.pos + f.room

/-- An outcome is acceptable at a focus: a success stops ahead of it. -/
def Accepts (f : Focus) (r : Outcome) : Prop :=
  ∀ s ∈ r, f.Ahead s.stop

/-- The foci at which the parts of a pattern are evaluated: further on in the same subject, in a
field of it, or in the text of a key of a field. -/
inductive Near (f : Focus) : Focus → Prop where
  | moved {pos : Nat} : f.Ahead pos → Near f (f.moveTo pos)
  | literal {name : FieldName} {value : Value} :
    f.subject.fieldAt? name.value = some value → Near f (f.inField name.value value)
  | field {fields : List (Value × Value)} {key value : Value} :
    f.subject.fields? = some fields → (key, value) ∈ fields → Near f (f.inField key value)
  | key {fields : List (Value × Value)} {key value : Value} :
    f.subject.fields? = some fields → (key, value) ∈ fields → Near f (f.inKey key)

variable {f : Focus} {pos pos' : Nat} {r : Outcome} {s : Success}

@[simp]
theorem moveTo_self (f : Focus) :
  f.moveTo f.pos = f
  := rfl

@[simp]
theorem moveTo_moveTo (f : Focus) (pos pos' : Nat) :
  (f.moveTo pos).moveTo pos' = f.moveTo pos'
  := rfl

theorem ahead_self (f : Focus) :
  f.Ahead f.pos
  := ⟨Nat.le_refl _, Nat.le_add_right _ _⟩

theorem Ahead.trans (h : f.Ahead pos) (h' : (f.moveTo pos).Ahead pos') :
  f.Ahead pos'
  := by
  obtain ⟨h₁, h₂⟩ := h
  obtain ⟨h₁', h₂'⟩ := h'
  simp only [moveTo, room] at h₁ h₂ h₁' h₂'
  constructor
  · omega
  · simp only [room]
    split at h₂ <;> simp_all <;> omega

/-- Less room is left after a match that consumes something. -/
theorem room_moveTo_lt (h : f.Ahead pos) (hpos : pos ≠ f.pos) :
  (f.moveTo pos).room < f.room
  := by
  obtain ⟨h₁, h₂⟩ := h
  have hlt : f.pos < pos := by omega
  simp only [room, moveTo] at h₂ ⊢
  split
  · next s hs =>
    simp only [hs] at h₂
    omega
  · next hs =>
    split at h₂
    · next s hs' => cases hs s hs'
    · omega

theorem inScope_of_scope {g : Grammar} (h : f.scope = some g) :
  f.inScope g = f
  := by
  rw [inScope, ← h]

theorem near_self (f : Focus) :
  f.Near f
  := .moved f.ahead_self

/-- The same grammar is in scope at the foci near a focus. -/
theorem Near.scope_eq {f' : Focus} (h : f.Near f') :
  f'.scope = f.scope
  := by
  cases h <;> rfl

@[simp]
theorem accepts_none (f : Focus) :
  f.Accepts none
  := by
  simp [Accepts]

@[simp]
theorem accepts_some :
  f.Accepts (some s) ↔ f.Ahead s.stop
  := by
  simp [Accepts]

theorem accepts_stay (f : Focus) :
  f.Accepts (some f.stay)
  := accepts_some.2 f.ahead_self

theorem accepts_capturing (f : Focus) (v : Value) :
  f.Accepts (some (f.capturing v))
  := accepts_some.2 f.ahead_self

/-- What is acceptable further on is acceptable, also after captures made on the way. -/
theorem Accepts.after (hs : f.Ahead s.stop) (hr : (f.moveTo s.stop).Accepts r) :
  f.Accepts (r.map s.after)
  := by
  cases r with
  | none => apply accepts_none f
  | some r =>
    have hr := accepts_some.1 hr
    exact accepts_some.2 (hs.trans hr)

/-- An outcome remains acceptable when its captures are changed. -/
theorem Accepts.map {g : Success → Success} (hg : ∀ s, (g s).stop = s.stop) (hr : f.Accepts r) :
  f.Accepts (r.map g)
  := by
  cases r with
  | none => apply accepts_none f
  | some r =>
    apply accepts_some.2
    rw [hg]
    apply accepts_some.1 hr

/-! ### Matching characters -/

theorem accepts_matchText (f : Focus) (t : String) :
  f.Accepts (f.matchText t)
  := by
  rw [matchText]
  split
  · next s hs =>
    split
    · next h =>
      have hlen := (List.isPrefixOf_iff_prefix.1 h).length_le
      simp only [List.length_drop, String.length_toList] at hlen
      simp only [accepts_some, Ahead, room, hs]
      omega
    · apply accepts_none f
  · apply accepts_none f

theorem accepts_matchCount (f : Focus) (n : Nat) :
  f.Accepts (f.matchCount n)
  := by
  rw [matchCount]
  split
  · next s hs =>
    split
    · simp only [accepts_some, Ahead, room, hs]
      omega
    · apply accepts_none f
  · apply accepts_none f

theorem accepts_matchFewer (f : Focus) (n : Nat) :
  f.Accepts (f.matchFewer n)
  := by
  rw [matchFewer]
  split
  · split
    · apply accepts_stay f
    · apply accepts_none f
  · apply accepts_none f

theorem accepts_matchClass (f : Focus) (member : Char → Bool) :
  f.Accepts (f.matchClass member)
  := by
  rw [matchClass]
  split
  · next s hs =>
    split
    · next c hc =>
      split
      · have hlt := (List.getElem?_eq_some_iff.1 hc).1
        rw [String.length_toList] at hlt
        simp only [accepts_some, Ahead, room, hs]
        omega
      · apply accepts_none f
    · apply accepts_none f
  · apply accepts_none f

end Focus

/-! ### Questions -/

/-- The focus that a question is about. -/
def Question.focus : Question → Focus
  | .evaluate _ f => f
  | .apply _ _ f => f

/-- The questions that a pattern may ask at a focus. -/
inductive Pattern.Asks (f : Focus) : Pattern → Question → Prop where
  | part {p q : Pattern} {g : Focus} :
    q ∈ p.parts → f.Near g → Asks f p (.evaluate q g)
  | inline {g : Grammar} {q : Pattern} :
    g.root = .inline q → Asks f (.grammar g) (.evaluate q (f.inScope g))
  | rule {g : Grammar} {name : String} :
    g.root = .rule name → Asks f (.grammar g) (.apply g name f)
  | ruleRef {g : Grammar} {name : String} :
    f.scope = some g → Asks f (.ruleRef name) (.apply g name f)

/-- The terms under which the plan of a pattern is carried out: answers stop ahead of where their
questions start, and only a reference with no grammar in scope stops the match. -/
def Pattern.terms (p : Pattern) (f : Focus) : Terms where
  asks := p.Asks f
  answers q r := q.focus.Accepts r
  stops e := ∃ name, p = .ruleRef name ∧ f.scope = none
    ∧ e = .undefinedRule name (some .noGrammar)

/-! ### Repetitions -/

section Repetition

variable {t : Terms} {p : Pattern} {f : Focus} {pos : Nat}

/-- A pattern is evaluated, and then what depends on its outcome keeps to the terms. -/
theorem Plan.evaluate_keeps {α : Type} {P : α → Prop} {k : Outcome → Plan α}
    (ht : t.asks (.evaluate p f)) (hk : ∀ r, t.answers (.evaluate p f) r → (k r).Keeps t P) :
  (Plan.evaluate p f >>= k).Keeps t P
  := ⟨ht, hk⟩

variable (ht : ∀ pos, f.Ahead pos → t.asks (.evaluate p (f.moveTo pos)))
  (ha : ∀ q r, t.answers q r → q.focus.Accepts r)

include ht ha

theorem repeatExactly_keeps (n : Nat) (hpos : f.Ahead pos) :
  (repeatExactly p n (f.moveTo pos)).Keeps t (f.moveTo pos).Accepts
  := by
  induction n generalizing pos with
  | zero => apply Focus.accepts_stay _
  | succ n ih =>
    apply Plan.evaluate_keeps (ht pos hpos)
    intro r hr
    cases r with
    | none => apply Focus.accepts_none _
    | some s =>
      have hs := Focus.accepts_some.1 (ha _ _ hr)
      apply (ih (hpos.trans hs)).bind
      intro rest hrest
      apply hrest.after hs

theorem repeatGreedily_keeps (room : Nat) (hpos : f.Ahead pos) :
  (repeatGreedily p room (f.moveTo pos)).Keeps t fun s => (f.moveTo pos).Ahead s.stop
  := by
  induction room generalizing pos with
  | zero =>
    rw [repeatGreedily]
    apply Plan.evaluate_keeps (ht pos hpos)
    intro r hr
    cases r with
    | none => apply Focus.ahead_self _
    | some s =>
      dsimp only
      split
      · apply Focus.ahead_self _
      · apply Focus.ahead_self _
  | succ room ih =>
    rw [repeatGreedily]
    apply Plan.evaluate_keeps (ht pos hpos)
    intro r hr
    cases r with
    | none => apply Focus.ahead_self _
    | some s =>
      have hs := Focus.accepts_some.1 (ha _ _ hr)
      dsimp only
      split
      · apply Focus.ahead_self _
      · apply (ih (hpos.trans hs)).bind
        intro rest hrest
        apply hs.trans hrest

theorem repeatUpTo_keeps (n : Nat) (hpos : f.Ahead pos) :
  (repeatUpTo p n (f.moveTo pos)).Keeps t fun s => (f.moveTo pos).Ahead s.stop
  := by
  induction n generalizing pos with
  | zero => apply Focus.ahead_self _
  | succ n ih =>
    apply Plan.evaluate_keeps (ht pos hpos)
    intro r hr
    cases r with
    | none => apply Focus.ahead_self _
    | some s =>
      have hs := Focus.accepts_some.1 (ha _ _ hr)
      apply (ih (hpos.trans hs)).bind
      intro rest hrest
      apply hs.trans hrest

theorem repeated_keeps (bound : Bound) :
  (repeated p f bound).Keeps t f.Accepts
  := by
  cases bound with
  | atLeast n =>
    apply (repeatExactly_keeps ht ha n f.ahead_self).bind
    intro r hr
    cases r with
    | none => apply Focus.accepts_none f
    | some s =>
      have hs := Focus.accepts_some.1 hr
      apply (repeatGreedily_keeps ht ha _ hs).bind
      exact fun rest hrest => Focus.accepts_some.2 (hs.trans hrest)
  | atMost n =>
    apply (repeatUpTo_keeps ht ha n f.ahead_self).bind
    intro s hs
    apply Focus.accepts_some.2 hs

end Repetition

/-! ### Fields -/

section Field

variable {t : Terms} {p selector : Pattern} {f : Focus}

theorem matchField_keeps {key value : Value} (ht : t.asks (.evaluate p (f.inField key value))) :
  (matchField p f key value).Keeps t f.Accepts
  := by
  apply Plan.evaluate_keeps ht
  intro r hr
  cases r with
  | none => apply Focus.accepts_none f
  | some s => apply Focus.accepts_some.2 f.ahead_self

theorem scanFields_keeps {fields : List (Value × Value)}
    (ht : ∀ key value, (key, value) ∈ fields →
      t.asks (.evaluate selector (f.inKey key)) ∧ t.asks (.evaluate p (f.inField key value))) :
  (scanFields selector p f fields).Keeps t f.Accepts
  := by
  induction fields with
  | nil => apply Focus.accepts_none f
  | cons e fields ih =>
    obtain ⟨key, value⟩ := e
    obtain ⟨hkey, hvalue⟩ := ht key value List.mem_cons_self
    have hrest := ih fun key value h => ht key value (List.mem_cons_of_mem _ h)
    apply Plan.evaluate_keeps hkey
    intro r hr
    cases r with
    | none => apply hrest
    | some s =>
      apply (matchField_keeps hvalue).bind
      intro r' hr'
      cases r' with
      | none => apply hrest
      | some s' =>
        have hs' := Focus.accepts_some.1 hr'
        exact Focus.accepts_some.2 hs'

end Field

/-! ### Patterns -/

namespace Pattern

theorem parts_field_value (k : Selector) (v : Pattern) :
  v ∈ (Pattern.field k v).parts
  := by
  cases k <;> simp [parts]

/-- The plan of a pattern asks only what the pattern may ask.  When the answers stop ahead of where
their questions start, then so does the outcome. -/
theorem plan_keeps (p : Pattern) (f : Focus) :
  (p.plan f).Keeps (p.terms f) f.Accepts
  := by
  have here : ∀ q ∈ p.parts, (p.terms f).asks (.evaluate q f) :=
    fun q hq => .part hq f.near_self
  have moved : ∀ q ∈ p.parts, ∀ pos, f.Ahead pos →
      (p.terms f).asks (.evaluate q (f.moveTo pos)) :=
    fun q hq pos h => .part hq (.moved h)
  cases p with
  | literal t => apply f.accepts_matchText t
  | truth b =>
    cases b with
    | false => apply f.accepts_none
    | true => apply f.accepts_stay
  | anyChars n => apply f.accepts_matchCount n
  | fewerThan n => apply f.accepts_matchFewer n
  | charSet s => apply f.accepts_matchClass _
  | charRange rs => apply f.accepts_matchClass _
  | field k v =>
    have hv := parts_field_value k v
    cases k with
    | literal name =>
      simp only [plan, matchSelected]
      split
      · apply f.accepts_none
      · next value hvalue => exact matchField_keeps (.part hv (.literal hvalue))
    | pattern selector =>
      simp only [plan, matchSelected]
      split
      · exact f.accepts_none
      · next fields hf =>
        apply scanFields_keeps
        intro key value h
        exact ⟨.part (by simp [parts]) (.key hf h), .part hv (.field hf h)⟩
  | sequence p q =>
    apply Plan.evaluate_keeps (here p (by simp [parts]))
    intro r hr
    cases r with
    | none => apply f.accepts_none
    | some s =>
      have hs := Focus.accepts_some.1 hr
      apply Plan.evaluate_keeps (moved q (by simp [parts]) s.stop hs)
      exact fun rest hrest => Focus.Accepts.after hs hrest
  | choice p q =>
    apply Plan.evaluate_keeps (here p (by simp [parts]))
    intro r hr
    cases r with
    | none => exact ⟨here q (by simp [parts]), fun r' hr' => hr'⟩
    | some s => apply hr
  | repetition p bound =>
    exact repeated_keeps (moved p (by simp [parts])) (fun _ _ h => h) bound
  | difference p q =>
    apply Plan.evaluate_keeps (here q (by simp [parts]))
    intro r hr
    cases r with
    | none => exact ⟨here p (by simp [parts]), fun r' hr' => hr'⟩
    | some s => apply f.accepts_none
  | invert p =>
    apply Plan.evaluate_keeps (here p (by simp [parts]))
    intro r hr
    cases r with
    | none => apply f.accepts_stay
    | some s => apply f.accepts_none
  | lookahead p =>
    apply Plan.evaluate_keeps (here p (by simp [parts]))
    intro r hr
    cases r with
    | none => exact f.accepts_none
    | some s => exact f.accepts_stay
  | ruleRef name =>
    simp only [plan]
    split
    · next hs => exact ⟨name, rfl, hs, rfl⟩
    · next g hs => exact ⟨.ruleRef hs, fun r hr => hr⟩
  | grammar g =>
    simp only [plan, matchRoot]
    split
    · next name hg => exact ⟨.rule hg, fun r hr => hr⟩
    · next q hg => exact ⟨.inline hg, fun r hr => hr⟩
  | span p =>
    apply Plan.evaluate_keeps (here p (by simp [parts]))
    exact fun r hr => Focus.Accepts.map (fun _ => rfl) hr
  | const v => apply f.accepts_capturing v
  | position => apply f.accepts_capturing _
  | group p name =>
    apply Plan.evaluate_keeps (here p (by simp [parts]))
    exact fun r hr => Focus.Accepts.map (fun _ => rfl) hr
  | collect p =>
    apply Plan.evaluate_keeps (here p (by simp [parts]))
    exact fun r hr => Focus.Accepts.map (fun _ => rfl) hr

end Pattern

end Peg
