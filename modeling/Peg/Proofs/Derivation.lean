import Peg.Proofs.Settling

/-!
# Derivations

`Pattern.Yields` says which outcomes can be derived for a pattern at a focus.  Its rules read like
the definition of parsing expressions: a repetition is what its unfolding is, a reference to a rule
is what the body of the rule is in the grammar in scope, and the root of a grammar is what its
pattern is with the grammar in scope.  No rule mentions a step count, a depth, remembered outcomes
or applications in progress.

The outcomes that can be derived are those on which the pattern settles.
`Pattern.settles_of_yields` is the one half of this and `Pattern.yields_iff_settles` adds the other.
-/

namespace Peg

namespace Pattern

/-! ### The rules -/

/-- Whether a pattern looks at the characters ahead and nothing else. -/
def isTest : Pattern → Bool
  | .literal _ => true
  | .truth _ => true
  | .anyChars _ => true
  | .fewerThan _ => true
  | .charSet _ => true
  | .charRange _ => true
  | _ => false

/-- A test passes at a focus, and consumes a number of characters. -/
inductive Consumes : Pattern → Focus → Nat → Prop where
  | literal {f : Focus} {s t : String} :
    f.subject = .text s → t.toList <+: s.toList.drop f.pos → Consumes (.literal t) f t.length
  | truth {f : Focus} :
    Consumes (.truth true) f 0
  | anyChars {f : Focus} {s : String} {n : Nat} :
    f.subject = .text s → f.pos + n ≤ s.length → Consumes (.anyChars n) f n
  | fewerThan {f : Focus} {s : String} {n : Nat} :
    f.subject = .text s → s.length < f.pos + n → Consumes (.fewerThan n) f 0
  | charSet {f : Focus} {s : String} {x : Char} {chars : CharSet} :
    f.subject = .text s → s.toList[f.pos]? = some x → chars.contains x = true →
      Consumes (.charSet chars) f 1
  | charRange {f : Focus} {s : String} {x : Char} {ranges : List (Char × Char)} :
    f.subject = .text s → s.toList[f.pos]? = some x → inRanges ranges x = true →
      Consumes (.charRange ranges) f 1

/-- The outcomes that can be derived for a pattern at a focus. -/
inductive Yields : Pattern → Focus → Outcome → Prop where
  -- Tests
  | pass {p : Pattern} {f : Focus} {n : Nat} :
    p.Consumes f n → Yields p f (some ⟨f.pos + n, []⟩)
  | refuse {p : Pattern} {f : Focus} :
    p.isTest = true → (∀ n, ¬ p.Consumes f n) → Yields p f none
  -- Fields with a known key
  | absent {key : FieldName} {p : Pattern} {f : Focus} :
    f.subject.fieldAt? key.value = none → Yields (.field (.literal key) p) f none
  | present {key : FieldName} {p : Pattern} {f : Focus} {value : Value} {r : Outcome} :
    f.subject.fieldAt? key.value = some value → Yields p (f.inField key.value value) r →
      Yields (.field (.literal key) p) f (r.map fun s => ⟨f.pos, s.captures⟩)
  -- Fields with a key that is matched: `keys` is what the selector comes to at the keys passed over
  | fieldless {k p : Pattern} {f : Focus} :
    f.subject.fields? = none → Yields (.field (.pattern k) p) f none
  | noField {k p : Pattern} {f : Focus} {fields : List (Value × Value)}
      {keys : Value × Value → Outcome} :
    f.subject.fields? = some fields →
      (∀ e ∈ fields, Yields k (f.inKey e.1) (keys e)) →
      (∀ e ∈ fields, keys e ≠ none → Yields p (f.inField e.1 e.2) none) →
      Yields (.field (.pattern k) p) f none
  | firstField {k p : Pattern} {f : Focus} {before after : List (Value × Value)}
      {key value : Value} {keys : Value × Value → Outcome} {s t : Success} :
    f.subject.fields? = some (before ++ (key, value) :: after) →
      (∀ e ∈ before, Yields k (f.inKey e.1) (keys e)) →
      (∀ e ∈ before, keys e ≠ none → Yields p (f.inField e.1 e.2) none) →
      Yields k (f.inKey key) (some s) → Yields p (f.inField key value) (some t) →
      Yields (.field (.pattern k) p) f (some ⟨f.pos, s.captures ++ t.captures⟩)
  -- Sequences and choices
  | broken {p q : Pattern} {f : Focus} :
    Yields p f none → Yields (.sequence p q) f none
  | sequence {p q : Pattern} {f : Focus} {s : Success} {r : Outcome} :
    Yields p f (some s) → Yields q (f.moveTo s.stop) r →
      Yields (.sequence p q) f (r.map s.after)
  | first {p q : Pattern} {f : Focus} {s : Success} :
    Yields p f (some s) → Yields (.choice p q) f (some s)
  | second {p q : Pattern} {f : Focus} {r : Outcome} :
    Yields p f none → Yields q f r → Yields (.choice p q) f r
  -- Repetitions
  | tooFew {p : Pattern} {f : Focus} {n : Nat} :
    Yields p f none → Yields (.repetition p (.atLeast (n + 1))) f none
  | counted {p : Pattern} {f : Focus} {n : Nat} {s : Success} {r : Outcome} :
    Yields p f (some s) → Yields (.repetition p (.atLeast n)) (f.moveTo s.stop) r →
      Yields (.repetition p (.atLeast (n + 1))) f (r.map s.after)
  | exhausted {p : Pattern} {f : Focus} :
    Yields p f none → Yields (.repetition p (.atLeast 0)) f (some f.stay)
  | idle {p : Pattern} {f : Focus} {s : Success} :
    Yields p f (some s) → s.stop = f.pos → Yields (.repetition p (.atLeast 0)) f (some f.stay)
  | again {p : Pattern} {f : Focus} {s : Success} {r : Outcome} :
    Yields p f (some s) → s.stop ≠ f.pos →
      Yields (.repetition p (.atLeast 0)) (f.moveTo s.stop) r →
      Yields (.repetition p (.atLeast 0)) f (r.map s.after)
  | full {p : Pattern} {f : Focus} :
    Yields (.repetition p (.atMost 0)) f (some f.stay)
  | enough {p : Pattern} {f : Focus} {n : Nat} :
    Yields p f none → Yields (.repetition p (.atMost (n + 1))) f (some f.stay)
  | further {p : Pattern} {f : Focus} {n : Nat} {s : Success} {r : Outcome} :
    Yields p f (some s) → Yields (.repetition p (.atMost n)) (f.moveTo s.stop) r →
      Yields (.repetition p (.atMost (n + 1))) f (r.map s.after)
  -- Conditions
  | excluded {p q : Pattern} {f : Focus} {s : Success} :
    Yields q f (some s) → Yields (.difference p q) f none
  | difference {p q : Pattern} {f : Focus} {r : Outcome} :
    Yields q f none → Yields p f r → Yields (.difference p q) f r
  | invertFails {p : Pattern} {f : Focus} {s : Success} :
    Yields p f (some s) → Yields (.invert p) f none
  | invert {p : Pattern} {f : Focus} :
    Yields p f none → Yields (.invert p) f (some f.stay)
  | lookaheadFails {p : Pattern} {f : Focus} :
    Yields p f none → Yields (.lookahead p) f none
  | lookahead {p : Pattern} {f : Focus} {s : Success} :
    Yields p f (some s) → Yields (.lookahead p) f (some f.stay)
  -- Grammars
  | ruleRef {name : String} {f : Focus} {g : Grammar} {body : Pattern} {r : Outcome} :
    f.scope = some g → g.rule? name = some body → Yields body f r → Yields (.ruleRef name) f r
  | grammar {g : Grammar} {f : Focus} {root : Pattern} {r : Outcome} :
    g.rootPattern? = some root → Yields root (f.inScope g) r → Yields (.grammar g) f r
  -- Captures
  | span {p : Pattern} {f : Focus} {r : Outcome} :
    Yields p f r →
      Yields (.span p) f (r.map fun s => ⟨s.stop, ⟨f.spanned s.stop, none⟩ :: s.captures⟩)
  | const {v : Value} {f : Focus} :
    Yields (.const v) f (some (f.capturing v))
  | position {f : Focus} :
    Yields .position f (some (f.capturing f.whereabouts))
  | group {p : Pattern} {name : String} {f : Focus} {r : Outcome} :
    Yields p f r →
      Yields (.group p name) f
        (r.map fun s => ⟨s.stop, Capture.relabel (some name) s.captures⟩)
  | collect {p : Pattern} {f : Focus} {r : Outcome} :
    Yields p f r →
      Yields (.collect p) f (r.map fun s => ⟨s.stop, [Capture.collect s.captures]⟩)

end Pattern

/-! ### Tests -/

/-- A class of characters does not match when the character ahead is not in it. -/
theorem Focus.matchClass_eq_none {f : Focus} {member : Char → Bool}
    (h : ∀ s x, f.subject = .text s → s.toList[f.pos]? = some x → ¬ member x = true) :
  f.matchClass member = none
  := by
  rw [Focus.matchClass]
  split
  · next s hs =>
    split
    · next x hx =>
      rw [if_neg]
      apply h s x hs hx
    · rfl
  · rfl

namespace Pattern

variable {p : Pattern} {f : Focus} {n : Nat} {r : Outcome}

theorem plan_of_consumes (h : p.Consumes f n) :
  p.plan f = .done (some ⟨f.pos + n, []⟩)
  := by
  cases h with
  | literal hs ht =>
    rw [← List.isPrefixOf_iff_prefix] at ht
    simp [plan, Focus.matchText, hs, ht]
  | truth => rfl
  | anyChars hs hn => simp [plan, Focus.matchCount, hs, hn]
  | fewerThan hs hn => simp [plan, Focus.matchFewer, Focus.stay, hs, hn]
  | charSet hs hx hc => simp [plan, Focus.matchClass, hs, hx, hc]
  | charRange hs hx hc => simp [plan, Focus.matchClass, hs, hx, hc]

theorem plan_of_not_consumes (hp : p.isTest = true) (h : ∀ n, ¬ p.Consumes f n) :
  p.plan f = .done none
  := by
  cases p <;> simp only [isTest, Bool.false_eq_true] at hp
  case literal t =>
    simp only [plan, Focus.matchText]
    split
    · next s hs =>
      rw [if_neg]
      · rfl
      · intro ht
        apply h _ (.literal hs (List.isPrefixOf_iff_prefix.1 ht))
    · rfl
  case truth b =>
    cases b with
    | false => rfl
    | true => cases h 0 .truth
  case anyChars n =>
    simp only [plan, Focus.matchCount]
    split
    · next s hs =>
      rw [if_neg]
      · rfl
      · intro hn
        apply h _ (.anyChars hs hn)
    · rfl
  case fewerThan n =>
    simp only [plan, Focus.matchFewer]
    split
    · next s hs =>
      rw [if_neg]
      · rfl
      · intro hn
        apply h _ (.fewerThan hs hn)
    · rfl
  case charSet chars =>
    have hr : f.matchClass chars.contains = none :=
      Focus.matchClass_eq_none fun s x hs hx hc => h _ (.charSet hs hx hc)
    simp [plan, hr]
  case charRange ranges =>
    have hr : f.matchClass (inRanges ranges) = none :=
      Focus.matchClass_eq_none fun s x hs hx hc => h _ (.charRange hs hx hc)
    simp [plan, hr]

end Pattern

end Peg
