import Mathlib.Logic.Relation
import Peg.Proofs.Building
import Peg.Proofs.Lexical

/-!
# What a value holds

Values hold other values, patterns hold their parts and constants, and grammars hold their rules and
roots.  `Value.Holds` lists what a value holds directly, and `Value.Occurs` follows it as far as it
goes, through lists and dictionaries, selectors and constants, and into nested grammars.

Whatever occurs in a well-formed value is well formed, by `Value.WellFormed.of_occurs`.  So every
pattern and every grammar in a value that an expression builds is proper: what its type leaves open
is as a match relies on it.
-/

namespace Peg

variable {v w : Value} {p q : Pattern} {g : Grammar}

/-! ### What occurs in a value -/

/-- A value holds another one directly. -/
inductive Value.Holds : Value → Value → Prop where
  | listItem {xs : List Value} {x : Value} : x ∈ xs → Holds (.list xs) x
  | tupleItem {xs : List Value} {x : Value} : x ∈ xs → Holds (.tuple xs) x
  | dictKey {es : List (Value × Value)} {e : Value × Value} : e ∈ es → Holds (.dict es) e.1
  | dictValue {es : List (Value × Value)} {e : Value × Value} : e ∈ es → Holds (.dict es) e.2
  | tableItem {xs : List Value} {fs : List (Value × Value)} {x : Value} :
    x ∈ xs → Holds (.table xs fs) x
  | tableKey {xs : List Value} {fs : List (Value × Value)} {e : Value × Value} :
    e ∈ fs → Holds (.table xs fs) e.1
  | tableValue {xs : List Value} {fs : List (Value × Value)} {e : Value × Value} :
    e ∈ fs → Holds (.table xs fs) e.2
  | part {p q : Pattern} : q ∈ p.parts → Holds (.pattern p) (.pattern q)
  | const {v : Value} : Holds (.pattern (.const v)) v
  | nested {g : Grammar} : Holds (.pattern (.grammar g)) (.grammar g)
  | rule {g : Grammar} {r : String × Pattern} : r ∈ g.rules → Holds (.grammar g) (.pattern r.2)
  | root {g : Grammar} {p : Pattern} : g.root = .inline p → Holds (.grammar g) (.pattern p)

/-- A value occurs in another one: it is that one, or the other one holds a value in which it
occurs. -/
def Value.Occurs (w v : Value) : Prop :=
  Relation.ReflTransGen Value.Holds v w

/-- The parts of a well-formed pattern are well formed. -/
theorem Pattern.WellFormed.part (h : p.WellFormed) (hq : q ∈ p.parts) :
  q.WellFormed
  := by
  have hpair : ∀ {a b : Pattern}, a.WellFormed ∧ b.WellFormed → q ∈ [a, b] → q.WellFormed := by
    rintro a b ⟨ha, hb⟩ hq
    rcases List.mem_pair.1 hq with rfl | rfl
    · apply ha
    · apply hb
  have hsingle : ∀ a : Pattern, a.WellFormed → q ∈ [a] → q.WellFormed := by
    intro a ha hq
    rw [List.mem_singleton.1 hq]
    apply ha
  cases p with
  | field k v =>
    cases k with
    | literal name => apply hsingle v h.2 hq
    | pattern k => apply hpair h hq
  | sequence a b => apply hpair h hq
  | choice a b => apply hpair h hq
  | repetition a bound => apply hsingle a h.1 hq
  | difference a b => apply hpair h hq
  | invert a => apply hsingle a h hq
  | lookahead a => apply hsingle a h hq
  | span a => apply hsingle a h hq
  | group a name => apply hsingle a h.1 hq
  | collect a => apply hsingle a h hq
  | _ => cases hq

theorem Grammar.WellFormed.sound (h : g.WellFormed) :
  g.Sound
  := by
  cases g
  apply h.1

theorem Grammar.WellFormed.rule {r : String × Pattern} (h : g.WellFormed) (hr : r ∈ g.rules) :
  r.2.WellFormed
  := by
  cases g
  apply rulesWellFormed_iff.1 h.2.1 r hr

theorem Grammar.WellFormed.inline (h : g.WellFormed) (hroot : g.root = .inline p) :
  p.WellFormed
  := by
  cases g
  cases hroot
  apply h.2.2

/-- What a well-formed value holds is well formed. -/
theorem Value.WellFormed.of_holds (h : v.WellFormed) (hw : v.Holds w) :
  w.WellFormed
  := by
  cases hw with
  | listItem hx => apply allWellFormed_iff.1 h _ hx
  | tupleItem hx => apply allWellFormed_iff.1 h _ hx
  | dictKey he => apply (entriesWellFormed_iff.1 h _ he).1
  | dictValue he => apply (entriesWellFormed_iff.1 h _ he).2
  | tableItem hx => apply allWellFormed_iff.1 h.1 _ hx
  | tableKey he => apply (entriesWellFormed_iff.1 h.2 _ he).1
  | tableValue he => apply (entriesWellFormed_iff.1 h.2 _ he).2
  | @part p q hq => exact Pattern.WellFormed.part (p := p) h hq
  | const => apply h
  | nested => apply h
  | @rule g r hr => exact Grammar.WellFormed.rule (g := g) h hr
  | @root g p hroot => exact Grammar.WellFormed.inline (g := g) h hroot

/-- What occurs in a well-formed value is well formed. -/
theorem Value.WellFormed.of_occurs (h : v.WellFormed) (hw : w.Occurs v) :
  w.WellFormed
  := by
  induction hw with
  | refl => apply h
  | tail _ hholds ih => apply ih.of_holds hholds

/-! ### Proper patterns and grammars -/

/-- A grammar has rules, all with proper names, its root is one of them or a pattern, and every
reference that it encloses is to one of them. -/
structure Grammar.Proper (g : Grammar) : Prop where
  nonempty : g.rules ≠ []
  names : ∀ r ∈ g.rules, RuleName r.1
  root : ∀ name, g.root = .rule name → (g.rule? name).isSome = true
  references : ∀ name, g.Encloses (.ruleRef name) → (g.rule? name).isSome = true

theorem Pattern.WellFormed.proper (h : p.WellFormed) :
  p.Proper
  := by
  cases p with
  | repetition _ bound => apply h.2
  | group _ name => apply h.2
  | fewerThan n => apply h
  | charRange rs => apply h
  | ruleRef name => apply h
  | _ => trivial

/-- In the scope of a grammar that resolves the references of a pattern, the rules are there. -/
theorem Pattern.ResolvesIn.rule_isSome {name : String} (h : p.ResolvesIn (some g))
    (hname : (ruleRef name).StandsIn p) :
  (g.rule? name).isSome = true
  := by
  obtain ⟨g', hg', hrule⟩ := h name (mem_references_iff.2 hname)
  cases hg'
  apply hrule

theorem Grammar.Sound.proper (h : g.Sound) :
  g.Proper
  := by
  refine ⟨h.nonempty, h.names, h.resolves.name, ?_⟩
  intro name hname
  cases hname with
  | rule hr hp => apply (h.resolves.rules _ hr).rule_isSome hp
  | root hroot hp => apply (h.resolves.root _ hroot).rule_isSome hp

/-- Whatever an expression builds in a session, every pattern and every grammar in it is proper,
also in selectors, constants and nested grammars. -/
theorem Expr.builds_proper (requests : List Request) (e : Expr) {n n' : Nat}
    (h : e.eval (Session.after requests).env n = .ok v n') :
  (∀ p, (Value.pattern p).Occurs v → p.Proper) ∧ ∀ g, (Value.grammar g).Occurs v → g.Proper
  := by
  have hv : v.WellFormed := (eval_makes (Session.after_wellFormed requests) e).made n v n' h
  constructor
  · intro p hp
    exact Pattern.WellFormed.proper (hv.of_occurs hp)
  · intro g hg
    exact (Grammar.WellFormed.sound (hv.of_occurs hg)).proper

/-- Numbers of up to three digits. -/
def shortNumbers : Grammar :=
  ⟨0, [("number", .repetition (.ruleRef "digit") (.atMost 3)), ("digit", .charRange [('0', '9')])],
    .rule "number"⟩

/-- A field with a digit for its key and a short number for its value. -/
def numberedField : Expr :=
  .call .field
    [.call .range [.scalar (.text "09")],
      .dict [(.scalar (.text "number"),
          .call .repetition [.call .rule [.scalar (.text "digit")], .scalar (.int (-3))]),
        (.scalar (.text "digit"), .call .range [.scalar (.text "09")])]]

/-- The range in the selector is proper, and so are the nested grammar and a repetition in it. -/
theorem Expr.builds_proper_numberedField :
  numberedField.eval (Session.after []).env 0
      = .ok (.pattern (.field (.pattern (.charRange [('0', '9')])) (.grammar shortNumbers))) 1
    ∧ (Pattern.charRange [('0', '9')]).Proper
    ∧ shortNumbers.Proper
    ∧ (Pattern.repetition (.ruleRef "digit") (.atMost 3)).Proper
  := by
  have hbuilds : numberedField.eval (Session.after []).env 0
      = .ok (.pattern (.field (.pattern (.charRange [('0', '9')])) (.grammar shortNumbers))) 1 := by
    with_unfolding_all rfl
  obtain ⟨hpatterns, hgrammars⟩ := builds_proper [] numberedField hbuilds
  have hnested : (Value.grammar shortNumbers).Occurs
      (.pattern (.field (.pattern (.charRange [('0', '9')])) (.grammar shortNumbers))) :=
    .tail (.single (.part (by simp [Pattern.parts]))) .nested
  refine ⟨hbuilds, ?_, hgrammars _ hnested, ?_⟩
  · apply hpatterns
    exact .single (.part (by simp [Pattern.parts]))
  · apply hpatterns
    exact .tail hnested (.rule (r := ("number", _)) List.mem_cons_self)

end Peg
