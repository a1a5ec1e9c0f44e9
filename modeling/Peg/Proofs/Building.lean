import Peg.Proofs.Scoping
import Peg.Proofs.Sessions

/-!
# What constructions make

`Build.Makes P x` says that whatever the construction `x` makes has the property `P`, whichever
numbers it draws.  Values inherit that they are well formed, so expressions build well-formed values
of well-formed ones, and the values bound in a session are well formed: `Session.after_wellFormed`.

Hence the references in the grammars of a match that a session makes all resolve, and the match
misses a rule only where its own pattern refers to one that the outer grammar does not have.
-/

namespace Peg

/-! ### Properties of what is made -/

/-- Whatever a construction makes has a property. -/
structure Build.Makes {α : Type} (P : α → Prop) (x : Build α) : Prop where
  made : ∀ n a n', x n = .ok a n' → P a

namespace Build.Makes

variable {α β : Type} {P : α → Prop} {R : β → Prop} {x : Build α}

theorem of_advances (h : ∀ n, Advances (fun _ a => P a) n x) :
  Makes P x
  := ⟨fun n a n' ha => ((h n).made n' a ha).2⟩

theorem pure {a : α} (h : P a) :
  Makes P (Pure.pure a)
  := of_advances fun _ => Advances.pure h

theorem bind {k : α → Build β} (hx : Makes P x) (hk : ∀ a, P a → Makes R (k a)) :
  Makes R (x >>= k)
  := by
  constructor
  intro n b n' h
  obtain ⟨a, l, ha, hb⟩ := Build.bind_eq_ok h
  apply (hk a (hx.made n a l ha)).made l b n' hb

theorem trivially (x : Build α) :
  Makes (fun _ => True) x
  := ⟨fun _ _ _ _ => trivial⟩

theorem ofExcept {x : Except Error α} (h : ∀ a, x = .ok a → P a) :
  Makes P (Build.ofExcept x)
  := of_advances fun _ => Advances.ofExcept h

end Build.Makes

open Build (Makes)

/-! ### Values -/

/-- A proper pattern is well formed when its parts are, if it holds no value and no grammar. -/
theorem Pattern.WellFormed.of_parts {p : Pattern} (hproper : p.Proper) (hcomposed : p.Composed)
    (hparts : ∀ q ∈ p.parts, q.WellFormed) :
  p.WellFormed
  := by
  cases p with
  | field k v =>
    cases k with
    | literal name => exact ⟨trivial, hparts v (by simp [parts])⟩
    | pattern k => exact ⟨hparts k (by simp [parts]), hparts v (by simp [parts])⟩
  | sequence p q => exact ⟨hparts p (by simp [parts]), hparts q (by simp [parts])⟩
  | choice p q => exact ⟨hparts p (by simp [parts]), hparts q (by simp [parts])⟩
  | repetition p bound => exact ⟨hparts p (by simp [parts]), hproper⟩
  | difference p q => exact ⟨hparts p (by simp [parts]), hparts q (by simp [parts])⟩
  | invert p => apply hparts p (by simp [parts])
  | lookahead p => apply hparts p (by simp [parts])
  | span p => apply hparts p (by simp [parts])
  | group p name => exact ⟨hparts p (by simp [parts]), hproper⟩
  | collect p => apply hparts p (by simp [parts])
  | const v => cases hcomposed
  | grammar g => cases hcomposed
  | fewerThan n => apply hproper
  | charRange rs => apply hproper
  | ruleRef name => apply hproper
  | _ => trivial

/-- A sound grammar is well formed when the bodies of its rules and its root are. -/
theorem Grammar.WellFormed.of_sound {g : Grammar} (hsound : g.Sound)
    (hrules : ∀ r ∈ g.rules, r.2.WellFormed) (hroot : ∀ p, g.root = .inline p → p.WellFormed) :
  g.WellFormed
  := by
  obtain ⟨ident, rules, root⟩ := g
  refine ⟨hsound, rulesWellFormed_iff.2 hrules, ?_⟩
  cases root with
  | rule name => trivial
  | inline p => apply hroot p rfl

/-- Values inherit that they are well formed. -/
theorem Value.inherited_wellFormed :
  Inherited 0 fun _ v => v.WellFormed
  where
  later _ h := h
  scalar _ := trivial
  list h := allWellFormed_iff.2 h
  tuple h := allWellFormed_iff.2 h
  dict _ h := entriesWellFormed_iff.2 h
  table h _ h' := ⟨allWellFormed_iff.2 h, entriesWellFormed_iff.2 h'⟩
  entry h he := (entriesWellFormed_iff.1 h _ he).2
  const h := h
  pattern hproper hcomposed hparts := Pattern.WellFormed.of_parts hproper hcomposed hparts
  grammar hsound _ hrules hroot :=
    ⟨Grammar.WellFormed.of_sound hsound hrules hroot,
      Grammar.WellFormed.of_sound hsound hrules hroot⟩

/-- A well-formed value stands for a well-formed pattern. -/
theorem Value.toPattern_makes (v : Value) (h : v.WellFormed) :
  Makes Pattern.WellFormed v.toPattern
  := Makes.of_advances fun _ => v.toPattern_inherits inherited_wellFormed (Nat.zero_le _) h

/-- All values bound to names are well formed. -/
def Env.WellFormed (env : Env) : Prop :=
  ∀ b ∈ env, b.2.WellFormed

/-- With well-formed values bound to names, an expression builds a well-formed value. -/
theorem Expr.eval_makes {env : Env} (henv : env.WellFormed) (e : Expr) :
  Makes Value.WellFormed (e.eval env)
  := Makes.of_advances fun _ => e.eval_inherits Value.inherited_wellFormed (Nat.zero_le _) henv

/-- The values bound in a session are well formed, whatever it was asked. -/
theorem Session.after_wellFormed (requests : List Request) :
  (after requests).env.WellFormed
  := after_inherits Value.inherited_wellFormed requests

/-! ### Matchers -/

namespace Matcher

/-- The pattern and the outer grammar of a match are well formed. -/
structure WellFormed (m : Matcher) : Prop where
  pattern : m.pattern.WellFormed
  outer : ∀ g, m.outer = some g → g.WellFormed

theorem outerGrammar_wellFormed {v : Value} (hv : v.WellFormed) {outer : Option Grammar}
    (h : outerGrammar v = .ok outer) :
  ∀ g, outer = some g → g.WellFormed
  := by
  unfold outerGrammar at h
  split at h <;> cases h
  · exact fun g hg => nomatch hg
  · rintro g ⟨⟩
    apply hv
  · rintro g ⟨⟩
    apply hv

theorem ofValues_makes {v w : Value} (hv : v.WellFormed) (hw : w.WellFormed) (o : Options) :
  Makes WellFormed (ofValues v w o)
  := by
  apply (Value.toPattern_makes v hv).bind
  intro p hp
  apply (Makes.ofExcept fun outer houter => outerGrammar_wellFormed hw houter).bind
  exact fun outer houter => Makes.pure ⟨hp, houter⟩

theorem ofExprs_makes {env : Env} (henv : env.WellFormed) (pattern outer : Expr)
    (options : OptionExprs) :
  Makes WellFormed (ofExprs env pattern outer options)
  := by
  apply (Expr.eval_makes henv pattern).bind
  intro v hv
  apply (Expr.eval_makes henv outer).bind
  intro w hw
  apply (Makes.trivially _).bind
  exact fun o _ => ofValues_makes hv hw o

/-- The references in all grammars of a well-formed match resolve. -/
theorem WellFormed.grammars_resolve {m : Matcher} (h : m.WellFormed) :
  ∀ g ∈ m.grammars, g.Resolves
  := by
  intro g hg
  rcases List.mem_append.1 hg with hg | hg
  · obtain ⟨outer, houter, hg⟩ := List.mem_flatMap.1 hg
    have hwf := h.outer outer (Option.mem_toList.1 houter)
    apply Grammar.WellFormed.resolves outer hwf g hg
  · apply Pattern.WellFormed.resolves m.pattern h.pattern g hg

/-- A match that a session makes stops because of an undefined rule only if its pattern refers to
that rule outside nested grammars and the outer grammar does not have it.  So the match of a grammar
never stops like this, and neither does one whose own references the outer grammar resolves. -/
theorem undefinedRule_only_open (requests : List Request) (pattern outer : Expr)
    (options : OptionExprs) {m : Matcher} {n n' : Nat}
    (hm : ofExprs (Session.after requests).env pattern outer options n = .ok m n') :
  (∀ nesting subject pos name site,
      (m.runWithin nesting subject pos).outcome = .error (.undefinedRule name site) →
      name ∈ m.pattern.references ∧ ∀ g, m.outer = some g → g.rule? name = none)
    ∧ ((∃ g, m.pattern = .grammar g) ∨ m.pattern.ResolvesIn m.outer →
      ∀ nesting subject pos name site,
        (m.runWithin nesting subject pos).outcome ≠ .error (.undefinedRule name site))
  := by
  have hmakes := ofExprs_makes (Session.after_wellFormed requests) pattern outer options
  have hwf : m.WellFormed := hmakes.made _ _ _ hm
  have hopen : ∀ nesting subject pos name site,
      (m.runWithin nesting subject pos).outcome = .error (.undefinedRule name site) →
      name ∈ m.pattern.references ∧ ∀ g, m.outer = some g → g.rule? name = none :=
    fun _ _ _ _ _ h => open_of_undefinedRule hwf.grammars_resolve h
  use hopen
  intro hclosed nesting subject pos name site h
  obtain ⟨hname, hmissing⟩ := hopen nesting subject pos name site h
  rcases hclosed with ⟨g, hg⟩ | hresolves
  · rw [hg, Pattern.references_grammar] at hname
    cases hname
  · obtain ⟨g, hg, hrule⟩ := hresolves name hname
    rw [hmissing g hg] at hrule
    cases hrule

end Matcher

/-- A request to bind a grammar of digits. -/
def defineDigits : Request where
  task := .define "digits"
    (.call .grammar
      [.dict [(.scalar (.text "digit"), .call .range [.scalar (.text "09")])]])

/-- A digit and then a letter, where only digits are defined. -/
def digitThenLetter : Matcher where
  pattern := .sequence (.ruleRef "digit") (.ruleRef "letter")
  outer := some ⟨0, [("digit", .charRange [('0', '9')])], .rule "digit"⟩

/-- The reference to a letter is open, and a match stops there. -/
theorem Matcher.undefinedRule_only_open_digitThenLetter :
  ofExprs (Session.after [defineDigits]).env
      (.call .sequence
        [.call .rule [.scalar (.text "digit")], .call .rule [.scalar (.text "letter")]])
      (.ref "digits") {} 1 = .ok digitThenLetter 1
    ∧ (digitThenLetter.run (.text "7a") 0).outcome = .error (.undefinedRule "letter" none)
    ∧ "letter" ∈ digitThenLetter.pattern.references
    ∧ ∀ g, digitThenLetter.outer = some g → g.rule? "letter" = none
  := by
  have hm : ofExprs (Session.after [defineDigits]).env
      (.call .sequence
        [.call .rule [.scalar (.text "digit")], .call .rule [.scalar (.text "letter")]])
      (.ref "digits") {} 1 = .ok digitThenLetter 1 := by with_unfolding_all rfl
  have hstops : (digitThenLetter.run (.text "7a") 0).outcome
      = .error (.undefinedRule "letter" none) := rfl
  use hm, hstops
  apply (undefinedRule_only_open _ _ _ _ hm).1 nestingLimit _ _ _ _ hstops

end Peg
