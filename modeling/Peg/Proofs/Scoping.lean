import Peg.Proofs.Nesting
import Peg.Proofs.Reach

/-!
# References in scope

A match uses its pattern, the parts of the patterns that it uses, and the rules and roots of the
grammars that these refer to.  `Matcher.Uses` says so, together with the grammar in scope there.  It
reads the patterns and grammars alone, whatever the subject.

A match stops because a rule is undefined only where it uses a reference to that rule, or a grammar
with that root, and the rule is not in scope.  When the references inside all grammars of a match
resolve, then this is a reference of the pattern itself that the outer grammar does not resolve, by
`Matcher.open_of_undefinedRule`.
-/

namespace Peg

variable {m : Matcher} {p q : Pattern} {f f' : Focus} {g : Grammar} {scope : Option Grammar}
variable {rule name : String}

/-! ### Patterns in use -/

/-- A match uses a pattern, with a grammar in scope or none. -/
inductive Matcher.Uses (m : Matcher) : Pattern → Option Grammar → Prop where
  | start : m.Uses m.pattern m.outer
  | part {p q : Pattern} {scope : Option Grammar} :
    m.Uses p scope → q ∈ p.parts → m.Uses q scope
  | inline {g : Grammar} {q : Pattern} {scope : Option Grammar} :
    m.Uses (.grammar g) scope → g.root = .inline q → m.Uses q (some g)
  | root {g : Grammar} {rule : String} {body : Pattern} {scope : Option Grammar} :
    m.Uses (.grammar g) scope → g.root = .rule rule → g.rule? rule = some body →
      m.Uses body (some g)
  | rule {g : Grammar} {rule : String} {body : Pattern} :
    m.Uses (.ruleRef rule) (some g) → g.rule? rule = some body → m.Uses body (some g)

/-- All evaluations of a match are those of patterns in use. -/
theorem Matcher.uses_hereditary (m : Matcher) :
  Hereditary fun p f => m.Uses p f.scope
  := by
  constructor
  · intro p q f f' hp hq
    cases hq with
    | part hpart hnear =>
      rw [hnear.scope_eq]
      apply hp.part hpart
    | inline hroot => apply hp.inline hroot
  · intro p body g rule f f' hp hq hbody
    cases hq with
    | rule hroot => apply hp.root hroot hbody
    | ruleRef hscope =>
      rw [hscope] at hp
      apply hp.rule hbody

/-- A rule is not there where a match refers to it, by a reference or as the root of a grammar. -/
inductive Matcher.Misses (m : Matcher) (name : String) : Prop where
  | reference {scope : Option Grammar} :
    m.Uses (.ruleRef name) scope → (∀ g, scope = some g → g.rule? name = none) → m.Misses name
  | root {g : Grammar} {scope : Option Grammar} :
    m.Uses (.grammar g) scope → g.root = .rule name → g.rule? name = none → m.Misses name

/-- A match stops only because of undefined rules that it misses. -/
theorem Matcher.misses_of_undefinedRule {nesting pos : Nat} {subject : Value} {site : Option Site}
    (h : (m.runWithin nesting subject pos).outcome = .error (.undefinedRule name site)) :
  m.Misses name
  := by
  have hlawful : Run.Lawful (.start subject pos m.outer) m.Misses
      (m.pattern.eval m.options nesting 0 (.start subject pos m.outer) {}) := by
    apply Pattern.eval_lawful m.uses_hereditary _ _ .start Progress.Acceptable.start
    · intro p f g rule f' hp hq hrule
      cases hq with
      | rule hroot => apply Misses.root hp hroot hrule
      | ruleRef hscope =>
        apply Misses.reference hp
        intro g' hg'
        rw [hscope] at hg'
        cases hg'
        apply hrule
    · intro f name hp hscope
      apply Misses.reference hp
      simp [hscope]
  obtain ⟨st, hst⟩ := Run.record_outcome_eq_error_iff.1 h
  rw [hst] at hlawful
  apply hlawful name site rfl

/-! ### References that stay open -/

/-- A reference is to a rule in scope, or it is one of the pattern of a match, with the outer
grammar in scope. -/
def Matcher.AccountsFor (m : Matcher) (scope : Option Grammar) (name : String) : Prop :=
  (∃ g, scope = some g ∧ (g.rule? name).isSome = true)
    ∨ (name ∈ m.pattern.references ∧ scope = m.outer)

/-- What is known of a pattern that a match uses, when the references in all its grammars
resolve. -/
structure Matcher.Scoped (m : Matcher) (p : Pattern) (scope : Option Grammar) : Prop where
  grammars : p.grammars ⊆ m.grammars
  inScope : ∀ g, scope = some g → g ∈ m.grammars
  references : ∀ name ∈ p.references, m.AccountsFor scope name

theorem Matcher.Scoped.of_resolves (hg : g ∈ m.grammars) (hgrammars : p.grammars ⊆ g.grammars)
    (hp : p.ResolvesIn (some g)) :
  m.Scoped p (some g)
  := by
  constructor
  · apply List.Subset.trans hgrammars (m.grammars_closed g hg)
  · rintro g' hg'
    cases hg'
    apply hg
  · intro name hname
    left
    apply hp name hname

/-- A reference of a pattern that a match uses is to a rule in scope, or it is one of the pattern of
the match. -/
theorem Matcher.Uses.scoped (hm : ∀ g ∈ m.grammars, g.Resolves) (h : m.Uses p scope) :
  m.Scoped p scope
  := by
  induction h with
  | start =>
    constructor
    · apply List.subset_append_right
    · intro g hg
      apply List.mem_append_left
      apply List.mem_flatMap_of_mem _ g.mem_grammars_self
      simp [hg]
    · intro name hname
      right
      use hname
  | part _ hpart ih =>
    constructor
    · apply List.Subset.trans (Pattern.grammars_subset_of_part hpart) ih.grammars
    · apply ih.inScope
    · intro name hname
      apply ih.references name (Pattern.mem_references_of_part hpart hname)
  | @inline g q _ _ hroot ih =>
    have hg : g ∈ m.grammars := ih.grammars g.mem_grammars_self
    apply Scoped.of_resolves hg (Grammar.grammars_subset_of_root hroot)
    apply (hm g hg).root q hroot
  | @root g rule body _ _ _ hbody ih =>
    have hg : g ∈ m.grammars := ih.grammars g.mem_grammars_self
    have hmem := Grammar.mem_rules_of_rule? hbody
    apply Scoped.of_resolves hg (Grammar.grammars_subset_of_rule hmem)
    apply (hm g hg).rules _ hmem
  | @rule g rule body _ hbody ih =>
    have hg : g ∈ m.grammars := ih.inScope g rfl
    have hmem := Grammar.mem_rules_of_rule? hbody
    apply Scoped.of_resolves hg (Grammar.grammars_subset_of_rule hmem)
    apply (hm g hg).rules _ hmem

theorem Pattern.mem_references_ruleRef (name : String) :
  name ∈ (Pattern.ruleRef name).references
  := by
  simp [references, referencesIn]

theorem Pattern.references_grammar (g : Grammar) :
  (Pattern.grammar g).references = []
  := by
  simp [references, referencesIn, parts]

/-- When the references in all grammars of a match resolve, an undefined rule is one that the
pattern of the match refers to itself, and that is not in the outer grammar. -/
theorem Matcher.open_of_undefinedRule (hm : ∀ g ∈ m.grammars, g.Resolves) {nesting pos : Nat}
    {subject : Value} {site : Option Site}
    (h : (m.runWithin nesting subject pos).outcome = .error (.undefinedRule name site)) :
  name ∈ m.pattern.references ∧ ∀ g, m.outer = some g → g.rule? name = none
  := by
  cases misses_of_undefinedRule h with
  | @reference scope huses hmissing =>
    rcases (huses.scoped hm).references name (Pattern.mem_references_ruleRef name) with
      ⟨g, hscope, hrule⟩ | ⟨hname, hscope⟩
    · rw [hmissing g hscope] at hrule
      cases hrule
    · rw [hscope] at hmissing
      use hname
  | @root g _ huses hroot hmissing =>
    have hg : g ∈ m.grammars := (huses.scoped hm).grammars g.mem_grammars_self
    have hrule := (hm g hg).name name hroot
    rw [hmissing] at hrule
    cases hrule

end Peg
