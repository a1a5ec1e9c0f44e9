import Peg.Match.Matcher
import Peg.Proofs.Places

/-!
# What a match can reach

A match evaluates its pattern, the rules and roots of the grammars that occur in it or around it,
and the parts of all these.  `Pattern.grammars` lists the grammars in a pattern, and
`Matcher.Resolves` says that all references in them, and in the pattern of the match, resolve.

`Pattern.height` is the height of a pattern as far as it is evaluated without applying rules.
-/

namespace Peg

/-! ### Heights -/

mutual

/-- The height of a pattern, if a reference to a rule is a leaf, also as the root of a grammar. -/
def Pattern.height : Pattern → Nat
  | .field k v => max k.height v.height + 1
  | .sequence p q => max p.height q.height + 1
  | .choice p q => max p.height q.height + 1
  | .repetition p _ => p.height + 1
  | .difference p q => max p.height q.height + 1
  | .invert p => p.height + 1
  | .lookahead p => p.height + 1
  | .grammar g => g.height + 1
  | .span p => p.height + 1
  | .group p _ => p.height + 1
  | .collect p => p.height + 1
  | _ => 1
termination_by structural p => p

/-- The height of the pattern of a selector. -/
def Selector.height : Selector → Nat
  | .literal _ => 0
  | .pattern p => p.height
termination_by structural k => k

/-- The height of the root of a grammar. -/
def Grammar.height : Grammar → Nat
  | ⟨_, _, root⟩ => root.height
termination_by structural g => g

/-- The height of a root, where the name of a rule counts nothing. -/
def Root.height : Root → Nat
  | .rule _ => 0
  | .inline p => p.height
termination_by structural r => r

end

theorem Pattern.height_lt_of_part {p q : Pattern} (h : q ∈ p.parts) :
  q.height < p.height
  := by
  cases p with
  | field k v =>
    cases k <;> simp only [parts, List.mem_cons, List.not_mem_nil, or_false] at h
    · subst h
      simp only [height]
      omega
    · rcases h with rfl | rfl <;> simp only [height, Selector.height] <;> omega
  | sequence p q =>
    simp only [parts, List.mem_cons, List.not_mem_nil, or_false] at h
    rcases h with rfl | rfl <;> simp only [height] <;> omega
  | choice p q =>
    simp only [parts, List.mem_cons, List.not_mem_nil, or_false] at h
    rcases h with rfl | rfl <;> simp only [height] <;> omega
  | difference p q =>
    simp only [parts, List.mem_cons, List.not_mem_nil, or_false] at h
    rcases h with rfl | rfl <;> simp only [height] <;> omega
  | _ => simp_all [parts, height]

theorem Pattern.height_pos (p : Pattern) :
  0 < p.height
  := by
  cases p <;> simp [height]

/-! ### Grammars -/

mutual

/-- The grammars in a pattern, those inside other grammars included. -/
def Pattern.grammars : Pattern → List Grammar
  | .field k v => k.grammars ++ v.grammars
  | .sequence p q => p.grammars ++ q.grammars
  | .choice p q => p.grammars ++ q.grammars
  | .repetition p _ => p.grammars
  | .difference p q => p.grammars ++ q.grammars
  | .invert p => p.grammars
  | .lookahead p => p.grammars
  | .grammar g => g.grammars
  | .span p => p.grammars
  | .group p _ => p.grammars
  | .collect p => p.grammars
  | _ => []
termination_by structural p => p

/-- The grammars in the pattern of a selector. -/
def Selector.grammars : Selector → List Grammar
  | .literal _ => []
  | .pattern p => p.grammars
termination_by structural k => k

/-- A grammar with the grammars inside it. -/
def Grammar.grammars : Grammar → List Grammar
  | ⟨ident, rules, root⟩ =>
    ⟨ident, rules, root⟩ :: (root.grammars ++ Grammar.grammarsOfRules rules)
termination_by structural g => g

/-- The grammars in a root. -/
def Root.grammars : Root → List Grammar
  | .rule _ => []
  | .inline p => p.grammars
termination_by structural r => r

/-- The grammars in the bodies of rules. -/
def Grammar.grammarsOfRules : List (String × Pattern) → List Grammar
  | [] => []
  | (_, p) :: rs => p.grammars ++ Grammar.grammarsOfRules rs
termination_by structural rs => rs

end

theorem Grammar.mem_grammars_self (g : Grammar) :
  g ∈ g.grammars
  := by
  obtain ⟨ident, rules, root⟩ := g
  apply List.mem_cons_self

theorem Pattern.grammars_subset_of_part {p q : Pattern} (h : q ∈ p.parts) :
  q.grammars ⊆ p.grammars
  := by
  have hleft : ∀ a b : Pattern, q ∈ [a, b] → q.grammars ⊆ a.grammars ++ b.grammars := by
    intro a b h
    rcases List.mem_pair.1 h with rfl | rfl
    · apply List.subset_append_left
    · apply List.subset_append_right
  cases p with
  | field k v =>
    cases k with
    | literal name => simp_all [parts, grammars, Selector.grammars]
    | pattern k => apply hleft k v h
  | sequence p q => apply hleft p q h
  | choice p q => apply hleft p q h
  | difference p q => apply hleft p q h
  | _ => simp_all [parts, grammars]

/-- A list of grammars is closed when it holds the grammars inside its grammars. -/
def Grammar.Closed (gs : List Grammar) : Prop :=
  ∀ g ∈ gs, g.grammars ⊆ gs

theorem Grammar.closed_append {gs hs : List Grammar} (hgs : Closed gs) (hhs : Closed hs) :
  Closed (gs ++ hs)
  := by
  intro g hg
  rcases List.mem_append.1 hg with hg | hg
  · apply List.Subset.trans (hgs g hg) (List.subset_append_left _ _)
  · apply List.Subset.trans (hhs g hg) (List.subset_append_right _ _)

theorem Grammar.closed_nil :
  Closed []
  := by
  simp [Closed]

mutual

theorem Pattern.grammars_closed : ∀ p : Pattern, Grammar.Closed p.grammars
  | .field k v => Grammar.closed_append (Selector.grammars_closed k) (Pattern.grammars_closed v)
  | .sequence p q => Grammar.closed_append (Pattern.grammars_closed p) (Pattern.grammars_closed q)
  | .choice p q => Grammar.closed_append (Pattern.grammars_closed p) (Pattern.grammars_closed q)
  | .repetition p _ => Pattern.grammars_closed p
  | .difference p q => Grammar.closed_append (Pattern.grammars_closed p) (Pattern.grammars_closed q)
  | .invert p => Pattern.grammars_closed p
  | .lookahead p => Pattern.grammars_closed p
  | .grammar g => Grammar.grammars_closed g
  | .span p => Pattern.grammars_closed p
  | .group p _ => Pattern.grammars_closed p
  | .collect p => Pattern.grammars_closed p
  | .literal _ => Grammar.closed_nil
  | .truth _ => Grammar.closed_nil
  | .anyChars _ => Grammar.closed_nil
  | .fewerThan _ => Grammar.closed_nil
  | .charSet _ => Grammar.closed_nil
  | .charRange _ => Grammar.closed_nil
  | .ruleRef _ => Grammar.closed_nil
  | .const _ => Grammar.closed_nil
  | .position => Grammar.closed_nil

theorem Selector.grammars_closed : ∀ k : Selector, Grammar.Closed k.grammars
  | .literal _ => Grammar.closed_nil
  | .pattern p => Pattern.grammars_closed p

theorem Grammar.grammars_closed : ∀ g : Grammar, Grammar.Closed g.grammars
  | ⟨ident, rules, root⟩ => by
    have hinside := Grammar.closed_append (Root.grammars_closed root)
      (Grammar.grammarsOfRules_closed rules)
    intro g hg
    rcases List.mem_cons.1 hg with rfl | hg
    · apply List.Subset.refl
    · apply List.Subset.trans (hinside g hg)
      apply List.subset_cons_self

theorem Root.grammars_closed : ∀ r : Root, Grammar.Closed r.grammars
  | .rule _ => Grammar.closed_nil
  | .inline p => Pattern.grammars_closed p

theorem Grammar.grammarsOfRules_closed :
    ∀ rs : List (String × Pattern), Grammar.Closed (Grammar.grammarsOfRules rs)
  | [] => Grammar.closed_nil
  | (_, p) :: rs =>
    Grammar.closed_append (Pattern.grammars_closed p) (Grammar.grammarsOfRules_closed rs)

end

theorem Grammar.mem_grammarsOfRules {rules : List (String × Pattern)} {g : Grammar} :
  g ∈ grammarsOfRules rules ↔ ∃ r ∈ rules, g ∈ r.2.grammars
  := by
  induction rules with
  | nil => simp [grammarsOfRules]
  | cons r rules ih => simp [grammarsOfRules, ih]

theorem Grammar.grammars_subset_of_mem {rules : List (String × Pattern)} {r : String × Pattern}
    (h : r ∈ rules) :
  r.2.grammars ⊆ grammarsOfRules rules
  := fun _ hg => mem_grammarsOfRules.2 ⟨r, h, hg⟩

theorem Grammar.grammarsOfRules_subset (g : Grammar) :
  grammarsOfRules g.rules ⊆ g.grammars
  := by
  obtain ⟨ident, rules, root⟩ := g
  simp [grammars]

theorem Grammar.grammars_subset_of_rule {g : Grammar} {r : String × Pattern} (h : r ∈ g.rules) :
  r.2.grammars ⊆ g.grammars
  := List.Subset.trans (grammars_subset_of_mem h) g.grammarsOfRules_subset

theorem Grammar.grammars_subset_of_root {g : Grammar} {p : Pattern} (h : g.root = .inline p) :
  p.grammars ⊆ g.grammars
  := by
  obtain ⟨ident, rules, root⟩ := g
  subst h
  simp [grammars, Root.grammars]

/-- The body of a rule stands among the rules. -/
theorem Grammar.mem_rules_of_rule? {g : Grammar} {rule : String} {body : Pattern}
    (h : g.rule? rule = some body) :
  (rule, body) ∈ g.rules
  := by
  obtain ⟨before, after, hrules, -⟩ := List.lookup_eq_some_iff.1 h
  rw [hrules]
  apply List.mem_append_right _ List.mem_cons_self

/-! ### References -/

theorem Pattern.referencesIn_append (ps qs : List Pattern) :
  referencesIn (ps ++ qs) = referencesIn ps ++ referencesIn qs
  := by
  fun_induction referencesIn ps with
  | case1 => rfl
  | case2 ps name ih => simp [referencesIn, ih]
  | case3 p ps hp ih =>
    rw [List.cons_append, referencesIn]
    · rw [← List.append_assoc, ih]
    · apply hp

theorem Pattern.mem_references_of_part {p q : Pattern} {name : String} (h : q ∈ p.parts)
    (hname : name ∈ q.references) :
  name ∈ p.references
  := by
  have hp : p.references = referencesIn p.parts := by
    rw [references]
    rw [referencesIn]
    · rw [List.append_nil]
    · rintro name rfl
      cases h
  obtain ⟨before, after, hparts⟩ := List.append_of_mem h
  rw [hp, hparts, List.append_cons, referencesIn_append, referencesIn_append]
  simp only [List.mem_append]
  left
  right
  apply hname

/-- Every rule that a pattern refers to outside nested grammars is one of the grammar in scope. -/
def Pattern.ResolvesIn (p : Pattern) (scope : Option Grammar) : Prop :=
  ∀ name ∈ p.references, ∃ g, scope = some g ∧ (g.rule? name).isSome = true

/-- Every rule that a grammar refers to, in its rules and at its root, is one of its rules. -/
structure Grammar.Resolves (g : Grammar) : Prop where
  name : ∀ name, g.root = .rule name → (g.rule? name).isSome = true
  root : ∀ p, g.root = .inline p → p.ResolvesIn (some g)
  rules : ∀ r ∈ g.rules, r.2.ResolvesIn (some g)

/-- The grammars that a match can come to. -/
def Matcher.grammars (m : Matcher) : List Grammar :=
  m.outer.toList.flatMap Grammar.grammars ++ m.pattern.grammars

/-- All references to rules in a match resolve. -/
structure Matcher.Resolves (m : Matcher) : Prop where
  pattern : m.pattern.ResolvesIn m.outer
  grammars : ∀ g ∈ m.grammars, g.Resolves

theorem Matcher.grammars_closed (m : Matcher) :
  Grammar.Closed m.grammars
  := by
  apply Grammar.closed_append
  · cases m.outer with
    | none => apply Grammar.closed_nil
    | some g => simpa using g.grammars_closed
  · apply m.pattern.grammars_closed

/-- The greatest height of the pattern of a match and of the bodies of the rules that it can come
to. -/
def Matcher.height (m : Matcher) : Nat :=
  ((m.pattern :: m.grammars.flatMap fun g => g.rules.map (·.2)).map Pattern.height).max?.getD 0

theorem Matcher.height_le_pattern (m : Matcher) :
  m.pattern.height ≤ m.height
  := List.le_max?_getD_of_mem (List.mem_map_of_mem List.mem_cons_self)

theorem Matcher.height_le_rule {m : Matcher} {g : Grammar} {r : String × Pattern}
    (hg : g ∈ m.grammars) (hr : r ∈ g.rules) :
  r.2.height ≤ m.height
  := by
  apply List.le_max?_getD_of_mem
  apply List.mem_map_of_mem
  apply List.mem_cons_of_mem
  apply List.mem_flatMap_of_mem hg
  apply List.mem_map_of_mem hr

end Peg
