import Peg.Proofs.Reach

/-!
# Well-formed values

A pattern is well formed when the numbers, ranges and names in it make sense, and all grammars in it
are.  A grammar is well formed when it has rules, with proper names, when all its references and its
root resolve, and when its patterns are well formed.  A value is well formed when the patterns and
grammars in it are.

The references in all grammars of a well-formed pattern resolve: `Pattern.WellFormed.resolves`.
-/

namespace Peg

/-! ### What is well formed -/

/-- A repetition that is bounded from above may happen once. -/
def Bound.WellFormed : Bound → Prop
  | .atLeast _ => True
  | .atMost n => 0 < n

/-- The numbers, ranges and names of a pattern itself make sense.  Its type sees to the rest: counts
and bounds are natural numbers, the members of sets are characters, and the keys of fields are texts
or integers, which no truth value is. -/
def Pattern.Proper : Pattern → Prop
  | .fewerThan n => 0 < n
  | .charRange rs => rs ≠ [] ∧ ∀ r ∈ rs, r.1.toNat ≤ r.2.toNat
  | .repetition _ bound => bound.WellFormed
  | .ruleRef name => name ≠ ""
  | .group _ name => name ≠ ""
  | _ => True

/-- The name of a rule is not empty, and it is not the one that stands for the root. -/
def RuleName (name : String) : Prop :=
  name ≠ "" ∧ name ≠ "0"

/-- A grammar has rules, all with proper names, and every reference in it is to one of them. -/
structure Grammar.Sound (g : Grammar) : Prop where
  nonempty : g.rules ≠ []
  names : ∀ r ∈ g.rules, RuleName r.1
  resolves : g.Resolves

mutual

/-- All patterns and grammars in a value are well formed. -/
def Value.WellFormed : Value → Prop
  | .list xs => Value.AllWellFormed xs
  | .tuple xs => Value.AllWellFormed xs
  | .dict es => Value.EntriesWellFormed es
  | .table xs es => Value.AllWellFormed xs ∧ Value.EntriesWellFormed es
  | .pattern p => p.WellFormed
  | .grammar g => g.WellFormed
  | .scalar _ => True
termination_by structural v => v

/-- All values of a list are well formed. -/
def Value.AllWellFormed : List Value → Prop
  | [] => True
  | x :: xs => x.WellFormed ∧ Value.AllWellFormed xs
termination_by structural xs => xs

/-- The keys and values of some entries are well formed. -/
def Value.EntriesWellFormed : List (Value × Value) → Prop
  | [] => True
  | (k, v) :: es => k.WellFormed ∧ v.WellFormed ∧ Value.EntriesWellFormed es
termination_by structural es => es

/-- A selector has a well-formed pattern, if it is one. -/
def Selector.WellFormed : Selector → Prop
  | .literal _ => True
  | .pattern p => p.WellFormed
termination_by structural k => k

/-- The numbers, ranges and names in a pattern make sense, and all grammars in it are well
formed. -/
def Pattern.WellFormed : Pattern → Prop
  | .literal _ => True
  | .truth _ => True
  | .anyChars _ => True
  | .fewerThan n => 0 < n
  | .charSet _ => True
  | .charRange rs => rs ≠ [] ∧ ∀ r ∈ rs, r.1.toNat ≤ r.2.toNat
  | .field k v => k.WellFormed ∧ v.WellFormed
  | .sequence p q => p.WellFormed ∧ q.WellFormed
  | .choice p q => p.WellFormed ∧ q.WellFormed
  | .repetition p bound => p.WellFormed ∧ bound.WellFormed
  | .difference p q => p.WellFormed ∧ q.WellFormed
  | .invert p => p.WellFormed
  | .lookahead p => p.WellFormed
  | .ruleRef name => name ≠ ""
  | .grammar g => g.WellFormed
  | .span p => p.WellFormed
  | .const v => v.WellFormed
  | .position => True
  | .group p name => p.WellFormed ∧ name ≠ ""
  | .collect p => p.WellFormed
termination_by structural p => p

/-- A grammar is sound, and its patterns are well formed. -/
def Grammar.WellFormed : Grammar → Prop
  | ⟨ident, rules, root⟩ =>
    Grammar.Sound ⟨ident, rules, root⟩ ∧ Grammar.RulesWellFormed rules ∧ root.WellFormed
termination_by structural g => g

/-- A root has a well-formed pattern, if it is one. -/
def Root.WellFormed : Root → Prop
  | .rule _ => True
  | .inline p => p.WellFormed
termination_by structural r => r

/-- The bodies of rules are well formed. -/
def Grammar.RulesWellFormed : List (String × Pattern) → Prop
  | [] => True
  | (_, p) :: rs => p.WellFormed ∧ Grammar.RulesWellFormed rs
termination_by structural rs => rs

end

theorem Value.allWellFormed_iff {xs : List Value} :
  AllWellFormed xs ↔ ∀ x ∈ xs, x.WellFormed
  := by
  induction xs with
  | nil => simp [AllWellFormed]
  | cons x xs ih => simp [AllWellFormed, ih]

theorem Value.entriesWellFormed_iff {es : List (Value × Value)} :
  EntriesWellFormed es ↔ ∀ e ∈ es, e.1.WellFormed ∧ e.2.WellFormed
  := by
  induction es with
  | nil => simp [EntriesWellFormed]
  | cons e es ih => simp [EntriesWellFormed, ih, and_assoc]

theorem Grammar.rulesWellFormed_iff {rules : List (String × Pattern)} :
  RulesWellFormed rules ↔ ∀ r ∈ rules, r.2.WellFormed
  := by
  induction rules with
  | nil => simp [RulesWellFormed]
  | cons r rs ih => simp [RulesWellFormed, ih]

/-! ### References in well-formed grammars -/

/-- The references in all of some grammars resolve. -/
def Grammar.AllResolve (gs : List Grammar) : Prop :=
  ∀ g ∈ gs, g.Resolves

theorem Grammar.allResolve_nil :
  AllResolve []
  := by
  simp [AllResolve]

theorem Grammar.AllResolve.append {gs hs : List Grammar} (hgs : AllResolve gs)
    (hhs : AllResolve hs) :
  AllResolve (gs ++ hs)
  := by
  intro g hg
  rcases List.mem_append.1 hg with hg | hg
  · apply hgs g hg
  · apply hhs g hg

mutual

/-- The references in all grammars of a well-formed pattern resolve. -/
theorem Pattern.WellFormed.resolves :
    ∀ (p : Pattern), p.WellFormed → Grammar.AllResolve p.grammars
  | .field k v, h => (Selector.WellFormed.resolves k h.1).append (Pattern.WellFormed.resolves v h.2)
  | .sequence p q, h =>
    (Pattern.WellFormed.resolves p h.1).append (Pattern.WellFormed.resolves q h.2)
  | .choice p q, h =>
    (Pattern.WellFormed.resolves p h.1).append (Pattern.WellFormed.resolves q h.2)
  | .repetition p _, h => Pattern.WellFormed.resolves p h.1
  | .difference p q, h =>
    (Pattern.WellFormed.resolves p h.1).append (Pattern.WellFormed.resolves q h.2)
  | .invert p, h => Pattern.WellFormed.resolves p h
  | .lookahead p, h => Pattern.WellFormed.resolves p h
  | .grammar g, h => Grammar.WellFormed.resolves g h
  | .span p, h => Pattern.WellFormed.resolves p h
  | .group p _, h => Pattern.WellFormed.resolves p h.1
  | .collect p, h => Pattern.WellFormed.resolves p h
  | .literal _, _ => Grammar.allResolve_nil
  | .truth _, _ => Grammar.allResolve_nil
  | .anyChars _, _ => Grammar.allResolve_nil
  | .fewerThan _, _ => Grammar.allResolve_nil
  | .charSet _, _ => Grammar.allResolve_nil
  | .charRange _, _ => Grammar.allResolve_nil
  | .ruleRef _, _ => Grammar.allResolve_nil
  | .const _, _ => Grammar.allResolve_nil
  | .position, _ => Grammar.allResolve_nil

theorem Selector.WellFormed.resolves :
    ∀ (k : Selector), k.WellFormed → Grammar.AllResolve k.grammars
  | .literal _, _ => Grammar.allResolve_nil
  | .pattern p, h => Pattern.WellFormed.resolves p h

theorem Grammar.WellFormed.resolves :
    ∀ (g : Grammar), g.WellFormed → Grammar.AllResolve g.grammars
  | ⟨_, rules, root⟩, ⟨hsound, hrules, hroot⟩ => by
    have hinside := (Root.WellFormed.resolves root hroot).append
      (Grammar.RulesWellFormed.resolves rules hrules)
    intro g hg
    rcases List.mem_cons.1 hg with rfl | hg
    · apply hsound.resolves
    · apply hinside g hg

theorem Root.WellFormed.resolves :
    ∀ (r : Root), r.WellFormed → Grammar.AllResolve r.grammars
  | .rule _, _ => Grammar.allResolve_nil
  | .inline p, h => Pattern.WellFormed.resolves p h

theorem Grammar.RulesWellFormed.resolves :
    ∀ (rs : List (String × Pattern)), Grammar.RulesWellFormed rs →
      Grammar.AllResolve (Grammar.grammarsOfRules rs)
  | [], _ => Grammar.allResolve_nil
  | (_, p) :: rs, h =>
    (Pattern.WellFormed.resolves p h.1).append (Grammar.RulesWellFormed.resolves rs h.2)

end

end Peg
