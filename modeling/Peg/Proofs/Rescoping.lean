import Peg.Proofs.Lockstep
import Peg.Proofs.Reach

/-!
# Patterns in other scopes

A grammar is told apart from others with the same rules.  `Twins` relates grammars that may stand
for one another: they have the same rules, the grammars inside these stand for themselves, and two
grammars are the same exactly if their twins are.  A match in the scope of a grammar and one in the
scope of its twin are a pair, by `Twins.pairing`.
-/

/-- Optional values are related when a weaker relation is asked for. -/
theorem Option.Rel.imp {α β : Type} {R S : α → β → Prop} {x : Option α} {y : Option β}
    (h : Option.Rel R x y) (hRS : ∀ a b, R a b → S a b) :
  Option.Rel S x y
  := by
  cases h with
  | none => apply Option.Rel.none
  | some hab => apply Option.Rel.some (hRS _ _ hab)

namespace Peg

/-! ### Foci in different scopes -/

/-- The same place with grammars in scope that are related. -/
structure Focus.Colocated (scopes : Option Grammar → Option Grammar → Prop) (f f' : Focus) :
    Prop where
  subject : f.subject = f'.subject
  pos : f.pos = f'.pos
  path : f.path = f'.path
  scope : scopes f.scope f'.scope

namespace Focus.Colocated

variable {scopes scopes' : Option Grammar → Option Grammar → Prop} {f f' : Focus}

theorem anyScope (h : f.Colocated scopes f') :
  f.Colocated (fun _ _ => True) f'
  := ⟨h.subject, h.pos, h.path, trivial⟩

theorem inScope (h : f.Colocated scopes f') {g g' : Grammar} (hg : scopes' (some g) (some g')) :
  (f.inScope g).Colocated scopes' (f'.inScope g')
  := ⟨h.subject, h.pos, h.path, hg⟩

theorem whereabouts_eq (h : f.Colocated scopes f') :
  f.whereabouts = f'.whereabouts
  := by
  rw [whereabouts, whereabouts, h.subject, h.pos, h.path]

theorem place_eq (h : f.Colocated scopes f') :
  f.place = f'.place
  := by
  rw [place, place, h.subject, h.path]

end Focus.Colocated

/-- Foci in different scopes are on the same subject. -/
def rescoping (scopes : Option Grammar → Option Grammar → Prop) : Alongside where
  foci := Focus.Colocated scopes
  subject h := h.subject
  pos h := h.pos
  moveTo h _ := ⟨h.subject, rfl, h.path, h.scope⟩
  inKey h _ := ⟨rfl, rfl, h.path, h.scope⟩
  inField h _ _ _ := ⟨rfl, rfl, by rw [Focus.inField, Focus.inField, h.path], h.scope⟩

/-- A pattern goes the same way in another scope, if it asks corresponding questions about its parts
and about the rule that it refers to, and if a grammar goes the same way. -/
theorem Pattern.plan_rescoped {scopes : Option Grammar → Option Grammar → Prop}
    {Q : Question → Question → Prop} {p : Pattern} {f f' : Focus} (h : f.Colocated scopes f')
    (hparts : ∀ q ∈ p.parts, ∀ k k', k.Colocated scopes k' → Q (.evaluate q k) (.evaluate q k'))
    (hname : ∀ name, p = .ruleRef name →
      Option.Rel (fun g g' => Q (.apply g name f) (.apply g' name f')) f.scope f'.scope)
    (hgrammar : ∀ g, p = .grammar g →
      (matchRoot g f).Corresponds (Alongside.correspondence .identical Q)
        (Outcome.Agrees .identical) (matchRoot g f')) :
  (p.plan f).Corresponds (Alongside.correspondence .identical Q) (Outcome.Agrees .identical)
    (p.plan f')
  := by
  apply plan_alongside (A := rescoping scopes) h hparts
  · rintro -
    rw [h.whereabouts_eq]
    apply Value.agrees_refl
  · rintro name rfl
    have hscopes := hname name rfl
    simp only [plan]
    generalize f.scope = scope, f'.scope = scope' at hscopes ⊢
    cases hscopes with
    | none => rfl
    | some hq => exact ⟨hq, fun _ _ hr => hr⟩
  · apply hgrammar

/-! ### Twins -/

/-- Which grammars may stand for one another. -/
structure Twins where
  rel : Grammar → Grammar → Prop
  rules {g g' : Grammar} : rel g g' → g'.rules = g.rules
  inside {g g' h : Grammar} : rel g g' → h ∈ Grammar.grammarsOfRules g.rules → rel h h
  eq_iff {g g' h h' : Grammar} : rel g g' → rel h h' → (g = h ↔ g' = h')

namespace Twins

/-- Every grammar stands for itself only. -/
def identity : Twins where
  rel := Eq
  rules h := h ▸ rfl
  inside _ _ := rfl
  eq_iff := by
    rintro g _ h _ rfl rfl
    rfl

variable {T : Twins} {p : Pattern} {f f' : Focus} {g g' : Grammar} {rule : String}

/-- A pattern is evaluated in scopes that are twins, and the grammars in it stand for themselves. -/
structure Evaluates (T : Twins) (p : Pattern) (f : Focus) (p' : Pattern) (f' : Focus) : Prop where
  pattern : p = p'
  grammars : ∀ g ∈ p.grammars, T.rel g g
  foci : f.Colocated (Option.Rel T.rel) f'

/-- A rule of two grammars that are twins is applied at the same place. -/
structure Applies (T : Twins) (g : Grammar) (f : Focus) (g' : Grammar) (f' : Focus) : Prop where
  grammars : T.rel g g'
  foci : f.Colocated (fun _ _ => True) f'

/-- Twins have the same bodies of rules, and the grammars in them stand for themselves. -/
theorem Applies.body (h : T.Applies g f g' f') :
  Option.Rel (fun p p' => T.Evaluates p (f.inScope g) p' (f'.inScope g')) (g.rule? rule)
    (g'.rule? rule)
  := by
  have hrule : g'.rule? rule = g.rule? rule := by rw [Grammar.rule?, T.rules h.grammars]; rfl
  rw [hrule]
  cases hbody : g.rule? rule with
  | none => apply Option.Rel.none
  | some body =>
    apply Option.Rel.some
    refine ⟨rfl, ?_, h.foci.inScope (.some h.grammars)⟩
    intro k hk
    apply T.inside h.grammars
    apply Grammar.grammars_subset_of_mem (Grammar.mem_rules_of_rule? hbody) hk

theorem Applies.same_eq {rule₁ : String} {g₁ g₁' : Grammar} {f₁ f₁' : Focus}
    (h : T.Applies g f g' f') (h₁ : T.Applies g₁ f₁ g₁' f₁') :
  (f.key g rule).same (f₁.key g₁ rule₁) = (f'.key g' rule).same (f₁'.key g₁' rule₁)
  := by
  rw [Bool.eq_iff_iff, Key.same_iff, Key.same_iff]
  simp [Focus.key, h.foci.pos, h₁.foci.pos, h.foci.place_eq, h₁.foci.place_eq,
    T.eq_iff h.grammars h₁.grammars]

/-- A grammar goes the same way in any scope, if the grammars in it stand for themselves. -/
theorem matchRoot_corresponds (h : ∀ k ∈ g.grammars, T.rel k k)
    (hfoci : f.Colocated (fun _ _ => True) f') :
  (matchRoot g f).Corresponds
    (Alongside.correspondence .identical (Question.Related T.Evaluates fun _ => T.Applies))
    (Outcome.Agrees .identical) (matchRoot g f')
  := by
  have hg : T.rel g g := h g g.mem_grammars_self
  simp only [matchRoot]
  split
  · exact ⟨.apply ⟨hg, hfoci⟩, fun _ _ hr => hr⟩
  · next p hp =>
    refine ⟨.evaluate ⟨rfl, ?_, hfoci.inScope (.some hg)⟩, fun _ _ hr => hr⟩
    exact fun k hk => h k (Grammar.grammars_subset_of_root hp hk)

/-- A pattern goes the same way in the scope of a twin. -/
theorem Evaluates.plan_corresponds {p' : Pattern} (h : T.Evaluates p f p' f') :
  (p.plan f).Corresponds
    (Alongside.correspondence .identical
      (Question.Related T.Evaluates fun _ => T.Applies))
    (Outcome.Agrees .identical) (p'.plan f')
  := by
  obtain ⟨rfl, hgrammars, hfoci⟩ := h
  apply Pattern.plan_rescoped hfoci
  · intro q hq f f' hfoci
    apply Question.Related.evaluate
    refine ⟨rfl, ?_, hfoci⟩
    exact fun g hg => hgrammars g (Pattern.grammars_subset_of_part hq hg)
  · rintro name rfl
    exact hfoci.scope.imp fun _ _ hg => .apply ⟨hg, hfoci.anyScope⟩
  · rintro g rfl
    apply matchRoot_corresponds hgrammars hfoci.anyScope

/-- A match and the same one in scopes of twins. -/
def pairing (T : Twins) : Pairing where
  evaluations := T.Evaluates
  applications := T.Applies
  known _ _ := True
  known_hereditary := .anything
  plan_corresponds _ h := h.plan_corresponds
  pos_eq h := h.foci.pos
  body _ h := h.body
  same_eq _ _ h h₁ := h.same_eq h₁

end Twins

/-! ### Grammars inside themselves -/

theorem Grammar.sizeOf_lt_of_mem_append {g : Grammar} {gs hs : List Grammar} {m n : Nat}
    (h : g ∈ gs ++ hs) (hgs : g ∈ gs → sizeOf g < m) (hhs : g ∈ hs → sizeOf g < n) :
  sizeOf g < 1 + m + n
  := by
  rcases List.mem_append.1 h with h | h
  · have := hgs h
    omega
  · have := hhs h
    omega

mutual

/-- The grammars in a pattern are smaller than it. -/
theorem Pattern.sizeOf_lt_of_mem_grammars {g : Grammar} :
    ∀ p : Pattern, g ∈ p.grammars → sizeOf g < sizeOf p
  | .field k v, h => Grammar.sizeOf_lt_of_mem_append h (Selector.sizeOf_lt_of_mem_grammars k)
    (Pattern.sizeOf_lt_of_mem_grammars v)
  | .sequence p q, h => Grammar.sizeOf_lt_of_mem_append h (Pattern.sizeOf_lt_of_mem_grammars p)
    (Pattern.sizeOf_lt_of_mem_grammars q)
  | .choice p q, h => Grammar.sizeOf_lt_of_mem_append h (Pattern.sizeOf_lt_of_mem_grammars p)
    (Pattern.sizeOf_lt_of_mem_grammars q)
  | .repetition p bound, h => Nat.lt_add_right (sizeOf bound)
    (Nat.lt_add_left 1 (Pattern.sizeOf_lt_of_mem_grammars p h))
  | .difference p q, h => Grammar.sizeOf_lt_of_mem_append h (Pattern.sizeOf_lt_of_mem_grammars p)
    (Pattern.sizeOf_lt_of_mem_grammars q)
  | .invert p, h => Nat.lt_add_left 1 (Pattern.sizeOf_lt_of_mem_grammars p h)
  | .lookahead p, h => Nat.lt_add_left 1 (Pattern.sizeOf_lt_of_mem_grammars p h)
  | .grammar g, h => Nat.lt_one_add_iff.2 (Grammar.sizeOf_le_of_mem_grammars g h)
  | .span p, h => Nat.lt_add_left 1 (Pattern.sizeOf_lt_of_mem_grammars p h)
  | .group p name, h => Nat.lt_add_right (sizeOf name)
    (Nat.lt_add_left 1 (Pattern.sizeOf_lt_of_mem_grammars p h))
  | .collect p, h => Nat.lt_add_left 1 (Pattern.sizeOf_lt_of_mem_grammars p h)

theorem Selector.sizeOf_lt_of_mem_grammars {g : Grammar} :
    ∀ k : Selector, g ∈ k.grammars → sizeOf g < sizeOf k
  | .pattern p, h => Nat.lt_add_left 1 (Pattern.sizeOf_lt_of_mem_grammars p h)

theorem Grammar.sizeOf_le_of_mem_grammars {g : Grammar} :
    ∀ h : Grammar, g ∈ h.grammars → sizeOf g ≤ sizeOf h
  | ⟨ident, rules, root⟩, h => by
    rcases List.mem_cons.1 h with rfl | h
    · apply Nat.le_refl
    · have hlt := Grammar.sizeOf_lt_of_mem_append h (Root.sizeOf_lt_of_mem_grammars root)
        (Grammar.sizeOf_lt_of_mem_grammarsOfRules rules)
      simp only [Grammar.mk.sizeOf_spec]
      omega

theorem Root.sizeOf_lt_of_mem_grammars {g : Grammar} :
    ∀ r : Root, g ∈ r.grammars → sizeOf g < sizeOf r
  | .inline p, h => Nat.lt_add_left 1 (Pattern.sizeOf_lt_of_mem_grammars p h)

theorem Grammar.sizeOf_lt_of_mem_grammarsOfRules {g : Grammar} :
    ∀ rs : List (String × Pattern), g ∈ Grammar.grammarsOfRules rs → sizeOf g < sizeOf rs
  | (name, p) :: rs, h => by
    have hlt := Grammar.sizeOf_lt_of_mem_append h (Pattern.sizeOf_lt_of_mem_grammars p)
      (Grammar.sizeOf_lt_of_mem_grammarsOfRules rs)
    simp only [List.cons.sizeOf_spec, Prod.mk.sizeOf_spec]
    omega

end

/-- No grammar with the rules of another one is inside those rules. -/
theorem Grammar.not_mem_grammarsOfRules {g : Grammar} {rules : List (String × Pattern)}
    (h : g.rules = rules) :
  g ∉ grammarsOfRules rules
  := by
  intro hg
  have hlt := sizeOf_lt_of_mem_grammarsOfRules rules hg
  obtain ⟨ident, rules, root⟩ := g
  subst h
  simp only [Grammar.mk.sizeOf_spec] at hlt
  omega

/-- A grammar and another one with the same rules are twins, and so is every grammar inside the
rules with itself. -/
def Twins.ofRules {g g' : Grammar} (hrules : g'.rules = g.rules) : Twins where
  rel h h' := (h = g ∧ h' = g') ∨ (h ∈ Grammar.grammarsOfRules g.rules ∧ h = h')
  rules := by
    rintro h h' (⟨rfl, rfl⟩ | ⟨-, rfl⟩)
    · apply hrules
    · rfl
  inside := by
    rintro h h' k (⟨rfl, rfl⟩ | ⟨hh, rfl⟩) hk
    · exact .inr ⟨hk, rfl⟩
    · right
      use Grammar.grammarsOfRules_closed g.rules h hh (h.grammarsOfRules_subset hk)
  eq_iff := by
    have hg : g ∉ Grammar.grammarsOfRules g.rules := Grammar.not_mem_grammarsOfRules rfl
    have hg' : g' ∉ Grammar.grammarsOfRules g.rules := Grammar.not_mem_grammarsOfRules hrules
    rintro h h' k k' (⟨rfl, rfl⟩ | ⟨hh, rfl⟩) (⟨rfl, rfl⟩ | ⟨hk, rfl⟩)
    · simp
    · constructor
      · rintro rfl
        cases hg hk
      · rintro rfl
        cases hg' hk
    · constructor
      · rintro rfl
        cases hg hh
      · rintro rfl
        cases hg' hh
    · rfl

end Peg
