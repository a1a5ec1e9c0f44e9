import Peg.Proofs.Copies
import Peg.Proofs.Whereabouts

/-!
# Lexical scope

A reference is to a rule of the grammar around it.  `Pattern.StandsIn` says that a pattern stands in
another one outside of the grammars nested there, and `Grammar.Encloses` that it stands so in a rule
or at the root of a grammar.

In a match every pattern is evaluated with the grammar in scope that encloses it, or with the outer
grammar if it stands in the pattern of the match, by `Matcher.lexical_of_nests`.  While a grammar is
evaluated nothing is in scope but itself and the grammars inside it, so a match of a pattern that
refers to rules only there is told alike whatever the outer grammar.
-/

namespace Peg

variable {p q r : Pattern} {g h k : Grammar} {f f' : Focus} {rule name : String}

/-! ### Where patterns stand -/

/-- A pattern stands in another one, outside of the grammars nested there. -/
inductive Pattern.StandsIn (q : Pattern) : Pattern → Prop where
  | self : StandsIn q q
  | part {p r : Pattern} : r ∈ p.parts → StandsIn q r → StandsIn q p

theorem Pattern.standsIn_iff :
  q.StandsIn p ↔ q = p ∨ ∃ r ∈ p.parts, q.StandsIn r
  := by
  constructor
  · intro h
    cases h with
    | self => exact .inl rfl
    | part hr hq => exact .inr ⟨_, hr, hq⟩
  · rintro (rfl | ⟨r, hr, hq⟩)
    · exact .self
    · exact .part hr hq

namespace Pattern.StandsIn

/-- The parts of a pattern stand where it stands. -/
theorem of_part (hp : p.StandsIn r) (hq : q ∈ p.parts) :
  q.StandsIn r
  := by
  induction hp with
  | self => apply part hq self
  | part hr _ ih => apply part hr ih

theorem grammars_subset (h : q.StandsIn p) :
  q.grammars ⊆ p.grammars
  := by
  induction h with
  | self => apply List.Subset.refl
  | part hr _ ih => apply List.Subset.trans ih (grammars_subset_of_part hr)

theorem references_subset (h : q.StandsIn p) :
  q.references ⊆ p.references
  := by
  induction h with
  | self => apply List.Subset.refl
  | part hr _ ih => exact fun name hname => mem_references_of_part hr (ih hname)

end Pattern.StandsIn

theorem Pattern.exists_standsIn_of_mem_referencesIn {ps : List Pattern}
    (h : name ∈ referencesIn ps) :
  ∃ p ∈ ps, (ruleRef name).StandsIn p
  := by
  fun_induction referencesIn ps with
  | case1 => cases h
  | case2 ps rule ih =>
    rcases List.mem_cons.1 h with rfl | h
    · exact ⟨_, List.mem_cons_self, .self⟩
    · obtain ⟨p, hp, hstands⟩ := ih h
      exact ⟨p, List.mem_cons_of_mem _ hp, hstands⟩
  | case3 ps p _ ih =>
    obtain ⟨q, hq, hstands⟩ := ih h
    rcases List.mem_append.1 hq with hq | hq
    · exact ⟨p, List.mem_cons_self, .part hq hstands⟩
    · exact ⟨q, List.mem_cons_of_mem _ hq, hstands⟩

/-- The references of a pattern are those that stand in it. -/
theorem Pattern.mem_references_iff :
  name ∈ p.references ↔ (ruleRef name).StandsIn p
  := by
  constructor
  · intro h
    obtain ⟨q, hq, hstands⟩ := exists_standsIn_of_mem_referencesIn h
    rw [List.mem_singleton.1 hq] at hstands
    apply hstands
  · intro h
    apply h.references_subset (mem_references_ruleRef name)

/-- A pattern stands in a rule of a grammar or at its root. -/
inductive Grammar.Encloses (g : Grammar) (q : Pattern) : Prop where
  | rule {r : String × Pattern} : r ∈ g.rules → q.StandsIn r.2 → Encloses g q
  | root {p : Pattern} : g.root = .inline p → q.StandsIn p → Encloses g q

namespace Grammar.Encloses

theorem of_part (hp : g.Encloses p) (hq : q ∈ p.parts) :
  g.Encloses q
  := by
  cases hp with
  | rule hr hp => apply rule hr (hp.of_part hq)
  | root hroot hp => apply root hroot (hp.of_part hq)

theorem of_rule (h : g.rule? name = some p) :
  g.Encloses p
  := rule (mem_rules_of_rule? h) .self

/-- A grammar is larger than those that it encloses. -/
theorem sizeOf_lt (h : g.Encloses (.grammar k)) :
  sizeOf k < sizeOf g
  := by
  have hself := k.mem_grammars_self
  obtain ⟨ident, rules, root⟩ := g
  simp only [Grammar.mk.sizeOf_spec]
  cases h with
  | rule hr hk =>
    have hlt := Grammar.sizeOf_lt_of_mem_grammarsOfRules rules
      (grammars_subset_of_mem hr (hk.grammars_subset hself))
    omega
  | @root p hroot hk =>
    cases hroot
    have hlt := Root.sizeOf_lt_of_mem_grammars (.inline p) (hk.grammars_subset hself)
    omega

theorem grammars_subset (h : g.Encloses q) :
  q.grammars ⊆ g.grammars
  := by
  cases h with
  | rule hr hq => apply List.Subset.trans hq.grammars_subset (grammars_subset_of_rule hr)
  | root hroot hq => apply List.Subset.trans hq.grammars_subset (grammars_subset_of_root hroot)

end Grammar.Encloses

/-! ### What is in scope -/

/-- A pattern is in the scope of one of some grammars, which encloses it. -/
def Pattern.EnclosedBy (gs : List Grammar) (p : Pattern) (scope : Option Grammar) : Prop :=
  ∃ g ∈ gs, scope = some g ∧ g.Encloses p

/-- A pattern is in the scope of the grammar of a match that encloses it, or else it stands in the
pattern of the match and is in the scope of the outer grammar. -/
def Matcher.Lexical (m : Matcher) (p : Pattern) (scope : Option Grammar) : Prop :=
  (p.StandsIn m.pattern ∧ scope = m.outer) ∨ p.EnclosedBy m.grammars scope

section Hereditary

variable {gs : List Grammar}

/-- A grammar asks for a pattern that it encloses, in its own scope. -/
theorem Pattern.Asks.enclosedBy (hg : g ∈ gs) (h : (Pattern.grammar g).Asks f (.evaluate q f')) :
  q.EnclosedBy gs f'.scope
  := by
  cases h with
  | part hq _ => cases hq
  | inline hroot => exact ⟨g, hg, rfl, .root hroot .self⟩

/-- The grammars that patterns ask to apply a rule of are in scope there, or they are the patterns
themselves. -/
theorem Pattern.Asks.apply_cases (h : p.Asks f (.apply g rule f')) :
  (p = .ruleRef rule ∧ f.scope = some g) ∨ (p = .grammar g ∧ g.root = .rule rule)
  := by
  cases h with
  | rule hroot => exact .inr ⟨rfl, hroot⟩
  | ruleRef hscope => exact .inl ⟨rfl, hscope⟩

/-- A pattern asks for its parts in its own scope. -/
theorem Pattern.Asks.scope_eq_of_part (h : p.Asks f (.evaluate q f')) (hpart : q ∈ p.parts) :
  f'.scope = f.scope
  := by
  cases h with
  | part _ hnear => apply hnear.scope_eq
  | inline _ => cases hpart

/-- Among grammars with all those inside them, patterns stay in the scope of what encloses them. -/
theorem Pattern.enclosedBy_hereditary (hgs : Grammar.Closed gs) :
  Hereditary fun p f => p.EnclosedBy gs f.scope
  := by
  have hinside : ∀ {g k : Grammar}, g ∈ gs → g.Encloses (.grammar k) → k ∈ gs :=
    fun hg hk => hgs _ hg (hk.grammars_subset (Grammar.mem_grammars_self _))
  constructor
  · rintro p q f f' ⟨g, hg, hscope, hp⟩ hq
    cases hq with
    | part hpart hnear => exact ⟨g, hg, hnear.scope_eq.trans hscope, hp.of_part hpart⟩
    | inline hroot => exact Asks.enclosedBy (hinside hg hp) (.inline hroot)
  · rintro p body k rule f f' ⟨g, hg, hscope, hp⟩ hq hbody
    rcases hq.apply_cases with ⟨rfl, hk⟩ | ⟨rfl, -⟩
    · rw [hk] at hscope
      cases hscope
      exact ⟨k, hg, rfl, .of_rule hbody⟩
    · exact ⟨k, hinside hg hp, rfl, .of_rule hbody⟩

end Hereditary

namespace Matcher

variable {m : Matcher} {nesting pos : Nat} {subject : Value} {e e' : Evaluation}

theorem lexical_hereditary (m : Matcher) :
  Hereditary fun p f => m.Lexical p f.scope
  := by
  have henclosed := Pattern.enclosedBy_hereditary m.grammars_closed
  have hpattern : m.pattern.grammars ⊆ m.grammars := List.subset_append_right _ _
  constructor
  · rintro p q f f' (⟨hp, hscope⟩ | hp) hq
    · cases hq with
      | part hpart hnear => exact .inl ⟨hp.of_part hpart, hnear.scope_eq.trans hscope⟩
      | @inline g _ hroot =>
        have hg := hpattern (hp.grammars_subset g.mem_grammars_self)
        exact .inr (Pattern.Asks.enclosedBy hg (.inline hroot))
    · exact .inr (henclosed.evaluate hp hq)
  · rintro p body g rule f f' (⟨hp, hscope⟩ | hp) hq hbody
    · right
      rcases hq.apply_cases with ⟨rfl, hg⟩ | ⟨rfl, -⟩
      · have hmem : g ∈ m.grammars := by
          apply List.mem_append_left
          apply List.mem_flatMap_of_mem _ g.mem_grammars_self
          simp [← hscope, hg]
        exact ⟨g, hmem, rfl, .of_rule hbody⟩
      · have hg := hpattern (hp.grammars_subset g.mem_grammars_self)
        exact ⟨g, hg, rfl, .of_rule hbody⟩
    · exact .inr (henclosed.body hp hq hbody)

/-- Every evaluation in a match is lexical. -/
theorem lexical_of_nests (h : (m.evaluation nesting subject pos).Nests m.options e) :
  m.Lexical e.pattern e.focus.scope ∧ e.progress.Acceptable
  := by
  apply nests_hereditary m.lexical_hereditary _ h
  exact .inl ⟨.self, rfl⟩

end Matcher

namespace Evaluation

variable {o : Options} {e e' : Evaluation}

/-- An evaluation begins only evaluations that it may ask for, and those of the bodies of rules that
it may ask to apply. -/
theorem Begins.asks (h : e.Begins o e') (hst : e.progress.Acceptable) :
  e.pattern.Asks e.focus (.evaluate e'.pattern e'.focus)
    ∨ ∃ g rule f, e.pattern.Asks e.focus (.apply g rule f) ∧ g.rule? rule = some e'.pattern
      ∧ e'.focus = f.inScope g
  := by
  cases h with
  | part _ hposes => exact .inl (asks_of_poses hst hposes).1
  | body _ hposes _ _ hbody => exact .inr ⟨_, _, _, (asks_of_poses hst hposes).1, hbody, rfl⟩

/-- The parts of a pattern are evaluated in the scope of the pattern. -/
theorem Begins.scope_eq_of_part (h : e.Begins o e') (hst : e.progress.Acceptable)
    (hpart : e'.pattern ∈ e.pattern.parts) :
  e'.focus.scope = e.focus.scope
  := by
  rcases h.asks hst with hasks | ⟨g, rule, f, hasks, -, -⟩
  · apply hasks.scope_eq_of_part hpart
  · rcases hasks.apply_cases with ⟨hp, -⟩ | ⟨hp, -⟩
    · rw [hp] at hpart
      cases hpart
    · rw [hp] at hpart
      cases hpart

/-- The grammars of which an evaluation applies a rule are in scope there, or they are what is
evaluated. -/
theorem Applies.cases_scope (h : e.Applies o g rule f) (hst : e.progress.Acceptable) :
  (e.pattern = .ruleRef rule ∧ e.focus.scope = some g)
    ∨ (e.pattern = .grammar g ∧ g.root = .rule rule)
  := by
  cases h with
  | of _ hposes => exact (asks_of_poses hst hposes).1.apply_cases

theorem Nests.acceptable (h : e.Nests o e') (hst : e.progress.Acceptable) :
  e'.progress.Acceptable
  := (h.hereditary .anything trivial hst).2

/-- Inside the evaluation of a grammar every pattern is in the scope of the grammar, or of one in
it, that encloses the pattern. -/
theorem Nests.enclosedBy (h : e.Nests o e') (hst : e.progress.Acceptable)
    (hg : e.pattern = .grammar g) :
  e' = e ∨ e'.pattern.EnclosedBy g.grammars e'.focus.scope
  := by
  rcases h.cases_head with rfl | ⟨e₁, hbegins, hnests⟩
  · left
    rfl
  · right
    have hfirst : e₁.pattern.EnclosedBy g.grammars e₁.focus.scope := by
      rcases hbegins.asks hst with hasks | ⟨k, rule, f, hasks, hbody, hfocus⟩
      · rw [hg] at hasks
        apply hasks.enclosedBy g.mem_grammars_self
      · rcases hasks.apply_cases with ⟨hp, -⟩ | ⟨hp, -⟩
        · rw [hg] at hp
          cases hp
        · rw [hg] at hp
          cases hp
          exact ⟨g, g.mem_grammars_self, by rw [hfocus]; rfl, .of_rule hbody⟩
    have hhereditary := Pattern.enclosedBy_hereditary g.grammars_closed
    apply (Nests.hereditary hhereditary hnests hfirst (acceptable (.single hbegins) hst)).1

/-- Inside the evaluation of a grammar only rules of that grammar and of those in it are applied. -/
theorem Nests.mem_grammars_of_applies (h : e.Nests o e') (hst : e.progress.Acceptable)
    (hg : e.pattern = .grammar g) (happ : e'.Applies o k rule f) :
  k ∈ g.grammars
  := by
  rcases h.enclosedBy hst hg with rfl | ⟨g', hg', hscope, hencloses⟩
  · rcases happ.cases_scope hst with ⟨hp, -⟩ | ⟨hp, -⟩
    · rw [hg] at hp
      cases hp
    · rw [hg] at hp
      cases hp
      apply Grammar.mem_grammars_self
  · rcases happ.cases_scope (h.acceptable hst) with ⟨-, hscope'⟩ | ⟨hp, -⟩
    · rw [hscope] at hscope'
      cases hscope'
      apply hg'
    · rw [hp] at hencloses
      apply g.grammars_closed g' hg' (hencloses.grammars_subset k.mem_grammars_self)

end Evaluation

namespace Matcher

/-- Scoping is lexical.  The outer grammar does not matter to a pattern that refers to rules only
inside nested grammars: with any two the match has the same outcome, steps and trace.  In every
match a pattern is evaluated in the scope of the grammar that encloses it, or else it stands in the
pattern of the match and the outer grammar is in scope.  A rule is applied of the grammar in scope,
or of a grammar that starts there.  All parts of a pattern are evaluated in its own scope, also
after grammars nested in other parts.  Inside the evaluation of a grammar no rules are applied but
those of this grammar and of those in it, none of which encloses it. -/
theorem scoped_lexically :
  (∀ (p : Pattern) (o : Options) (outer outer' : Option Grammar), p.references = [] →
      ToldAlike ⟨p, outer, o⟩ ⟨p, outer', o⟩)
    ∧ ∀ (m : Matcher) (nesting : Nat) (subject : Value) (pos : Nat) (e : Evaluation),
      (m.evaluation nesting subject pos).Nests m.options e →
      m.Lexical e.pattern e.focus.scope
        ∧ (∀ g rule f, e.Applies m.options g rule f →
          (e.pattern = .ruleRef rule ∧ e.focus.scope = some g)
            ∨ (e.pattern = .grammar g ∧ g.root = .rule rule))
        ∧ (∀ e', e.Begins m.options e' → e'.pattern ∈ e.pattern.parts →
          e'.focus.scope = e.focus.scope)
        ∧ ∀ g e', e.pattern = .grammar g → e.Nests m.options e' →
          (e' = e ∨ e'.pattern.EnclosedBy g.grammars e'.focus.scope)
            ∧ ∀ k rule f, e'.Applies m.options k rule f →
              k ∈ g.grammars ∧ ∀ h : Grammar, h.Encloses (.grammar g) → k ≠ h
  := by
  constructor
  · intro p o outer outer' hp
    apply toldAlike_of_copied .identity o (.same fun _ _ => rfl) (Pattern.servedIn_of_closed hp)
  · intro m nesting subject pos e he
    obtain ⟨hlexical, hst⟩ := lexical_of_nests he
    refine ⟨hlexical, fun g rule f h => h.cases_scope hst, ?_, ?_⟩
    · exact fun e' h hpart => h.scope_eq_of_part hst hpart
    · intro g e' hg he'
      use he'.enclosedBy hst hg
      intro k rule f happ
      have hk : k ∈ g.grammars := he'.mem_grammars_of_applies hst hg happ
      use hk
      rintro h hencloses rfl
      -- what encloses a grammar is larger than all that is in it
      have hlt := hencloses.sizeOf_lt
      have hle := Grammar.sizeOf_le_of_mem_grammars g hk
      omega

end Matcher

/-- A grammar of one letter. -/
def letterGrammar (ident : Nat) (letter : String) : Grammar :=
  ⟨ident, [("letter", .literal letter)], .rule "letter"⟩

/-- A grammar of a letter, with another letter in a grammar nested between two of the first kind. -/
def betweenLetters : Grammar :=
  ⟨1, [("letter", .literal "a"),
    ("all", .sequence (.ruleRef "letter")
      (.sequence (.grammar (letterGrammar 0 "b")) (.ruleRef "letter")))], .rule "all"⟩

/-- The match of that grammar with an outer grammar or none. -/
def betweenOthers (outer : Option Grammar) : Matcher :=
  ⟨.grammar betweenLetters, outer, {}⟩

/-- The letters are those of the rules around the references.  A third rule of the same name in the
outer grammar does not matter. -/
theorem Matcher.scoped_lexically_betweenLetters :
  ((betweenOthers none).runWithin 10 (.text "aba") 0).outcome = .ok (some ⟨3, []⟩)
    ∧ ((betweenOthers (some (letterGrammar 2 "c"))).runWithin 10 (.text "aba") 0).outcome
      = .ok (some ⟨3, []⟩)
    ∧ ∃ e, ((betweenOthers none).evaluation 10 (.text "aba") 0).Begins {} e
      ∧ e.pattern.EnclosedBy betweenLetters.grammars e.focus.scope
  := by
  have hclosed := Pattern.references_grammar betweenLetters
  have houtcome : ((betweenOthers none).runWithin 10 (.text "aba") 0).outcome
      = .ok (some ⟨3, []⟩) := rfl
  have htold := scoped_lexically.1 _ {} none (some (letterGrammar 2 "c")) hclosed
  have hruns := htold.runs 10 (.text "aba") 0
  have hbegins : ((betweenOthers none).evaluation 10 (.text "aba") 0).Begins {} ⟨9, 1, _, _, _⟩ :=
    .body rfl .first rfl rfl rfl
  refine ⟨houtcome, hruns.outcome.symm.trans houtcome, _, hbegins, ?_⟩
  have hstart := scoped_lexically.2 (betweenOthers none) 10 (.text "aba") 0 _ .refl
  rcases (hstart.2.2.2 betweenLetters _ rfl (.single hbegins)).1 with heq | hbody
  · cases congrArg Evaluation.nesting heq
  · apply hbody

end Peg
