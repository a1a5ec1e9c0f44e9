import Mathlib.Data.List.Perm.Basic
import Peg.Proofs.Endings
import Peg.Proofs.Lexical
import Peg.Proofs.Remaking

/-!
# Grammars defined again

When a grammar is defined again with the same root, and with more rules or with the rules in another
order, then its rules stand at other places.  All the same it stands for the first grammar: a match
cannot tell them apart, as long as it refers to no rule that only the second one has.

The definitions make grammars anew, the two themselves and those for dictionaries among the bodies.
None of these is in what they are given.  Values inherit which grammars are in them, so that is true
of all that a session has bound before, by `Session.undrawn_of_bound`.  If one of them is in the
pattern of a match that remembers outcomes, then what is remembered tells the two grammars apart, in
the number of steps: `Matcher.steps_differ_smallThenLetter`.
-/

namespace Peg

variable {old : Grammar → Prop} {n m n' m' : Nat} {g g' : Grammar}

/-! ### Rules in another order -/

/-- A rule is found under its name when no other one has the name. -/
theorem Grammar.lookup_eq_some_of_mem {rules : List (String × Pattern)} {r : String × Pattern}
    (h : (rules.map Prod.fst).Nodup) (hr : r ∈ rules) :
  rules.lookup r.1 = some r.2
  := by
  induction rules with
  | nil => cases hr
  | cons s rules ih =>
    obtain ⟨hs, hrules⟩ := List.nodup_cons.1 h
    rcases List.mem_cons.1 hr with rfl | hr
    · rw [List.lookup_cons, beq_self_eq_true]
    · have hne : r.1 ≠ s.1 := by
        intro heq
        apply hs
        rw [← heq]
        apply List.mem_map_of_mem hr
      rw [List.lookup_cons, beq_false_of_ne hne]
      apply ih hrules hr

theorem Slot.map_rule_fst (slots : List Slot) :
  (slots.map rule).map Prod.fst = slots.map name
  := by
  simp [rule, Function.comp_def]

/-- The slots of entries with different keys have different names. -/
theorem Slot.nodup_names {es : List (Value × Value)} {slots : List Slot}
    (hkeys : (es.map Prod.fst).Nodup) (h : slots.map offer = Value.offers es) :
  (slots.map name).Nodup
  := by
  have hmap : (slots.map name).map (fun s => Value.text s) = es.map Prod.fst := by
    have hoffers : (slots.map offer).map Offer.key = es.map Prod.fst := by
      rw [h, Value.offers_eq_map, List.map_map]
      rfl
    rw [← hoffers, List.map_map, List.map_map]
    apply List.map_congr_left
    exact fun s _ => s.key_eq.symm
  rw [← hmap] at hkeys
  apply List.Nodup.of_map _ hkeys

/-- If offers are made again, with more of them or in another order, then the slots of the first
ones are among those. -/
theorem Slot.exists_aligned {offers extra offers' : List Offer} {slots slots' : List Slot}
    (hoffers : offers'.Perm (offers ++ extra)) (h : slots.map offer = offers)
    (h' : slots'.map offer = offers') :
  ∃ aligned rest, slots'.Perm (aligned ++ rest)
    ∧ List.Forall₂ (fun s s' => s.offer = s'.offer) slots aligned
  := by
  have hforall : List.Forall₂ (fun o s => o = Slot.offer s) offers' slots' := by
    rw [← h', List.forall₂_map_left_iff]
    apply List.forall₂_same.2
    exact fun _ _ => rfl
  obtain ⟨found, hfound, hperm⟩ := List.perm_comp_forall₂ hoffers.symm hforall
  have hsplit := List.take_append_drop offers.length found
  have hfirst := List.forall₂_take_append found offers extra hfound.flip
  rw [← h, List.forall₂_map_right_iff] at hfirst
  use (found.take (slots.map offer).length), found.drop offers.length
  constructor
  · rw [h, hsplit]
    apply hperm.symm
  · apply hfirst.flip

/-- Slots of the same offers have the same names. -/
theorem Slot.names_eq {slots aligned : List Slot}
    (h : List.Forall₂ (fun s s' => s.offer = s'.offer) slots aligned) :
  slots.map name = aligned.map name
  := by
  rw [← List.forall₂_eq_eq_eq, List.forall₂_map_left_iff, List.forall₂_map_right_iff]
  exact h.imp fun _ _ => name_eq

/-- A rule is found under the name of its slot when no other slot has the name. -/
theorem Slot.lookup_name {slots : List Slot} {s : Slot} (h : (slots.map name).Nodup)
    (hs : s ∈ slots) :
  (slots.map rule).lookup s.name = some s.body
  := by
  apply Grammar.lookup_eq_some_of_mem (r := s.rule)
  · rw [map_rule_fst]
    apply h
  · apply List.mem_map_of_mem hs

/-- The entries of a dictionary are found again in one with more entries or in another order, if no
key is there twice. -/
theorem Slot.foundAgain_of_perm {es es' extra : List (Value × Value)}
    (hentries : es'.Perm (es ++ extra)) (hkeys : (es'.map Prod.fst).Nodup) :
  FoundAgain (Value.offers es) (Value.offers es')
  := by
  have hoffers : (Value.offers es').Perm (Value.offers es ++ Value.offers extra) := by
    simp only [Value.offers_eq_map, ← List.map_append]
    apply hentries.map
  intro slots slots' hslots hslots'
  obtain ⟨aligned, rest, hperm, hforall⟩ := exists_aligned hoffers hslots hslots'
  refine ⟨aligned, rest, hperm, hforall, ?_⟩
  intro name hname
  have hmem : name ∈ aligned.map Slot.name := by
    obtain ⟨body, hbody⟩ := Option.isSome_iff_exists.1 hname
    obtain ⟨before, after, hrules, -⟩ := List.lookup_eq_some_iff.1 hbody
    rw [← names_eq hforall, ← map_rule_fst, hrules]
    simp
  obtain ⟨s, hs, rfl⟩ := List.mem_map.1 hmem
  have hnodup' := nodup_names hkeys hslots'
  have hnodup := (hperm.map Slot.name).nodup_iff.1 hnodup'
  rw [List.map_append] at hnodup
  rw [lookup_name hnodup' (hperm.mem_iff.2 (List.mem_append_left _ hs)),
    lookup_name hnodup.of_append_left hs]

/-! ### Numbers of grammars

The pattern for a value holds the grammars of the value and those that are made for it.  So values
that a session has bound hold no grammar with a number still to be drawn, and what is built later
holds a grammar only if it is made then or there in a value that is used. -/

/-- A grammar draws none of the numbers of two definitions, so it was not made by them. -/
def Grammar.Undrawn (n m n' m' : Nat) (g : Grammar) : Prop :=
  ¬ Drawn n m g.ident ∧ ¬ Drawn n' m' g.ident

/-- The grammars in a pattern that holds no value and no grammar are those in its parts. -/
theorem Pattern.Composed.exists_part {p : Pattern} (hp : p.Composed) (hg : g ∈ p.grammars) :
  ∃ q ∈ p.parts, g ∈ q.grammars
  := by
  cases p with
  | grammar k => cases hp
  | field k v =>
    cases k with
    | literal name => exact ⟨v, by simp [parts], by simpa [grammars, Selector.grammars] using hg⟩
    | pattern k => simpa [parts, grammars, Selector.grammars] using hg
  | _ => simp_all [parts, grammars]

/-- The grammars in a grammar are itself, those in its rules, and those in its root. -/
theorem Grammar.mem_grammars_cases {k : Grammar} (h : k ∈ g.grammars) :
  k = g ∨ (∃ r ∈ g.rules, k ∈ r.2.grammars) ∨ ∃ p, g.root = .inline p ∧ k ∈ p.grammars
  := by
  obtain ⟨ident, rules, root⟩ := g
  rcases List.mem_cons.1 h with rfl | h
  · exact .inl rfl
  · right
    rcases List.mem_append.1 h with h | h
    · cases root with
      | rule name => cases h
      | inline p => exact .inr ⟨p, rfl, h⟩
    · exact .inl (mem_grammarsOfRules.1 h)

theorem Value.mem_grammarsOfEntries {es : List (Value × Value)} :
  g ∈ grammarsOfEntries es ↔ ∃ e ∈ es, g ∈ e.2.grammars
  := by
  induction es with
  | nil => simp [grammarsOfEntries]
  | cons e es ih => simp [grammarsOfEntries, ih]

/-- Values inherit a property of the grammars that patterns for them hold, if grammars have it when
they are made, and later on. -/
theorem Value.inherited_grammars {low : Nat} {ok : Nat → Grammar → Prop}
    (hlater : ∀ {n m g}, n ≤ m → ok n g → ok m g)
    (hmade : ∀ g, low ≤ g.ident → ok (g.ident + 1) g) :
  Inherited low fun n v => ∀ g ∈ v.grammars, ok n g
  where
  later hm h g hg := hlater hm (h g hg)
  scalar _ := List.forall_mem_nil _
  list _ := List.forall_mem_nil _
  tuple _ := List.forall_mem_nil _
  table _ _ _ := List.forall_mem_nil _
  const _ := List.forall_mem_nil _
  dict _ h g hg := by
    obtain ⟨e, he, hg⟩ := mem_grammarsOfEntries.1 hg
    apply (h e he).2 g hg
  entry h he g hg := h g (mem_grammarsOfEntries.2 ⟨_, he, hg⟩)
  pattern _ hcomposed hparts g hg := by
    obtain ⟨q, hq, hg⟩ := hcomposed.exists_part hg
    apply hparts q hq g hg
  grammar _ hlow hrules hroot := by
    use List.forall_mem_nil _
    intro k hk
    rcases Grammar.mem_grammars_cases hk with rfl | ⟨r, hr, hk⟩ | ⟨p, hp, hk⟩
    · apply hmade k hlow
    · apply hlater (Nat.le_succ _) (hrules r hr k hk)
    · apply hlater (Nat.le_succ _) (hroot p hp k hk)

/-- The grammars that a value bound in a session gives to a later definition are not made by it. -/
theorem Session.undrawn_of_bound (requests : List Request) {b : String × Value}
    (hb : b ∈ (after requests).env) (hn : (after requests).next ≤ n)
    (hn' : (after requests).next ≤ n') :
  ∀ k ∈ b.2.grammars, k.Undrawn n m n' m'
  := by
  have hbelow : Value.Inherited 0 fun n v => ∀ g ∈ v.grammars, g.ident < n := by
    apply Value.inherited_grammars
    · exact fun hm hg => Nat.lt_of_lt_of_le hg hm
    · exact fun g _ => Nat.lt_succ_self _
  intro k hk
  have hident := after_inherits hbelow requests b hb k hk
  exact ⟨fun h => Nat.not_le_of_lt hident (Nat.le_trans hn h.1),
    fun h => Nat.not_le_of_lt hident (Nat.le_trans hn' h.1)⟩

/-- What is built after two definitions holds no grammar that they have made, unless a value that is
used for it does. -/
theorem Expr.undrawn_of_eval {env : Env} {e : Expr} {v : Value} {low top : Nat}
    (henv : ∀ b ∈ env, ∀ k ∈ b.2.grammars, k.Undrawn n m n' m') (hm : m ≤ low) (hm' : m' ≤ low)
    (h : e.eval env low = .ok v top) :
  ∀ k ∈ v.grammars, k.Undrawn n m n' m'
  := by
  have hundrawn : Value.Inherited low fun _ v => ∀ k ∈ v.grammars, k.Undrawn n m n' m' := by
    apply Value.inherited_grammars
    · exact fun _ hg => hg
    · exact fun g hlow => ⟨fun h => Nat.not_le_of_lt h.2 (Nat.le_trans hm hlow),
        fun h => Nat.not_le_of_lt h.2 (Nat.le_trans hm' hlow)⟩
  apply ((e.eval_inherits hundrawn (Nat.le_refl _) henv).made top v h).2

/-! ### Matches -/

/-- Neither a grammar nor one in it was made by two definitions. -/
def Grammar.AllUndrawn (n m n' m' : Nat) (g : Grammar) : Prop :=
  ∀ k ∈ g.grammars, k.Undrawn n m n' m'

theorem Grammar.allUndrawn_of_closed {gs : List Grammar} (hgs : Closed gs)
    (h : ∀ k ∈ gs, k.Undrawn n m n' m') :
  ∀ g ∈ gs, g.AllUndrawn n m n' m'
  := fun g hg k hk => h k (hgs g hg hk)

/-- The grammars that two definitions make stand for one another in matches. -/
def Remade.copiesOfDrawn {made : List (Grammar × Grammar)}
    (h : Remade (Grammar.AllUndrawn n m n' m') (Drawn n m) (Drawn n' m') made) : Copies :=
  h.copies (fun g hg => Grammar.allUndrawn_of_closed g.grammars_closed hg)
    fun g hg => hg g g.mem_grammars_self

/-- With outer grammars of which one is a copy of the other, matches come to outcomes that agree,
unless a ceiling ends one of them.  The grammars in the pattern may be any. -/
theorem Matcher.agrees_of_served (K : Copies) {o : Options} {p : Pattern}
    {outer outer' : Option Grammar} (hserved : p.ServedIn K.rel outer outer') {c : Comparison}
    {subject : Value} (htop : subject.Tells c) {nesting pos : Nat}
    (h : Verdict.Ended (runWithin nesting ⟨p, outer, o⟩ subject pos).outcome)
    (h' : Verdict.Ended (runWithin nesting ⟨p, outer', o⟩ subject pos).outcome) :
  Verdict.Agrees c (runWithin nesting ⟨p, outer, o⟩ subject pos).outcome
    (runWithin nesting ⟨p, outer', o⟩ subject pos).outcome
  := by
  -- without ceilings, and without remembering anything, the matches are told alike
  let free : Options := { o.under none none with memoize := false }
  have htold : ToldAlike ⟨p, outer, free⟩ ⟨p, outer', free⟩ := toldAlike_of_served K rfl hserved
  apply (endsWith_of_ended h).agrees (endsWith_of_ended h') rfl rfl htop
  intro n
  exact (htold.runs n subject pos).outcome.symm

/-- A grammar that is defined again with the same root stands for the first one, as far as the
rules of that go. -/
theorem Grammar.ofValues_remake {es es' extra : List (Value × Value)} {root : Value}
    (hroot : root ≠ .null) (hentries : es'.Perm (es ++ extra)) (hkeys : (es'.map Prod.fst).Nodup)
    (h : ofValues (.dict es) root n = .ok g m) (h' : ofValues (.dict es') root n' = .ok g' m')
    (hes : ∀ k ∈ (Value.dict es).grammars, old k) (hold : ∀ k ∈ root.grammars, old k) :
  ∃ made, Remade old (Drawn n m) (Drawn n' m') ((g, g') :: made)
    ∧ ∀ name, (g.rule? name).isSome = true →
      g.Serves (StandsFor old ((g, g') :: made)) name g'
  := by
  have hup : ∀ o ∈ Value.offers es', ∀ {n p m}, o.pattern n = .ok p m → n ≤ m := by
    intro o ho n p m hp
    rw [Value.offers_eq_map] at ho
    obtain ⟨e, -, rfl⟩ := List.mem_map.1 ho
    apply Value.toPattern_le hp
  have hoffer : rootOffer? ⟨.text "0", root, root.toPattern⟩
      = some ⟨.text "0", root, root.toPattern⟩ := by
    rw [rootOffer?]
    split
    · next hnull => cases hroot hnull
    · rfl
  rw [ofValues, hoffer] at h h'
  have hrootRemakes : Build.Remakes old root.toPattern := Value.toPattern_remakes root hold
  obtain ⟨-, -, made, hmade⟩ := define_remake h h' (Slot.foundAgain_of_perm hentries hkeys)
    (by simp) hup (Value.offers_remake es hes) (by simpa using hrootRemakes)
  exact ⟨made, hmade⟩

/-- A grammar matters only through its root and its named bodies.  It is defined twice with the same
root, which is not left out.  The second time there may be more entries, under other keys, and the
entries may be in any order.  Then the two grammars are told alike.

A pattern that refers only to rules of the first one may be matched with either of them as the outer
grammar.  The matches are told alike if they remember nothing, or if no grammar in the pattern was
made by the definitions.  In any case they come to outcomes of the same content, unless a ceiling
ends one of them, and to the same outcome if the keys of the dictionaries in the subject are neither
truth values nor floating-point numbers. -/
theorem Matcher.toldAlike_of_remade {es es' extra : List (Value × Value)} {root : Value}
    (hroot : root ≠ .null) (hentries : es'.Perm (es ++ extra)) (hkeys : (es'.map Prod.fst).Nodup)
    (hg : Grammar.ofValues (.dict es) root n = .ok g m)
    (hg' : Grammar.ofValues (.dict es') root n' = .ok g' m')
    (hes : ∀ k ∈ (Value.dict es).grammars, k.Undrawn n m n' m')
    (hold : ∀ k ∈ root.grammars, k.Undrawn n m n' m') :
  (∀ (o : Options) (outer outer' : Option Grammar),
      ToldAlike ⟨.grammar g, outer, o⟩ ⟨.grammar g', outer', o⟩)
    ∧ ∀ (p : Pattern) (o : Options), p.ResolvesIn (some g) →
      (o.memoize = false → ToldAlike ⟨p, some g, o⟩ ⟨p, some g', o⟩)
        ∧ ((∀ k ∈ p.grammars, k.Undrawn n m n' m') → ToldAlike ⟨p, some g, o⟩ ⟨p, some g', o⟩)
        ∧ ∀ nesting subject pos,
          Verdict.Ended (runWithin nesting ⟨p, some g, o⟩ subject pos).outcome →
          Verdict.Ended (runWithin nesting ⟨p, some g', o⟩ subject pos).outcome →
          Verdict.Agrees .alike (runWithin nesting ⟨p, some g, o⟩ subject pos).outcome
              (runWithin nesting ⟨p, some g', o⟩ subject pos).outcome
            ∧ (subject.hasPlainKeys = true →
              (runWithin nesting ⟨p, some g, o⟩ subject pos).outcome
                = (runWithin nesting ⟨p, some g', o⟩ subject pos).outcome)
  := by
  obtain ⟨made, hmade, hserves⟩ := Grammar.ofValues_remake hroot hentries hkeys hg hg'
    (Grammar.allUndrawn_of_closed (Value.dict es).grammars_closed hes)
    (Grammar.allUndrawn_of_closed root.grammars_closed hold)
  constructor
  · intro o outer outer'
    apply toldAlike_of_copied hmade.copiesOfDrawn o
    · exact .grammar (.inl List.mem_cons_self)
    · apply Pattern.servedIn_of_closed (Pattern.references_grammar g)
  · intro p o hresolves
    have hserved : p.ServedIn hmade.copiesOfDrawn.rel (some g) (some g') := by
      intro name hname
      obtain ⟨k, hk, hrule⟩ := hresolves name hname
      cases hk
      exact .some (hserves name hrule)
    refine ⟨?_, ?_, ?_⟩
    · intro ho
      apply toldAlike_of_served hmade.copiesOfDrawn ho hserved
    · intro hp
      apply toldAlike_of_copied hmade.copiesOfDrawn o _ hserved
      apply Pattern.Copied.same
      intro k hk
      right
      exact ⟨Grammar.allUndrawn_of_closed p.grammars_closed hp k hk, rfl⟩
    · intro nesting subject pos h h'
      use agrees_of_served hmade.copiesOfDrawn hserved subject.tells_alike h h'
      intro hplain
      have htop : subject.Tells .identical := Value.tells_identical hplain
      apply Verdict.agrees_identical_iff.1
      apply agrees_of_served hmade.copiesOfDrawn hserved htop h h'

/-- One letter and another one. -/
def twoLetters : Pattern :=
  .sequence (.ruleRef "letter") (.ruleRef "letter")

/-- A pair of letters, where a letter is a grammar of its own. -/
def pairEntries : List (Value × Value) :=
  [(.text "pair", .pattern twoLetters), (.text "letter", .dict [(.text "small", .text "x")])]

/-- A rule that a pair does not refer to. -/
def digitEntries : List (Value × Value) :=
  [(.text "digit", .text "7")]

/-- The grammar of a letter. -/
def smallLetter (ident : Nat) : Grammar :=
  ⟨ident, [("small", .literal "x")], .rule "small"⟩

/-- The grammar of a pair. -/
def pairGrammar : Grammar :=
  ⟨1, [("pair", twoLetters), ("letter", .grammar (smallLetter 0))], .rule "pair"⟩

/-- The grammar of a pair with one more rule, and with the rules the other way round. -/
def pairGrammarAgain : Grammar :=
  ⟨3, [("digit", .literal "7"), ("letter", .grammar (smallLetter 2)), ("pair", twoLetters)],
    .rule "pair"⟩

/-- A letter ahead, by a grammar of its own, and a reference to a letter. -/
def smallThenLetter (ident : Nat) : Pattern :=
  .sequence (.lookahead (.grammar (smallLetter ident))) (.ruleRef "letter")

theorem pairGrammar_made :
  Grammar.ofValues (.dict pairEntries) (.text "pair") 0 = .ok pairGrammar 2
  := by
  with_unfolding_all rfl

theorem pairGrammarAgain_made :
  Grammar.ofValues (.dict (pairEntries ++ digitEntries).reverse) (.text "pair") 2
    = .ok pairGrammarAgain 4
  := by
  with_unfolding_all rfl

theorem smallThenLetter_resolves (ident : Nat) :
  (smallThenLetter ident).ResolvesIn (some pairGrammar)
  := by
  simp [smallThenLetter, Pattern.ResolvesIn, Pattern.references, Pattern.referencesIn,
    Pattern.parts, pairGrammar, Grammar.rule?]

/-- Both grammars match a pair.  The grammar of a letter in a pattern does not tell them apart when
it was made later, nor when it was made for the first of them and nothing is remembered.  If
outcomes are remembered, then it finds the same outcome with either. -/
theorem Matcher.toldAlike_of_remade_pair :
  Grammar.ofValues (.dict pairEntries) (.text "pair") 0 = .ok pairGrammar 2
    ∧ Grammar.ofValues (.dict (pairEntries ++ digitEntries).reverse) (.text "pair") 2
      = .ok pairGrammarAgain 4
    ∧ (runWithin 10 ⟨.grammar pairGrammarAgain, none, {}⟩ (.text "xx") 0).outcome
      = .ok (some ⟨2, []⟩)
    ∧ (runWithin 10 ⟨smallThenLetter 4, some pairGrammarAgain, { memoize := true }⟩
        (.text "x") 0).progress.steps = 7
    ∧ (runWithin 10 ⟨smallThenLetter 0, some pairGrammarAgain, {}⟩ (.text "x") 0).progress.steps = 7
    ∧ (runWithin 10 ⟨smallThenLetter 0, some pairGrammarAgain, { memoize := true }⟩
        (.text "x") 0).outcome = .ok (some ⟨1, []⟩)
  := by
  have hkeys : ((pairEntries ++ digitEntries).reverse.map Prod.fst).Nodup := by
    simp [pairEntries, digitEntries, Value.text]
  obtain ⟨hgrammars, hpatterns⟩ := toldAlike_of_remade (by simp) (List.reverse_perm _) hkeys
    pairGrammar_made pairGrammarAgain_made (List.forall_mem_nil _) (List.forall_mem_nil _)
  obtain ⟨-, hundrawn, -⟩ := hpatterns _ { memoize := true } (smallThenLetter_resolves 4)
  obtain ⟨hplain, -, -⟩ := hpatterns _ {} (smallThenLetter_resolves 0)
  obtain ⟨-, -, hcontent⟩ := hpatterns _ { memoize := true } (smallThenLetter_resolves 0)
  have hlater : ∀ k ∈ (smallThenLetter 4).grammars, k.Undrawn 0 2 2 4 := by
    simp [smallThenLetter, smallLetter, Pattern.grammars, Grammar.grammars, Root.grammars,
      Grammar.grammarsOfRules, Grammar.Undrawn, Drawn]
  have hended : ∀ k, k = pairGrammar ∨ k = pairGrammarAgain →
      Verdict.Ended (runWithin 10 ⟨smallThenLetter 0, some k, { memoize := true }⟩
        (.text "x") 0).outcome := by
    rintro _ (rfl | rfl) e he
    · cases he
    · cases he
  refine ⟨pairGrammar_made, pairGrammarAgain_made, ?_, ?_, ?_, ?_⟩
  · rw [← ((hgrammars {} none none).runs 10 (.text "xx") 0).outcome]
    rfl
  · rw [← ((hundrawn hlater).runs 10 (.text "x") 0).steps]
    rfl
  · rw [← ((hplain rfl).runs 10 (.text "x") 0).steps]
    rfl
  · rw [← (hcontent 10 (.text "x") 0 (hended _ (.inl rfl)) (hended _ (.inr rfl))).2 rfl]
    rfl

/-- A pair ahead, by a grammar of its own that starts with the first grammar, and a reference to a
letter. -/
def pairThenLetter : Pattern :=
  .sequence (.lookahead (.grammar ⟨4, [("start", .grammar pairGrammar)], .rule "start"⟩))
    (.ruleRef "letter")

/-- When outcomes are remembered, a pattern can tell a grammar from the one that is defined again
without containing either.  The first pattern contains the grammar that was made for the body of a
rule of the first one.  With that as the outer grammar, the reference to the rule recalls what the
body came to ahead; with the second one it is evaluated anew.  In the second pattern the first
grammar is only in a rule of another grammar, and the reference recalls the rule itself. -/
theorem Matcher.steps_differ_smallThenLetter :
  Grammar.ofValues (.dict pairEntries) (.text "pair") 0 = .ok pairGrammar 2
    ∧ Grammar.ofValues (.dict (pairEntries ++ digitEntries).reverse) (.text "pair") 2
      = .ok pairGrammarAgain 4
    ∧ (smallThenLetter 0).ResolvesIn (some pairGrammar)
    ∧ pairGrammar ∉ (smallThenLetter 0).grammars
    ∧ pairGrammarAgain ∉ (smallThenLetter 0).grammars
    ∧ (runWithin 10 ⟨smallThenLetter 0, some pairGrammar, { memoize := true }⟩
        (.text "x") 0).progress.steps = 6
    ∧ (runWithin 10 ⟨smallThenLetter 0, some pairGrammarAgain, { memoize := true }⟩
        (.text "x") 0).progress.steps = 7
    ∧ pairThenLetter.ResolvesIn (some pairGrammar)
    ∧ ¬ (Pattern.grammar pairGrammar).StandsIn pairThenLetter
    ∧ ¬ (Pattern.grammar pairGrammarAgain).StandsIn pairThenLetter
    ∧ (runWithin 12 ⟨pairThenLetter, some pairGrammar, { memoize := true }⟩
        (.text "xx") 0).progress.steps = 12
    ∧ (runWithin 12 ⟨pairThenLetter, some pairGrammarAgain, { memoize := true }⟩
        (.text "xx") 0).progress.steps = 14
  := by
  have hletter : pairGrammar ∉ (smallThenLetter 0).grammars
      ∧ pairGrammarAgain ∉ (smallThenLetter 0).grammars := by
    simp [smallThenLetter, smallLetter, pairGrammar, pairGrammarAgain, Pattern.grammars,
      Grammar.grammars, Root.grammars, Grammar.grammarsOfRules]
  have hpair : ¬ (Pattern.grammar pairGrammar).StandsIn pairThenLetter
      ∧ ¬ (Pattern.grammar pairGrammarAgain).StandsIn pairThenLetter := by
    simp [pairThenLetter, Pattern.standsIn_iff (p := .sequence _ _),
      Pattern.standsIn_iff (p := .lookahead _), Pattern.standsIn_iff (p := .grammar _),
      Pattern.standsIn_iff (p := .ruleRef _), Pattern.parts, pairGrammar, pairGrammarAgain]
  have hresolves : pairThenLetter.ResolvesIn (some pairGrammar) := by
    simp [pairThenLetter, Pattern.ResolvesIn, Pattern.references, Pattern.referencesIn,
      Pattern.parts, pairGrammar, Grammar.rule?]
  exact ⟨pairGrammar_made, pairGrammarAgain_made, smallThenLetter_resolves 0, hletter.1, hletter.2,
    rfl, rfl, hresolves, hpair.1, hpair.2, rfl, rfl⟩

end Peg
