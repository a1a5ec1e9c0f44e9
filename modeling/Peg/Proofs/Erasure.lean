import Peg.Proofs.Guarded
import Peg.Proofs.Parallel
import Peg.Proofs.Termination

/-!
# Erasing captures

An erasure of a pattern is the pattern without its captures: what is captured around a pattern is
dropped, and a constant or a position is replaced by the pattern that always matches.  The grammars
inside are replaced by grammars with the same rule names and erased bodies, made anew, so nothing is
known of their numbers.

Captures never influence matching: a match comes to the same as that of any erasure, but for the
captures.  This is `Matcher.ErasesTo.outcome_eq_bare`.  The erasure takes fewer steps, so the two
evaluations are compared under a guard, at different nestings.  The guard goes the same way in both
because the grammar of a rule application in progress either is the grammar that is in scope, or
contains it.
-/

namespace Peg

/-! ### Erasures -/

mutual

/-- The second pattern is an erasure of the first. -/
inductive Pattern.ErasesTo : Pattern → Pattern → Prop where
  | primitive {p : Pattern} : p.isPrimitive = true → p.ErasesTo p
  | field {k k' : Selector} {v v' : Pattern} :
    k.ErasesTo k' → v.ErasesTo v' → (Pattern.field k v).ErasesTo (.field k' v')
  | sequence {p p' q q' : Pattern} :
    p.ErasesTo p' → q.ErasesTo q' → (Pattern.sequence p q).ErasesTo (.sequence p' q')
  | choice {p p' q q' : Pattern} :
    p.ErasesTo p' → q.ErasesTo q' → (Pattern.choice p q).ErasesTo (.choice p' q')
  | repetition {p p' : Pattern} (bound : Bound) :
    p.ErasesTo p' → (Pattern.repetition p bound).ErasesTo (.repetition p' bound)
  | difference {p p' q q' : Pattern} :
    p.ErasesTo p' → q.ErasesTo q' → (Pattern.difference p q).ErasesTo (.difference p' q')
  | invert {p p' : Pattern} : p.ErasesTo p' → (Pattern.invert p).ErasesTo (.invert p')
  | lookahead {p p' : Pattern} :
    p.ErasesTo p' → (Pattern.lookahead p).ErasesTo (.lookahead p')
  | ruleRef (name : String) : (Pattern.ruleRef name).ErasesTo (.ruleRef name)
  | grammar {g g' : Grammar} : g.ErasesTo g' → (Pattern.grammar g).ErasesTo (.grammar g')
  | span {p p' : Pattern} : p.ErasesTo p' → (Pattern.span p).ErasesTo p'
  | const (v : Value) : (Pattern.const v).ErasesTo (.truth true)
  | position : Pattern.position.ErasesTo (.truth true)
  | group {p p' : Pattern} (name : String) : p.ErasesTo p' → (Pattern.group p name).ErasesTo p'
  | collect {p p' : Pattern} : p.ErasesTo p' → (Pattern.collect p).ErasesTo p'

/-- The pattern of a selector is erased. -/
inductive Selector.ErasesTo : Selector → Selector → Prop where
  | literal (name : FieldName) : (Selector.literal name).ErasesTo (.literal name)
  | pattern {p p' : Pattern} : p.ErasesTo p' → (Selector.pattern p).ErasesTo (.pattern p')

/-- The bodies of the rules of a grammar are erased, and its root. -/
inductive Grammar.ErasesTo : Grammar → Grammar → Prop where
  | mk {ident ident' : Nat} {rules rules' : List (String × Pattern)} {root root' : Root} :
    Grammar.RulesEraseTo rules rules' → root.ErasesTo root' →
      Grammar.ErasesTo ⟨ident, rules, root⟩ ⟨ident', rules', root'⟩

/-- The pattern of a root is erased. -/
inductive Root.ErasesTo : Root → Root → Prop where
  | rule (name : String) : (Root.rule name).ErasesTo (.rule name)
  | inline {p p' : Pattern} : p.ErasesTo p' → (Root.inline p).ErasesTo (.inline p')

/-- The bodies of rules are erased. -/
inductive Grammar.RulesEraseTo :
    List (String × Pattern) → List (String × Pattern) → Prop where
  | nil : Grammar.RulesEraseTo [] []
  | cons {name : String} {p p' : Pattern} {rules rules' : List (String × Pattern)} :
    p.ErasesTo p' → Grammar.RulesEraseTo rules rules' →
      Grammar.RulesEraseTo ((name, p) :: rules) ((name, p') :: rules')

end

mutual

/-- The erasure of a pattern in which grammars keep their numbers. -/
def Pattern.erase : Pattern → Pattern
  | .literal t => .literal t
  | .truth b => .truth b
  | .anyChars n => .anyChars n
  | .fewerThan n => .fewerThan n
  | .charSet s => .charSet s
  | .charRange rs => .charRange rs
  | .field k v => .field k.erase v.erase
  | .sequence p q => .sequence p.erase q.erase
  | .choice p q => .choice p.erase q.erase
  | .repetition p bound => .repetition p.erase bound
  | .difference p q => .difference p.erase q.erase
  | .invert p => .invert p.erase
  | .lookahead p => .lookahead p.erase
  | .ruleRef name => .ruleRef name
  | .grammar g => .grammar g.erase
  | .span p => p.erase
  | .const _ => .truth true
  | .position => .truth true
  | .group p _ => p.erase
  | .collect p => p.erase
termination_by structural p => p

def Selector.erase : Selector → Selector
  | .literal name => .literal name
  | .pattern p => .pattern p.erase
termination_by structural k => k

def Grammar.erase : Grammar → Grammar
  | ⟨ident, rules, root⟩ => ⟨ident, Grammar.eraseRules rules, root.erase⟩
termination_by structural g => g

def Root.erase : Root → Root
  | .rule name => .rule name
  | .inline p => .inline p.erase
termination_by structural r => r

def Grammar.eraseRules : List (String × Pattern) → List (String × Pattern)
  | [] => []
  | (name, p) :: rules => (name, p.erase) :: Grammar.eraseRules rules
termination_by structural rules => rules

end

mutual

/-- Every pattern has an erasure. -/
theorem Pattern.erasesTo_erase : ∀ p : Pattern, p.ErasesTo p.erase
  | .literal _ => .primitive rfl
  | .truth _ => .primitive rfl
  | .anyChars _ => .primitive rfl
  | .fewerThan _ => .primitive rfl
  | .charSet _ => .primitive rfl
  | .charRange _ => .primitive rfl
  | .field k v => .field k.erasesTo_erase v.erasesTo_erase
  | .sequence p q => .sequence p.erasesTo_erase q.erasesTo_erase
  | .choice p q => .choice p.erasesTo_erase q.erasesTo_erase
  | .repetition p bound => .repetition bound p.erasesTo_erase
  | .difference p q => .difference p.erasesTo_erase q.erasesTo_erase
  | .invert p => .invert p.erasesTo_erase
  | .lookahead p => .lookahead p.erasesTo_erase
  | .ruleRef name => .ruleRef name
  | .grammar g => .grammar g.erasesTo_erase
  | .span p => .span p.erasesTo_erase
  | .const v => .const v
  | .position => .position
  | .group p name => .group name p.erasesTo_erase
  | .collect p => .collect p.erasesTo_erase

theorem Selector.erasesTo_erase : ∀ k : Selector, k.ErasesTo k.erase
  | .literal name => .literal name
  | .pattern p => .pattern p.erasesTo_erase

theorem Grammar.erasesTo_erase : ∀ g : Grammar, g.ErasesTo g.erase
  | ⟨_, rules, root⟩ => .mk (Grammar.rulesEraseTo_eraseRules rules) root.erasesTo_erase

theorem Root.erasesTo_erase : ∀ r : Root, r.ErasesTo r.erase
  | .rule name => .rule name
  | .inline p => .inline p.erasesTo_erase

theorem Grammar.rulesEraseTo_eraseRules :
    ∀ rules : List (String × Pattern), Grammar.RulesEraseTo rules (Grammar.eraseRules rules)
  | [] => .nil
  | (_, p) :: rules => .cons p.erasesTo_erase (Grammar.rulesEraseTo_eraseRules rules)

end

variable {p p' q q' : Pattern} {f f' : Focus} {g g' : Grammar} {k k' : Key} {rule : String}
variable {active active' : List Key} {scope scope' : Option Grammar}

/-- A grammar and its erasure have the same rules, with erased bodies. -/
theorem Grammar.ErasesTo.rule? (h : g.ErasesTo g') (rule : String) :
  Option.Rel Pattern.ErasesTo (g.rule? rule) (g'.rule? rule)
  := by
  cases h with
  | @mk _ _ rules rules' _ _ hrules _ =>
    simp only [Grammar.rule?]
    induction rules generalizing rules' with
    | nil =>
      cases hrules
      apply Option.Rel.none
    | cons r rules ih =>
      cases hrules with
      | cons hp hrules =>
        rw [List.lookup_cons, List.lookup_cons]
        split
        · apply Option.Rel.some hp
        · apply ih hrules

theorem Grammar.sizeOf_rule?_lt {body : Pattern} (h : g.rule? rule = some body) :
  sizeOf body < sizeOf g
  := by
  have hmem := List.sizeOf_lt_of_mem (mem_rules_of_rule? h)
  obtain ⟨ident, rules, root⟩ := g
  simp only [Prod.mk.sizeOf_spec, mk.sizeOf_spec] at hmem ⊢
  omega

theorem Grammar.sizeOf_root_lt (h : g.root = .inline p) :
  sizeOf p < sizeOf g
  := by
  obtain ⟨ident, rules, root⟩ := g
  cases h
  simp only [mk.sizeOf_spec, Root.inline.sizeOf_spec]
  omega

/-- The parts of a pattern are smaller. -/
theorem Pattern.sizeOf_part_lt (h : q ∈ p.parts) :
  sizeOf q < sizeOf p
  := by
  cases p with
  | field k v =>
    cases k with
    | literal name =>
      obtain rfl := List.mem_singleton.1 h
      simp only [field.sizeOf_spec]
      omega
    | pattern k =>
      simp only [parts, List.mem_cons, List.not_mem_nil, or_false] at h
      simp only [field.sizeOf_spec, Selector.pattern.sizeOf_spec]
      rcases h with rfl | rfl <;> omega
  | sequence | choice | difference =>
    simp only [parts, List.mem_cons, List.not_mem_nil, or_false] at h
    simp only [sequence.sizeOf_spec, choice.sizeOf_spec, difference.sizeOf_spec]
    rcases h with rfl | rfl <;> omega
  | repetition | invert | lookahead | span | group | collect =>
    obtain rfl := List.mem_singleton.1 h
    simp only [repetition.sizeOf_spec, invert.sizeOf_spec, lookahead.sizeOf_spec, span.sizeOf_spec,
      group.sizeOf_spec, collect.sizeOf_spec]
    omega
  | _ => cases h

/-! ### Rule applications in progress -/

/-- A rule application in progress, and its erasure: the same application of another grammar.  A
grammar and its erasure are those of the applications, or they stand inside them. -/
structure Key.Encloses (g g' : Grammar) (k k' : Key) : Prop where
  erasure : k' = { k with grammar := k'.grammar }
  grammar : (k.grammar = g ∧ k'.grammar = g')
    ∨ (sizeOf g < sizeOf k.grammar ∧ sizeOf g' < sizeOf k'.grammar)

/-- A rule application in progress, and its erasure, around a pattern and its erasure, which stand
inside their grammars, with some grammars in scope. -/
structure Key.Around (p p' : Pattern) (scope scope' : Option Grammar) (k k' : Key) : Prop where
  erasure : k' = { k with grammar := k'.grammar }
  pattern : sizeOf p < sizeOf k.grammar ∧ sizeOf p' < sizeOf k'.grammar
  scope : ∀ g g', scope = some g → scope' = some g' → Key.Encloses g g' k k'

namespace Key

/-- An application is the same as one in progress if their erasures are. -/
theorem Encloses.same_eq (h : Key.Encloses g g' k k') (place : Place) (pos : Nat) :
  k.same ⟨g, rule, place, pos⟩ = k'.same ⟨g', rule, place, pos⟩
  := by
  have hgrammar : k.grammar = g ↔ k'.grammar = g' := by
    rcases h.grammar with ⟨hg, hg'⟩ | ⟨hg, hg'⟩
    · simp [hg, hg']
    · -- a grammar that stands inside another one is not that one
      constructor
      · rintro rfl
        omega
      · rintro rfl
        omega
  rw [h.erasure, Bool.eq_iff_iff, same_iff, same_iff, hgrammar]

/-- The bodies of the rules, and the roots, of an enclosed grammar are enclosed. -/
theorem Encloses.around (h : Key.Encloses g g' k k') (hp : sizeOf p < sizeOf g)
    (hp' : sizeOf p' < sizeOf g') :
  Key.Around p p' (some g) (some g') k k'
  := by
  constructor
  · apply h.erasure
  · rcases h.grammar with ⟨rfl, rfl⟩ | ⟨hg, hg'⟩ <;> omega
  · rintro _ _ ⟨⟩ ⟨⟩
    apply h

theorem Around.of_sizeOf_le (h : Key.Around p p' scope scope' k k') (hq : sizeOf q ≤ sizeOf p)
    (hq' : sizeOf q' ≤ sizeOf p') :
  Key.Around q q' scope scope' k k'
  := by
  obtain ⟨hp, hp'⟩ := h.pattern
  constructor
  · apply h.erasure
  · omega
  · apply h.scope

theorem Around.encloses (h : Key.Around (.grammar g) (.grammar g') scope scope' k k') :
  Key.Encloses g g' k k'
  := by
  have hsize := h.pattern
  simp only [Pattern.grammar.sizeOf_spec] at hsize
  constructor
  · apply h.erasure
  · right
    omega

end Key

/-! ### Patterns and their erasures -/

/-- The same success without captures. -/
def Success.bare (s : Success) : Success :=
  ⟨s.stop, []⟩

/-- Two foci at the same place, with given grammars in scope. -/
structure Focus.Rescoped (scope scope' : Option Grammar) (f f' : Focus) : Prop where
  subject : f.subject = f'.subject
  pos : f.pos = f'.pos
  path : f.path = f'.path
  scope : f.scope = scope
  scope' : f'.scope = scope'

/-- Foci at the same place, with successes of which the second has no captures. -/
def erasing (scope scope' : Option Grammar) : Resemblance where
  foci := Focus.Rescoped scope scope'
  successes s s' := s' = s.bare
  stay h := by rw [Focus.stay, Focus.stay, h.pos, Success.bare]
  moveTo h hs := ⟨h.subject, by rw [hs]; rfl, h.path, h.scope, h.scope'⟩
  stop_iff h hs := by simp [hs, h.pos, Success.bare]
  room h := (Focus.sameAhead_of_eq h.subject h.pos).room_eq
  after hs ht := by simp [hs, ht, Success.after, Success.bare]
  back h hs := by simp [hs, h.pos, Success.bare]

/-- A question about a pattern or a rule, and the one about its erasure, with rule applications in
progress that are around it. -/
inductive Question.ErasesTo (active active' : List Key) : Question → Question → Prop where
  | evaluate {p p' : Pattern} {scope scope' : Option Grammar} {f f' : Focus} :
    p.ErasesTo p' → Option.Rel Grammar.ErasesTo scope scope' → f.Rescoped scope scope' f' →
      List.Forall₂ (Key.Around p p' scope scope') active active' →
      ErasesTo active active' (.evaluate p f) (.evaluate p' f')
  | apply {g g' : Grammar} {rule : String} {scope scope' : Option Grammar} {f f' : Focus} :
    g.ErasesTo g' → f.Rescoped scope scope' f' →
      List.Forall₂ (Key.Encloses g g') active active' →
      ErasesTo active active' (.apply g rule f) (.apply g' rule f')

theorem Focus.Rescoped.inScope (h : f.Rescoped scope scope' f') (g g' : Grammar) :
  (f.inScope g).Rescoped (some g) (some g') (f'.inScope g')
  := ⟨h.subject, h.pos, h.path, rfl, rfl⟩

/-- Whether a pattern captures something, around another one or alone. -/
def Pattern.isCapture : Pattern → Bool
  | .span _ => true
  | .const _ => true
  | .position => true
  | .group _ _ => true
  | .collect _ => true
  | _ => false

/-- A pattern that is no capture goes the same way as its erasure. -/
theorem Pattern.ErasesTo.plan_corresponds (h : p.ErasesTo p') (hcapture : p.isCapture = false)
    (hscope : Option.Rel Grammar.ErasesTo scope scope') (hf : f.Rescoped scope scope' f')
    (hactive : List.Forall₂ (Key.Around p p' scope scope') active active') :
  (p.plan f).Corresponds
    ((erasing scope scope').correspondence (Question.ErasesTo active active'))
    (erasing scope scope').outcomes (p'.plan f')
  := by
  have hrel : ∀ q q' f f', (q.ErasesTo q' ∧ q ∈ p.parts ∧ q' ∈ p'.parts) →
      (erasing scope scope').foci f f' →
      Question.ErasesTo active active' (.evaluate q f) (.evaluate q' f') := by
    rintro q q' f f' ⟨hq, hpart, hpart'⟩ hf
    apply Question.ErasesTo.evaluate hq hscope hf
    apply hactive.imp
    intro k k' hk
    apply hk.of_sizeOf_le (Nat.le_of_lt (sizeOf_part_lt hpart))
      (Nat.le_of_lt (sizeOf_part_lt hpart'))
  cases h with
  | primitive hp =>
    apply Resemblance.primitive_corresponds hp (Focus.sameAhead_of_eq hf.subject hf.pos)
    intro n
    simp [erasing, hf.pos, Success.bare]
  | sequence hp hq =>
    exact Resemblance.parallel_corresponds hrel (Parallel.sequence hp hq).of_parts hf
  | choice hp hq =>
    exact Resemblance.parallel_corresponds hrel (Parallel.choice hp hq).of_parts hf
  | repetition bound hp =>
    exact Resemblance.parallel_corresponds hrel (Parallel.repetition hp).of_parts hf
  | difference hp hq =>
    exact Resemblance.parallel_corresponds hrel (Parallel.difference hp hq).of_parts hf
  | invert hp => exact Resemblance.parallel_corresponds hrel (Parallel.invert hp).of_parts hf
  | lookahead hp =>
    exact Resemblance.parallel_corresponds hrel (Parallel.lookahead hp).of_parts hf
  | @field k k' v v' hk hv =>
    have hkey : k.Parallel (fun q q' => q.ErasesTo q' ∧ q ∈ (Pattern.field k v).parts
        ∧ q' ∈ (Pattern.field k' v').parts) k' := by
      cases hk with
      | literal name => apply Selector.Parallel.literal
      | pattern hq =>
        apply Selector.Parallel.pattern
        use hq
        simp [parts]
    apply Resemblance.field_corresponds hrel hkey _ hf hf.subject
    · intro _ key
      use ⟨rfl, rfl, hf.path, hf.scope, hf.scope'⟩
      intro value
      refine ⟨rfl, rfl, ?_, hf.scope, hf.scope'⟩
      simp only [Focus.inField, hf.path]
    · use hv
      cases hk <;> simp [parts]
  | ruleRef name =>
    cases hscope with
    | none =>
      simp only [plan, hf.scope, hf.scope']
      rfl
    | @some g g' hg =>
      simp only [plan, hf.scope, hf.scope']
      constructor
      · apply Question.ErasesTo.apply hg hf
        apply hactive.imp
        intro k k' hk
        apply hk.scope g g' rfl rfl
      · exact fun _ _ hr => hr
  | @grammar g g' hg =>
    have hencloses : List.Forall₂ (Key.Encloses g g') active active' :=
      hactive.imp fun k k' hk => hk.encloses
    cases hg with
    | mk hrules hroot =>
      cases hroot with
      | rule name => exact ⟨.apply (.mk hrules (.rule name)) hf hencloses, fun _ _ hr => hr⟩
      | inline hq =>
        refine ⟨.evaluate hq (.some (.mk hrules (.inline hq))) (hf.inScope _ _) ?_,
          fun _ _ hr => hr⟩
        apply hencloses.imp
        intro k k' hk
        apply hk.around (Grammar.sizeOf_root_lt rfl) (Grammar.sizeOf_root_lt rfl)
  | span _ => cases hcapture
  | const _ => cases hcapture
  | position => cases hcapture
  | group _ _ => cases hcapture
  | collect _ => cases hcapture

/-- How a capture is erased: one around another pattern is dropped, and any other becomes the
pattern that always matches. -/
inductive Pattern.CaptureErased (f : Focus) (p p' : Pattern) : Prop where
  | around {q : Pattern} (w : Success → Success) :
    p.plan f = .ask (.evaluate q f) (fun r => .done (r.map w)) → (∀ s, (w s).bare = s.bare) →
      q.ErasesTo p' → q ∈ p.parts → CaptureErased f p p'
  | here (v : Value) : p.plan f = .done (some (f.capturing v)) → p' = .truth true →
      CaptureErased f p p'

theorem Pattern.ErasesTo.captureErased (h : p.ErasesTo p') (hp : p.isCapture = true)
    (f : Focus) :
  CaptureErased f p p'
  := by
  cases h with
  | span hq => exact .around _ rfl (fun _ => rfl) hq (by simp [parts])
  | const v => exact .here v rfl rfl
  | position => exact .here f.whereabouts rfl rfl
  | group name hq => exact .around _ rfl (fun _ => rfl) hq (by simp [parts])
  | collect hq => exact .around _ rfl (fun _ => rfl) hq (by simp [parts])
  | primitive hprimitive => cases p <;> simp [isPrimitive, isCapture] at hprimitive hp
  | _ => cases hp

/-! ### Evaluations and their erasures -/

/-- Results of an evaluation and of another one that may nest more deeply: nothing is known if the
first nests too deeply, and else they are related or the same fault. -/
inductive Verdict.Simulated {α β : Type} (results : α → β → Prop) :
    Except Fault α → Except Fault β → Prop where
  | ok {a : α} {b : β} : results a b → Simulated results (.ok a) (.ok b)
  | error (e : Fault) : Simulated results (.error e) (.error e)
  | tooDeep (y : Except Fault β) : Simulated results (.error .tooDeep) y

/-- Plans that go the same way have results that simulate each other, if answers do. -/
theorem Plan.Corresponds.run_simulated {α β : Type} {c : Correspondence} {P : α → β → Prop}
    {x : Plan α} {y : Plan β} {answer answer' : Question → Except Fault Outcome}
    (hxy : x.Corresponds c P y)
    (hanswer : ∀ q q', c.questions q q' →
      Verdict.Simulated (c.answers q q') (answer q) (answer' q')) :
  Verdict.Simulated P (x.run answer) (y.run answer')
  := by
  induction hxy using Corresponds.induction with
  | done a b hab => apply Verdict.Simulated.ok hab
  | stop e => apply Verdict.Simulated.error e
  | ask q q' next next' hq _ ih =>
    have hrun := hanswer q q' hq
    rw [run_ask_except, run_ask_except]
    generalize answer q = z, answer' q' = z' at hrun ⊢
    cases hrun with
    | ok hr => apply ih _ _ hr
    | error e => apply Verdict.Simulated.error e
    | tooDeep y => apply Verdict.Simulated.tooDeep

/-- The relation of outcomes: two failures, or two successes of which the second has no captures. -/
def Outcome.ErasesTo : Outcome → Outcome → Prop :=
  Option.Rel fun s s' => s' = s.bare

/-- Questions and their erasures have answers that simulate each other, if evaluations do. -/
theorem Question.ErasesTo.answerGuarded {q q' : Question}
    {ev ev' : List Key → Pattern → Focus → Except Fault Outcome}
    (hev : ∀ {active active' p p' f f' scope scope'}, p.ErasesTo p' →
      Option.Rel Grammar.ErasesTo scope scope' → f.Rescoped scope scope' f' →
      List.Forall₂ (Key.Around p p' scope scope') active active' →
      Verdict.Simulated Outcome.ErasesTo (ev active p f) (ev' active' p' f'))
    (hq : q.ErasesTo active active' q') :
  Verdict.Simulated Outcome.ErasesTo (q.answerGuarded ev active) (q'.answerGuarded ev' active')
  := by
  cases hq with
  | evaluate hp hscope hf hactive => apply hev hp hscope hf hactive
  | @apply g g' rule _ _ f f' hg hf hactive =>
    have hplace : f.place = f'.place := by rw [Focus.place, Focus.place, hf.subject, hf.path]
    have hany : (active.any fun k => k.same (f.key g rule))
        = active'.any fun k' => k'.same (f'.key g' rule) := by
      apply Key.any_same_eq hactive
      intro k k' hk
      rw [Focus.key, Focus.key, hplace, hf.pos]
      apply hk.same_eq
    have hbody := hg.rule? rule
    simp only [Question.answerGuarded, ← hany, hf.pos]
    split
    · apply Verdict.Simulated.error
    · generalize hr : g.rule? rule = x, hr' : g'.rule? rule = x' at hbody ⊢
      cases hbody with
      | none => apply Verdict.Simulated.error
      | some hp =>
        apply hev hp (.some hg) (hf.inScope g g')
        have hsize := Grammar.sizeOf_rule?_lt hr
        have hsize' := Grammar.sizeOf_rule?_lt hr'
        apply List.Forall₂.cons
        · apply Key.Encloses.around _ hsize hsize'
          constructor
          · rw [Focus.key, Focus.key, hplace, hf.pos]
          · left
            exact ⟨rfl, rfl⟩
        · apply hactive.imp
          intro k k' hk
          apply hk.around hsize hsize'

/-- A capture comes to the same as its erasure but for captures, if the pattern inside it does. -/
theorem Pattern.CaptureErased.simulated {n m : Nat} (h : CaptureErased f p p')
    (hpos : f.pos = f'.pos)
    (hinside : ∀ q, q.ErasesTo p' → q ∈ p.parts →
      Verdict.Simulated Outcome.ErasesTo (guarded n active q f) (guarded (m + 1) active' p' f')) :
  Verdict.Simulated Outcome.ErasesTo (guarded (n + 1) active p f) (guarded (m + 1) active' p' f')
  := by
  cases h with
  | @around q w hplan hw hq hpart =>
    have hrun := hinside q hq hpart
    rw [guarded_succ, hplan, Plan.run_ask_except]
    simp only [Question.answerGuarded]
    generalize Pattern.guarded n active q f = x, Pattern.guarded (m + 1) active' p' f' = x'
      at hrun ⊢
    cases hrun with
    | error e => apply Verdict.Simulated.error
    | tooDeep y => apply Verdict.Simulated.tooDeep
    | ok hr =>
      apply Verdict.Simulated.ok
      cases hr with
      | none => apply Option.Rel.none
      | some hs =>
        apply Option.Rel.some
        rw [hs, hw]
  | here v hplan hp' =>
    subst hp'
    rw [guarded_succ, hplan]
    apply Verdict.Simulated.ok
    apply Option.Rel.some
    rw [Focus.stay, ← hpos]
    rfl

/-- A pattern comes to the same as its erasure but for captures, if the erasure may nest at least as
deeply, unless the pattern nests too deeply. -/
theorem Pattern.ErasesTo.guarded {n m : Nat} (hnm : n ≤ m) (h : p.ErasesTo p')
    (hscope : Option.Rel Grammar.ErasesTo scope scope') (hf : f.Rescoped scope scope' f')
    (hactive : List.Forall₂ (Key.Around p p' scope scope') active active') :
  Verdict.Simulated Outcome.ErasesTo (guarded n active p f) (guarded m active' p' f')
  := by
  induction n generalizing m p p' f f' scope scope' active active' with
  | zero => apply Verdict.Simulated.tooDeep
  | succ n ih =>
    obtain ⟨m, rfl⟩ := Nat.exists_eq_succ_of_ne_zero (Nat.ne_zero_of_lt hnm)
    cases hcapture : p.isCapture with
    | true =>
      -- the erasure has no evaluation for the capture, so only the pattern goes one deeper
      apply (h.captureErased hcapture f).simulated hf.pos
      intro q hq hpart
      apply ih (Nat.le_of_succ_le hnm) hq hscope hf
      apply hactive.imp
      intro k k' hk
      apply hk.of_sizeOf_le (Nat.le_of_lt (sizeOf_part_lt hpart)) (Nat.le_refl _)
    | false =>
      apply (h.plan_corresponds hcapture hscope hf hactive).run_simulated
      intro q q' hq
      apply hq.answerGuarded
      intro active active' p p' f f' scope scope' hp hscope hf hactive
      apply ih (Nat.le_of_succ_le_succ hnm) hp hscope hf hactive

/-! ### Matches and their erasures -/

/-- The second match is one of the erasures of the pattern and the outer grammar of the first, with
any options. -/
structure Matcher.ErasesTo (m m' : Matcher) : Prop where
  pattern : m.pattern.ErasesTo m'.pattern
  outer : Option.Rel Grammar.ErasesTo m.outer m'.outer

/-- The same verdict, where a success has no captures. -/
def Verdict.bare : Except Fault Outcome → Except Fault Outcome
  | .ok r => .ok (r.map Success.bare)
  | .error e => .error e

theorem Verdict.Ended.bare {v : Except Fault Outcome} (h : Ended v) :
  Ended (bare v)
  := by
  cases v with
  | ok r =>
    intro e he
    cases he
  | error e => apply h

theorem Verdict.Simulated.eq_bare {v v' : Except Fault Outcome}
    (h : Simulated Outcome.ErasesTo v v') (hv : Ended v) :
  v' = bare v
  := by
  cases h with
  | ok hr =>
    cases hr with
    | none => rfl
    | some hs =>
      rw [hs]
      rfl
  | error e => rfl
  | tooDeep y => cases hv _ rfl

/-- What agrees with a verdict without captures is the same as what agrees with the verdict itself,
but for captures. -/
theorem Verdict.Agrees.eq_bare {c : Comparison} {v w w' : Except Fault Outcome}
    (h : Agrees c v w) (h' : Agrees c (bare v) w') :
  w' = bare w
  := by
  cases h with
  | error e =>
    cases h'
    rfl
  | ok hr =>
    cases hr with
    | none =>
      cases h' with
      | ok hr' =>
        cases hr'
        rfl
    | some hs =>
      cases h' with
      | ok hr' =>
        cases hr' with
        | @some _ s' hs' =>
          obtain ⟨stop, captures⟩ := s'
          obtain ⟨rfl, hcaptures⟩ := hs'
          cases hcaptures
          simp [bare, Success.bare, hs.1]

/-- The erasure of a match in which grammars keep their numbers. -/
def Matcher.erase (m : Matcher) : Matcher :=
  { m with pattern := m.pattern.erase, outer := m.outer.map Grammar.erase }

theorem Matcher.erasesTo_erase (m : Matcher) :
  m.ErasesTo m.erase
  := by
  obtain ⟨p, outer, options⟩ := m
  constructor
  · apply p.erasesTo_erase
  · cases outer with
    | none => apply Option.Rel.none
    | some g => apply Option.Rel.some g.erasesTo_erase

/-- Captures never influence matching.  Without ceilings, a match and any erasure of it end with the
same fault, or they both fail, or they both succeed and stop at the same position, and the erasure
captures nothing. -/
theorem Matcher.ErasesTo.outcome_eq_bare {m m' : Matcher} (h : m.ErasesTo m')
    (hsteps : m.options.maxSteps = none) (hdepth : m.options.maxDepth = none)
    (hsteps' : m'.options.maxSteps = none) (hdepth' : m'.options.maxDepth = none)
    (subject : Value) (pos n : Nat) (hn : m.nestingBound subject pos ≤ n) :
  Verdict.Ended (m.runWithin n subject pos).outcome
    ∧ (m'.runWithin n subject pos).outcome = Verdict.bare (m.runWithin n subject pos).outcome
  := by
  use runWithin_ended hsteps hdepth hn
  -- memories of the two matches differ, so they are compared without, each to its own with memory
  have hended : Verdict.Ended ((m.memoizing false).runWithin n subject pos).outcome :=
    runWithin_ended (m := m.memoizing false) hsteps hdepth hn
  have hplain : ((m'.memoizing false).runWithin n subject pos).outcome
      = Verdict.bare ((m.memoizing false).runWithin n subject pos).outcome := by
    rw [outcome_eq_guarded hsteps hdepth] at hended ⊢
    rw [outcome_eq_guarded hsteps' hdepth']
    have hrescoped : Focus.Rescoped m.outer m'.outer (.start subject pos m.outer)
        (.start subject pos m'.outer) := ⟨rfl, rfl, rfl, rfl, rfl⟩
    apply (h.pattern.guarded (Nat.le_refl n) h.outer hrescoped .nil).eq_bare hended
  have hagrees := agrees_memoizing_false hended
  have hagrees' := agrees_memoizing_false (m := m') (hplain ▸ hended.bare)
  rw [hplain] at hagrees'
  apply hagrees.eq_bare hagrees'

/-- A digit with its text and its position, where the rule for digits has captures of its own. -/
def placedDigit : Matcher where
  pattern := .sequence .position (.span (.ruleRef "digit"))
  outer := some ⟨0, [("digit", .group (.span (.charRange [('0', '9')])) "value")], .rule "digit"⟩
  options := { memoize := true }

/-- The erasure of a digit stops at the same position. -/
theorem Matcher.ErasesTo.outcome_eq_bare_placedDigit :
  placedDigit.nestingBound (.text "7") 0 = 9
    ∧ (placedDigit.runWithin 9 (.text "7") 0).outcome = .ok (some ⟨1,
      [⟨.int 0, none⟩, ⟨.text "7", none⟩, ⟨.text "7", some "value"⟩]⟩)
    ∧ (placedDigit.erase.runWithin 9 (.text "7") 0).outcome = .ok (some ⟨1, []⟩)
  := by
  have hbound : placedDigit.nestingBound (.text "7") 0 = 9 := by decide
  have houtcome : (placedDigit.runWithin 9 (.text "7") 0).outcome = .ok (some ⟨1,
      [⟨.int 0, none⟩, ⟨.text "7", none⟩, ⟨.text "7", some "value"⟩]⟩) := rfl
  obtain ⟨-, herased⟩ := placedDigit.erasesTo_erase.outcome_eq_bare rfl rfl rfl rfl (.text "7") 0 9
    (Nat.le_of_eq hbound)
  rw [houtcome] at herased
  exact ⟨hbound, houtcome, herased⟩

end Peg
