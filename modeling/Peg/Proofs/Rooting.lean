import Peg.Proofs.Building
import Peg.Proofs.Idling
import Peg.Proofs.Rescoping
import Peg.Proofs.Termination

/-!
# Outer grammars and inline roots

There are two ways to give a pattern the rules of a grammar: as the outer grammar of a match, or by
a second grammar of the same rules with the pattern as its root.  The second grammar is not the
first one, and when the pattern contains the first one as well, then its rule applications are told
apart from those of the second one, but not from those of an outer grammar.

All the same a match comes to the same outcome in both ways.  The pattern itself is evaluated while
no rule application is in progress, and `Pattern.eval_ahead` follows both matches there.  A rule
application is made by both with grammars that are twins, and both are idle when it has ended.
-/

namespace Peg

variable {o : Options} {n depth : Nat} {p : Pattern} {f f' : Focus} {g g' : Grammar}
variable {st st' : Progress}

/-! ### Outside the rules -/

/-- A match with an outer grammar and, one step ahead, the one with an inline root. -/
def oneAhead (hsteps : o.maxSteps = none) (hdepth : o.maxDepth = none) : Lockstep o o :=
  Twins.identity.pairing.lockstep hsteps hdepth 1

/-- A pattern is evaluated with the one grammar or the other in scope. -/
structure Pattern.Rerooted (g g' : Grammar) (p : Pattern) (f : Focus) (p' : Pattern) (f' : Focus) :
    Prop where
  pattern : p = p'
  foci : f.Colocated (fun s s' => s = some g ∧ s' = some g') f'

/-- Questions about twins are asked when nothing is in progress. -/
theorem Twins.outside (T : Twins) (hsteps : o.maxSteps = none) (hdepth : o.maxDepth = none)
    {evaluations : Pattern → Focus → Pattern → Focus → Prop} {q q' : Question}
    (h : Question.Related T.Evaluates (fun _ => T.Applies) q q') :
  (oneAhead hsteps hdepth).Outside evaluations q q'
  := by
  have hcontinues : (T.pairing.lockstep hsteps hdepth 1).Continues (oneAhead hsteps hdepth) :=
    ⟨fun _ _ => trivial, rfl, rfl, rfl, rfl⟩
  exact .continued hcontinues h

/-- A pattern goes the same way with another grammar of the same rules in scope. -/
theorem Pattern.Rerooted.plan_corresponds {p' : Pattern} (hsteps : o.maxSteps = none)
    (hdepth : o.maxDepth = none) (hrules : g'.rules = g.rules) (h : Rerooted g g' p f p' f') :
  (p.plan f).Corresponds
    (Alongside.correspondence .identical ((oneAhead hsteps hdepth).Outside (Rerooted g g')))
    (Outcome.Agrees .identical) (p'.plan f')
  := by
  obtain ⟨rfl, hfoci⟩ := h
  apply plan_rescoped hfoci
  · exact fun q _ k k' hk => .evaluate ⟨rfl, hk⟩
  · rintro name rfl
    rw [hfoci.scope.1, hfoci.scope.2]
    apply Option.Rel.some
    apply (Twins.ofRules hrules).outside
    exact .apply ⟨.inl ⟨rfl, rfl⟩, hfoci.anyScope⟩
  · -- a grammar inside the pattern is the same in both matches
    rintro k rfl
    apply (Twins.matchRoot_corresponds (T := .identity) (fun _ _ => rfl) hfoci.anyScope).imp
    · exact fun q q' hq => Twins.identity.outside hsteps hdepth hq
    · exact fun _ _ _ _ _ hr => hr

/-- While no rule application is in progress, a pattern comes to the same with another grammar of
the same rules in scope. -/
theorem Pattern.eval_ahead (ho : o.memoize = false) (hsteps : o.maxSteps = none)
    (hdepth : o.maxDepth = none) (hrules : g'.rules = g.rules) (n depth : Nat) (p : Pattern)
    (h : f.Colocated (fun s s' => s = some g ∧ s' = some g') f')
    (hst : (oneAhead hsteps hdepth).InStep st st') (hidle : st.Idle) :
  (oneAhead hsteps hdepth).Alike (Outcome.Agrees .identical) (p.eval o n depth f st)
    (p.eval o n (depth + 1) f' st')
  := by
  have hplan {p f p' f'} (h : Rerooted g g' p f p' f') :=
    h.plan_corresponds hsteps hdepth hrules
  exact Lockstep.eval_alike_idle ho hplan n depth ⟨rfl, h⟩ hst hidle

/-- An inline root is evaluated in the scope of its grammar. -/
theorem Pattern.eval_inline (hroot : g.root = .inline p)
    (hceiling : brokenCeiling? o (st.steps + 1) depth = none) :
  eval o (n + 1) depth (.grammar g) f st = eval o n (depth + 1) p (f.inScope g) (st.enter f depth)
  := by
  rw [eval_succ, hceiling]
  simp only [plan, matchRoot, hroot, Plan.evaluate, Plan.run_ask, Question.answer]
  cases eval o n (depth + 1) p (f.inScope g) (st.enter f depth) <;> rfl

/-! ### Grammars with another root -/

namespace Grammar

/-- The rules of a grammar as the entries of a dictionary. -/
def entries (g : Grammar) : List (Value × Value) :=
  g.rules.map fun r => (.text r.1, .pattern r.2)

/-- A grammar with the rules of another one, which starts at a pattern. -/
def rootedAt (g : Grammar) (ident : Nat) (p : Pattern) : Grammar :=
  ⟨ident, g.rules, .inline p⟩

/-- The offer of a pattern as a root, or as the body of a rule. -/
abbrev offerOf (key : String) (p : Pattern) : Offer :=
  ⟨.text key, .pattern p, (Value.pattern p).toPattern⟩

/-- Patterns that are offered under proper names are the rules. -/
theorem rulesOf_patterns {rules : List (String × Pattern)} (h : ∀ r ∈ rules, RuleName r.1) :
  rulesOf (rules.map fun r => offerOf r.1 r.2) = pure rules
  := by
  induction rules with
  | nil => rfl
  | cons r rules ih =>
    obtain ⟨⟨hempty, hroot⟩, hrules⟩ := List.forall_mem_cons.1 h
    have hname : (offerOf r.1 r.2).ruleName = pure r.1 := by
      simp only [Offer.ruleName, hempty, hroot, if_false]
    have hbody : (offerOf r.1 r.2).patternFor r.1 = pure r.2 := rfl
    rw [List.map_cons, rulesOf, hname, pure_bind, hbody, pure_bind, ih hrules, pure_bind]

/-- The offers of patterns under names. -/
theorem offers_patterns (rules : List (String × Pattern)) :
  Value.offers (rules.map fun r => (.text r.1, .pattern r.2))
    = rules.map fun r => offerOf r.1 r.2
  := by
  induction rules with
  | nil => rfl
  | cons r rules ih => rw [List.map_cons, Value.offers, ih, List.map_cons]

/-- No reference is undefined where all resolve. -/
theorem undefined?_eq_none (hrules : ∀ r ∈ g.rules, r.2.ResolvesIn (some g))
    (hp : p.ResolvesIn (some g)) :
  undefined? g.rules (.inline p) = none
  := by
  have hbody : ∀ q : Pattern, q.ResolvesIn (some g) → undefinedIn? g.rules q = none := by
    intro q hq
    rw [undefinedIn?_eq_none_iff]
    intro name hname
    obtain ⟨h, hh, hname⟩ := hq name hname
    cases hh
    apply hname
  rw [undefined?_eq_none_iff]
  use fun r hr => hbody r.2 (hrules r hr)
  rintro _ ⟨⟩
  apply hbody p hp

/-- A grammar can be defined with the rules of another one and with a root that refers to these. -/
theorem ofValues_rootedAt (hg : g.Sound) (hp : p.ResolvesIn (some g)) (next : Nat) :
  ofValues (.dict g.entries) (.pattern p) next = .ok (g.rootedAt next p) (next + 1)
  := by
  have hroot : rootOf g.rules (some (offerOf "0" p)) = pure (.inline p) := by
    obtain ⟨r, rules, hrules⟩ := List.exists_cons_of_ne_nil hg.nonempty
    rw [hrules]
    rfl
  have hdefine : ofValues (.dict g.entries) (.pattern p)
      = define (Value.offers g.entries) (some (offerOf "0" p)) := rfl
  rw [hdefine, define, entries, offers_patterns, rulesOf_patterns hg.names, pure_bind, hroot,
    pure_bind, undefined?_eq_none hg.resolves.rules hp]
  rfl

end Grammar

/-! ### Matches -/

/-- The match of a pattern with an outer grammar. -/
def Pattern.within (p : Pattern) (g : Grammar) (o : Options) : Matcher :=
  ⟨p, some g, o⟩

/-- The match of a grammar by itself. -/
def Grammar.matcher (g : Grammar) (o : Options) : Matcher :=
  ⟨.grammar g, none, o⟩

namespace Matcher

variable {subject : Value} {pos : Nat}

/-- A match that remembers nothing comes to the same with the pattern as the root of a grammar,
after one more step. -/
theorem runWithin_matcher (ho : o.memoize = false) (hsteps : o.maxSteps = none)
    (hdepth : o.maxDepth = none) (hrules : g'.rules = g.rules) (hroot : g'.root = .inline p)
    (n : Nat) (subject : Value) (pos : Nat) :
  ((g'.matcher o).runWithin (n + 1) subject pos).outcome
      = ((p.within g o).runWithin n subject pos).outcome
    ∧ ((g'.matcher o).runWithin (n + 1) subject pos).progress.steps
      = ((p.within g o).runWithin n subject pos).progress.steps + 1
  := by
  have hfoci : (Focus.start subject pos (some g)).Colocated
      (fun s s' => s = some g ∧ s' = some g') ((Focus.start subject pos none).inScope g') :=
    ⟨rfl, rfl, rfl, rfl, rfl⟩
  have hst := Twins.identity.pairing.inStep_enter hsteps hdepth (.start subject pos none) 0
  have hrun := p.eval_ahead ho hsteps hdepth hrules n 0 hfoci hst ⟨rfl, rfl⟩
  have hceiling := Pattern.brokenCeiling?_of_no_ceilings hsteps hdepth
  simp only [runWithin, Run.record, Grammar.matcher, Pattern.within]
  rw [Pattern.eval_inline hroot (hceiling _ _)]
  generalize p.eval o n 0 (.start subject pos (some g)) {} = x,
    p.eval o n (0 + 1) _ _ = y at hrun ⊢
  cases hrun with
  | ok hr hst => exact ⟨congrArg Except.ok (Outcome.agrees_identical_iff.1 hr).symm, hst.steps⟩
  | @error e _ _ hdone =>
    have hshift : e.shift 0 = e := by cases e <;> rfl
    exact ⟨congrArg Except.error hshift, hdone.steps⟩

/-- The same at one nesting bound, when the match ends. -/
theorem runWithin_matcher_of_lt (ho : o.memoize = false) (hsteps : o.maxSteps = none)
    (hdepth : o.maxDepth = none) (hrules : g'.rules = g.rules) (hroot : g'.root = .inline p)
    (hn : (p.within g o).nestingBound subject pos < n) :
  ((g'.matcher o).runWithin n subject pos).outcome
      = ((p.within g o).runWithin n subject pos).outcome
    ∧ ((g'.matcher o).runWithin n subject pos).progress.steps
      = ((p.within g o).runWithin n subject pos).progress.steps + 1
  := by
  cases n with
  | zero => cases hn
  | succ n =>
    have hended := runWithin_ended (m := p.within g o) hsteps hdepth (Nat.le_of_lt_succ hn)
    rw [runWithin_eq_of_ended hended n.le_succ]
    apply runWithin_matcher ho hsteps hdepth hrules hroot

/-- An outer grammar is as good as a grammar with an inline root.  If a pattern refers only to rules
of a grammar, then a second grammar can be defined with these rules and with the pattern as its
root.  The match of the second grammar comes to an outcome of the same content as the match of the
pattern with the first one as its outer grammar, or both are stopped by the same left recursion.  If
the keys of the dictionaries in the subject are neither truth values nor floating-point numbers then
it is the same outcome.  Without remembering outcomes it is the same one too, after one more
step. -/
theorem outer_like_inline_root (o : Options) (hsteps : o.maxSteps = none)
    (hdepth : o.maxDepth = none) (g : Grammar) (hg : g.WellFormed) (p : Pattern)
    (hp : p.WellFormed) (hresolves : p.ResolvesIn (some g)) (next : Nat) :
  ∃ g', Grammar.ofValues (.dict g.entries) (.pattern p) next = .ok g' (next + 1)
    ∧ ∀ subject pos n, (p.within g o).nestingBound subject pos < n →
      Verdict.Final ((p.within g o).runWithin n subject pos).outcome
        ∧ Verdict.Agrees .alike ((p.within g o).runWithin n subject pos).outcome
          ((g'.matcher o).runWithin n subject pos).outcome
        ∧ (subject.hasPlainKeys = true →
          ((g'.matcher o).runWithin n subject pos).outcome
            = ((p.within g o).runWithin n subject pos).outcome)
        ∧ (o.memoize = false →
          ((g'.matcher o).runWithin n subject pos).outcome
              = ((p.within g o).runWithin n subject pos).outcome
            ∧ ((g'.matcher o).runWithin n subject pos).progress.steps
              = ((p.within g o).runWithin n subject pos).progress.steps + 1)
  := by
  have hsound : g.Sound := by
    cases g
    apply hg.1
  use g.rootedAt next p, Grammar.ofValues_rootedAt hsound hresolves next
  intro subject pos n hn
  have hm : (p.within g o).Resolves := by
    have hwf : (p.within g o).WellFormed := by
      constructor
      · apply hp
      · rintro _ ⟨⟩
        apply hg
    exact ⟨hresolves, hwf.grammars_resolve⟩
  have hended : Verdict.Ended (((p.within g o).memoizing false).runWithin n subject pos).outcome :=
    runWithin_ended (m := (p.within g o).memoizing false) hsteps hdepth (Nat.le_of_lt hn)
  have hrules : (g.rootedAt next p).rules = g.rules := rfl
  have hroot : (g.rootedAt next p).root = .inline p := rfl
  have hplain : ((((g.rootedAt next p).matcher o).memoizing false).runWithin n subject pos).outcome
      = (((p.within g o).memoizing false).runWithin n subject pos).outcome :=
    (runWithin_matcher_of_lt (o := { o with memoize := false }) rfl hsteps hdepth hrules hroot hn).1
  refine ⟨?_, ?_, ?_, ?_⟩
  · apply final_of_ended hm
    apply runWithin_ended hsteps hdepth (Nat.le_of_lt hn)
  · apply agrees_of_memoizing_false subject.tells_alike hended hplain
  · intro hkeys
    have hagrees := agrees_of_memoizing_false (Value.tells_identical hkeys) hended hplain
    apply (Verdict.agrees_identical_iff.1 hagrees).symm
  · intro ho
    apply runWithin_matcher_of_lt ho hsteps hdepth hrules hroot hn

end Matcher

/-- A grammar of a single digit. -/
def aDigit : Grammar :=
  ⟨0, [("digit", .charRange [('0', '9')])], .rule "digit"⟩

/-- A digit and a mark, or else a digit.  The first digit refers to the rule, and the second one is
the grammar itself. -/
def markedOrNot : Pattern :=
  .choice (.sequence (.ruleRef "digit") (.literal "!")) (.span (.grammar aDigit))

theorem aDigit_wellFormed :
  aDigit.WellFormed
  := by
  refine ⟨⟨by simp, by simp [RuleName], ?_⟩, ?_, trivial⟩
  · constructor
    · rintro _ ⟨⟩
      rfl
    · rintro p ⟨⟩
    · simp [Pattern.ResolvesIn, Pattern.references, Pattern.referencesIn, Pattern.parts]
  · simp [Grammar.RulesWellFormed, Pattern.WellFormed]

theorem markedOrNot_resolves :
  markedOrNot.ResolvesIn (some aDigit)
  := by
  simp [markedOrNot, Pattern.ResolvesIn, Pattern.references, Pattern.referencesIn, Pattern.parts,
    aDigit, Grammar.rule?]

/-- With the outer grammar the second digit is recalled.  With the inline root it is evaluated
again, for the grammar in the pattern is another one then. -/
theorem Matcher.outer_like_inline_root_markedOrNot :
  ((markedOrNot.within aDigit { memoize := true }).runWithin 40 (.text "7") 0).outcome
      = .ok (some ⟨1, [⟨.text "7", none⟩]⟩)
    ∧ ∃ g', Grammar.ofValues (.dict aDigit.entries) (.pattern markedOrNot) 1 = .ok g' 2
      ∧ ((g'.matcher { memoize := true }).runWithin 40 (.text "7") 0).outcome
        = .ok (some ⟨1, [⟨.text "7", none⟩]⟩)
  := by
  have houter : ((markedOrNot.within aDigit { memoize := true }).runWithin 40 (.text "7") 0).outcome
      = .ok (some ⟨1, [⟨.text "7", none⟩]⟩) := rfl
  have hbound : (markedOrNot.within aDigit { memoize := true }).nestingBound (.text "7") 0 < 40 :=
    by decide
  have hwf : markedOrNot.WellFormed := by
    refine ⟨⟨?_, trivial⟩, aDigit_wellFormed⟩
    simp [Pattern.WellFormed]
  obtain ⟨g', hg', hlike⟩ := Matcher.outer_like_inline_root { memoize := true } rfl rfl aDigit
    aDigit_wellFormed markedOrNot hwf markedOrNot_resolves 1
  obtain ⟨-, -, hplain, -⟩ := hlike (.text "7") 0 40 hbound
  exact ⟨houter, g', hg', (hplain rfl).trans houter⟩

end Peg
