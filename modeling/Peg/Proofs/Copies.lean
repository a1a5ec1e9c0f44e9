import Peg.Proofs.Idling
import Peg.Proofs.Rescoping
import Peg.Proofs.Scoping

/-!
# Copies of grammars

A grammar may be made again, from the same bodies and with other grammars inside.  `Copies` relates
grammars that may stand for one another in this way: of the rules that their patterns refer to they
have bodies that are the same or are grammars which stand for one another in turn, and two grammars
are the same exactly if their copies are.

A match with a grammar and the one with a copy in its place are told alike, by
`Matcher.toldAlike_of_copied`: they have the same outcome, the same number of steps and the same
trace.  `Copies` is about lookups alone, so copies may differ in rules that no pattern refers to.

A pattern may hold grammars that stand for themselves next to a copy of one of them in scope.  If
outcomes are remembered then a rule application may be recalled with the grammar in scope and not
with its copy.  If not, then the two are told alike all the same, by `Matcher.toldAlike_of_served`.
-/

namespace Peg

variable {p p' q : Pattern} {g g' : Grammar} {f f' : Focus} {rule name : String}
variable {scope scope' : Option Grammar}

/-! ### Patterns with copies inside -/

section Relation

variable {rel rel' : Grammar → Grammar → Prop}

/-- The same pattern, in which every grammar stands for itself, or two grammars that stand for one
another. -/
inductive Pattern.Copied (rel : Grammar → Grammar → Prop) : Pattern → Pattern → Prop where
  | same {p : Pattern} : (∀ g ∈ p.grammars, rel g g) → Copied rel p p
  | grammar {g g' : Grammar} : rel g g' → Copied rel (.grammar g) (.grammar g')

/-- Two grammars that stand for one another as far as the rule of that name goes. -/
structure Grammar.Serves (rel : Grammar → Grammar → Prop) (rule : String) (g g' : Grammar) :
    Prop where
  related : rel g g'
  bodies : Option.Rel (Pattern.Copied rel) (g.rule? rule) (g'.rule? rule)

/-- The grammars in scope stand for one another as far as the references of a pattern go. -/
def Pattern.ServedIn (rel : Grammar → Grammar → Prop) (p : Pattern)
    (scope scope' : Option Grammar) : Prop :=
  ∀ name ∈ p.references, Option.Rel (Grammar.Serves rel name) scope scope'

/-- Two grammars start alike, at a rule as far as which they stand for one another, or at patterns
with copies inside. -/
inductive Root.Copied (rel : Grammar → Grammar → Prop) (g g' : Grammar) : Root → Root → Prop where
  | rule {name : String} : g.Serves rel name g' → Copied rel g g' (.rule name) (.rule name)
  | inline {p p' : Pattern} :
    p.Copied rel p' → p.ServedIn rel (some g) (some g') → Copied rel g g' (.inline p) (.inline p')

/-- The second grammar can stand for the first one: it starts alike, and it serves the references in
the rules. -/
structure Grammar.Copy (rel : Grammar → Grammar → Prop) (g g' : Grammar) : Prop where
  root : g.root.Copied rel g g' g'.root
  rules : ∀ name body, g.rule? name = some body → body.ServedIn rel (some g) (some g')

theorem Pattern.Copied.mono (hrel : ∀ g g', rel g g' → rel' g g') (h : p.Copied rel p') :
  p.Copied rel' p'
  := by
  cases h with
  | same h => exact .same fun g hg => hrel g g (h g hg)
  | grammar h => exact .grammar (hrel _ _ h)

theorem Grammar.Serves.mono (hrel : ∀ g g', rel g g' → rel' g g') (h : g.Serves rel rule g') :
  g.Serves rel' rule g'
  := by
  use hrel _ _ h.related
  exact h.bodies.imp fun _ _ hp => hp.mono hrel

theorem Pattern.ServedIn.mono (hrel : ∀ g g', rel g g' → rel' g g')
    (h : p.ServedIn rel scope scope') :
  p.ServedIn rel' scope scope'
  := by
  intro name hname
  exact (h name hname).imp fun _ _ hg => hg.mono hrel

theorem Grammar.Copy.mono (hrel : ∀ g g', rel g g' → rel' g g') (h : g.Copy rel g') :
  g.Copy rel' g'
  := by
  refine ⟨?_, fun name body hbody => (h.rules name body hbody).mono hrel⟩
  have hroot := h.root
  generalize g.root = r, g'.root = r' at hroot ⊢
  cases hroot with
  | rule hg => exact .rule (hg.mono hrel)
  | inline hp hserved => exact .inline (hp.mono hrel) (hserved.mono hrel)

/-- The parts of a pattern refer to nothing else. -/
theorem Pattern.ServedIn.part (h : p.ServedIn rel scope scope') (hq : q ∈ p.parts) :
  q.ServedIn rel scope scope'
  := fun name hname => h name (mem_references_of_part hq hname)

/-- The grammars in scope do not matter to a pattern without references. -/
theorem Pattern.servedIn_of_closed (h : p.references = []) :
  p.ServedIn rel scope scope'
  := by
  simp [ServedIn, h]

/-- A grammar serves itself, if all grammars in it stand for themselves. -/
theorem Grammar.serves_self (h : ∀ k ∈ g.grammars, rel k k) (rule : String) :
  g.Serves rel rule g
  := by
  refine ⟨h g g.mem_grammars_self, ?_⟩
  cases hbody : g.rule? rule with
  | none => apply Option.Rel.none
  | some body =>
    apply Option.Rel.some
    apply Pattern.Copied.same
    exact fun k hk => h k (grammars_subset_of_rule (mem_rules_of_rule? hbody) hk)

/-- A grammar can stand for itself, if all grammars in it do. -/
theorem Grammar.copy_self (h : ∀ k ∈ g.grammars, rel k k) :
  g.Copy rel g
  := by
  have hserved : ∀ p : Pattern, p.ServedIn rel (some g) (some g) :=
    fun p name _ => .some (serves_self h name)
  refine ⟨?_, fun name body _ => hserved body⟩
  cases hroot : g.root with
  | rule name => exact .rule (serves_self h name)
  | inline p => exact .inline (.same fun k hk => h k (grammars_subset_of_root hroot hk)) (hserved p)

end Relation

/-! ### Matches with copies -/

/-- Which grammars may stand for one another. -/
structure Copies where
  rel : Grammar → Grammar → Prop
  copy {g g' : Grammar} : rel g g' → g.Copy rel g'
  eq_iff {g g' h h' : Grammar} : rel g g' → rel h h' → (g = h ↔ g' = h')

namespace Copies

/-- Every grammar stands for itself only. -/
def identity : Copies where
  rel := Eq
  copy := by
    rintro g _ rfl
    exact Grammar.copy_self fun _ _ => rfl
  eq_iff h h' := h.congr h'

variable {K : Copies} {o : Options}

/-- A pattern and one with copies inside are evaluated at the same place, with grammars in scope
that serve the references. -/
structure Evaluates (K : Copies) (p : Pattern) (f : Focus) (p' : Pattern) (f' : Focus) : Prop where
  pattern : p.Copied K.rel p'
  served : p.ServedIn K.rel f.scope f'.scope
  foci : f.Colocated (fun _ _ => True) f'

/-- A rule of two grammars that stand for one another is applied at the same place. -/
structure Applies (K : Copies) (rule : String) (g : Grammar) (f : Focus) (g' : Grammar)
    (f' : Focus) : Prop where
  serves : g.Serves K.rel rule g'
  foci : f.Colocated (fun _ _ => True) f'

/-- Copies have bodies that are evaluated side by side. -/
theorem Applies.body (h : K.Applies rule g f g' f') :
  Option.Rel (fun p p' => K.Evaluates p (f.inScope g) p' (f'.inScope g')) (g.rule? rule)
    (g'.rule? rule)
  := by
  have hbodies := h.serves.bodies
  have hrules := (K.copy h.serves.related).rules rule
  generalize g.rule? rule = x, g'.rule? rule = y at hbodies hrules ⊢
  cases hbodies with
  | none => apply Option.Rel.none
  | some hp => exact .some ⟨hp, hrules _ rfl, h.foci.inScope trivial⟩

theorem Applies.same_eq {rule₁ : String} {g₁ g₁' : Grammar} {f₁ f₁' : Focus}
    (h : K.Applies rule g f g' f') (h₁ : K.Applies rule₁ g₁ f₁ g₁' f₁') :
  (f.key g rule).same (f₁.key g₁ rule₁) = (f'.key g' rule).same (f₁'.key g₁' rule₁)
  := by
  rw [Bool.eq_iff_iff, Key.same_iff, Key.same_iff]
  simp [Focus.key, h.foci.pos, h₁.foci.pos, h.foci.place_eq, h₁.foci.place_eq,
    K.eq_iff h.serves.related h₁.serves.related]

/-- Related questions have the same answers. -/
abbrev correspondence (K : Copies) : Correspondence :=
  Alongside.correspondence .identical (Question.Related K.Evaluates K.Applies)

theorem apply_corresponds (h : K.Applies rule g f g' f') :
  (Plan.apply g rule f).Corresponds K.correspondence (Outcome.Agrees .identical)
    (Plan.apply g' rule f')
  := ⟨.apply h, fun _ _ hr => hr⟩

theorem matchRoot_corresponds (h : K.rel g g') (hfoci : f.Colocated (fun _ _ => True) f') :
  (matchRoot g f).Corresponds K.correspondence (Outcome.Agrees .identical) (matchRoot g' f')
  := by
  have hroot := (K.copy h).root
  simp only [matchRoot]
  generalize g.root = r, g'.root = r' at hroot ⊢
  cases hroot with
  | rule hg => apply apply_corresponds ⟨hg, hfoci⟩
  | inline hp hserved => exact ⟨.evaluate ⟨hp, hserved, hfoci.inScope trivial⟩, fun _ _ hr => hr⟩

/-- A pattern goes the same way with copies inside it and in scope. -/
theorem Evaluates.plan_corresponds (h : K.Evaluates p f p' f') :
  (p.plan f).Corresponds K.correspondence (Outcome.Agrees .identical) (p'.plan f')
  := by
  obtain ⟨hpattern, hserved, hfoci⟩ := h
  cases hpattern with
  | grammar hg => apply matchRoot_corresponds hg hfoci
  | same hgrammars =>
    -- the scopes stay as they are while the parts of a pattern are evaluated
    have hscopes : f.Colocated (fun s s' => s = f.scope ∧ s' = f'.scope) f' :=
      ⟨hfoci.subject, hfoci.pos, hfoci.path, rfl, rfl⟩
    apply Pattern.plan_rescoped hscopes
    · intro q hq k k' hk
      apply Question.Related.evaluate
      have hsubset := Pattern.grammars_subset_of_part hq
      refine ⟨.same fun g hg => hgrammars g (hsubset hg), ?_, hk.anyScope⟩
      rw [hk.scope.1, hk.scope.2]
      apply hserved.part hq
    · rintro name rfl
      have hname := hserved name (Pattern.mem_references_ruleRef name)
      exact hname.imp fun _ _ hg => .apply ⟨hg, hfoci⟩
    · rintro g rfl
      apply matchRoot_corresponds (hgrammars g g.mem_grammars_self) hfoci

/-- The lines of a trace for completed rule applications. -/
def lines (cs : List (Key × Outcome)) : List String :=
  cs.map fun c => Trace.completed c.1 c.2

/-- A match and the same one with copies. -/
def unison (K : Copies) : Unison where
  evaluations := K.Evaluates
  applications := K.Applies
  comparison := .identical
  known _ _ := True
  histories cs cs' := lines cs = lines cs'
  known_hereditary := .anything
  plan_corresponds _ h := h.plan_corresponds
  pos_eq h := h.foci.pos
  body h := h.body
  same_eq h h₁ := h.same_eq h₁
  histories_nil := rfl
  histories_concat h hr hcs := by
    rw [Outcome.agrees_identical_iff.1 hr]
    simp only [lines, List.map_append] at hcs ⊢
    rw [hcs]
    simp [Trace.completed, Focus.key, h.foci.pos]

/-! ### Matches that remember nothing -/

/-- The same pattern is evaluated in two scopes, of which the second one serves its references.  The
grammars in it stand for themselves. -/
structure Rescopes (K : Copies) (scope scope' : Option Grammar) (p : Pattern) (f : Focus)
    (p' : Pattern) (f' : Focus) : Prop where
  pattern : p = p'
  served : p.ServedIn K.rel scope scope'
  foci : f.Colocated (fun s s' => s = scope ∧ s' = scope') f'

/-- Other grammars may stand for one another each time that nothing is in progress. -/
theorem outside (K J : Copies) {evaluations : Pattern → Focus → Pattern → Focus → Prop}
    {q q' : Question} (h : Question.Related J.Evaluates J.Applies q q') :
  (K.unison.lockstep o).Outside evaluations q q'
  := by
  have hcontinues : (J.unison.lockstep o).Continues (K.unison.lockstep o) :=
    ⟨fun _ _ => trivial, rfl, rfl, rfl, rfl⟩
  exact .continued hcontinues h

theorem Rescopes.plan_corresponds (h : K.Rescopes scope scope' p f p' f') :
  (p.plan f).Corresponds
    (Alongside.correspondence .identical
      ((K.unison.lockstep o).Outside (K.Rescopes scope scope')))
    (Outcome.Agrees .identical) (p'.plan f')
  := by
  obtain ⟨rfl, hserved, hfoci⟩ := h
  apply Pattern.plan_rescoped hfoci
  · exact fun q hq k k' hk => .evaluate ⟨rfl, hserved.part hq, hk⟩
  · rintro name rfl
    rw [hfoci.scope.1, hfoci.scope.2]
    apply (hserved name (Pattern.mem_references_ruleRef name)).imp
    intro g g' hg
    exact K.outside K (.apply ⟨hg, hfoci.anyScope⟩)
  · rintro g rfl
    apply (matchRoot_corresponds (K := identity) rfl hfoci.anyScope).imp
    · exact fun _ _ hq => K.outside identity hq
    · exact fun _ _ _ _ _ hr => hr

end Copies

/-! ### What is told of matches -/

/-- The same is told of two matches: the outcome or the fault, the number of steps, and the
trace. -/
structure Record.ToldAlike (r r' : Record) : Prop where
  outcome : r.outcome = r'.outcome
  steps : r.progress.steps = r'.progress.steps
  trace : ∀ subject pos,
    Trace.printed subject pos r.outcome r.progress
      = Trace.printed subject pos r'.outcome r'.progress

/-- Runs that are in unison from their start on are told alike. -/
theorem Copies.toldAlike_of_alike {K : Copies} {o : Options} {x y : Run Outcome}
    (h : (K.unison.lockstep o).Alike (Outcome.Agrees .identical) (x {}) (y {})) :
  x.record.ToldAlike y.record
  := by
  obtain ⟨hverdicts, hdone⟩ := h.record
  have houtcome := Verdict.agrees_identical_iff.1 (hverdicts.agrees rfl rfl)
  have hsteps : y.record.progress.steps = x.record.progress.steps := hdone.steps
  have hlines : lines x.record.progress.completions = lines y.record.progress.completions :=
    hdone.history
  simp only [lines] at hlines
  refine ⟨houtcome, hsteps.symm, ?_⟩
  intro subject pos
  simp only [Trace.printed, houtcome, hlines, hsteps]

/-- Two matchers are told alike: of any subject, from any position, however deeply evaluations may
nest, and so they give the same answers. -/
structure Matcher.ToldAlike (m m' : Matcher) : Prop where
  runs : ∀ nesting subject pos,
    (m.runWithin nesting subject pos).ToldAlike (m'.runWithin nesting subject pos)
  answers : ∀ subject start, m.answer subject start = m'.answer subject start

namespace Matcher

/-- Runs that are told alike lead to the same answers. -/
theorem ToldAlike.of_runs {m m' : Matcher} (hdebug : m.options.debug = m'.options.debug)
    (h : ∀ nesting subject pos,
      (m.runWithin nesting subject pos).ToldAlike (m'.runWithin nesting subject pos)) :
  m.ToldAlike m'
  := by
  use h
  intro subject start
  simp only [answer]
  cases startPosition subject start with
  | error e => simp only [traceTold, hdebug]
  | ok pos =>
    have hrun : (m.run subject pos).ToldAlike (m'.run subject pos) := h nestingLimit subject pos
    have htrace := hrun.trace subject pos
    rw [hrun.outcome] at htrace
    simp only [traceTold, stepsTold, hdebug, Trace.lines, htrace, hrun.outcome, hrun.steps]

/-- Matches with copies in the place of grammars are told alike. -/
theorem toldAlike_of_copied (K : Copies) (o : Options) {p p' : Pattern}
    {outer outer' : Option Grammar} (hpattern : p.Copied K.rel p')
    (hserved : p.ServedIn K.rel outer outer') :
  ToldAlike ⟨p, outer, o⟩ ⟨p', outer', o⟩
  := by
  refine ToldAlike.of_runs rfl fun nesting subject pos => ?_
  have hfoci : (Focus.start subject pos outer).Colocated (fun _ _ => True)
      (.start subject pos outer') := ⟨rfl, rfl, rfl, trivial⟩
  apply Copies.toldAlike_of_alike (K := K) (o := o)
  exact Lockstep.eval_alike nesting 0 ⟨hpattern, hserved, hfoci⟩ trivial (.start rfl) .start

/-- Matches that remember nothing are told alike with outer grammars of which one is a copy of the
other.  The grammars in the pattern may be any, and also those of which there are copies. -/
theorem toldAlike_of_served (K : Copies) {o : Options} (ho : o.memoize = false) {p : Pattern}
    {outer outer' : Option Grammar} (hserved : p.ServedIn K.rel outer outer') :
  ToldAlike ⟨p, outer, o⟩ ⟨p, outer', o⟩
  := by
  refine ToldAlike.of_runs rfl fun nesting subject pos => ?_
  have hfoci : (Focus.start subject pos outer).Colocated (fun s s' => s = outer ∧ s' = outer')
      (.start subject pos outer') := ⟨rfl, rfl, rfl, rfl, rfl⟩
  apply Copies.toldAlike_of_alike (K := K) (o := o)
  exact Lockstep.eval_alike_idle ho Copies.Rescopes.plan_corresponds nesting 0
    ⟨rfl, hserved, hfoci⟩ (.start rfl) ⟨rfl, rfl⟩

end Matcher

end Peg
