import Peg.Proofs.Memory
import Peg.Proofs.Scoping
import Peg.Proofs.Stations

/-!
# Every match ends

No two rule applications in progress have the same key, and only finitely many keys can be reached.
So a match without ceilings ends: evaluations nest at most as deeply as `Matcher.nestingBound` says.
The measure of an evaluation is the height of its pattern, and the height of a rule for each key
that is not yet in progress.  A match which remembers outcomes ends as well because it follows one
that does not.

A match ends with an outcome, or because of left recursion or an undefined rule.  The last does not
happen if all references to rules resolve.
-/

namespace Peg

variable {m : Matcher} {ss : List Station} {p : Pattern} {f : Focus} {q : Question}
variable {g : Grammar} {rule : String} {o : Options} {st : Progress} {subject : Value} {pos : Nat}

/-! ### What is reached -/

/-- A pattern and a focus that a match can come to which started at one of some stations. -/
structure Matcher.Reaches (m : Matcher) (ss : List Station) (p : Pattern) (f : Focus) : Prop where
  grammars : p.grammars ⊆ m.grammars
  scope : ∀ g, f.scope = some g → g ∈ m.grammars
  stations : Station.Covers ss f.stations

theorem Matcher.reaches_start (m : Matcher) (subject : Value) (pos : Nat) :
  m.Reaches (Focus.start subject pos m.outer).stations m.pattern (.start subject pos m.outer)
  := by
  constructor
  · apply List.subset_append_right
  · intro g hg
    apply List.mem_append_left
    have hg : m.outer = some g := hg
    apply List.mem_flatMap_of_mem _ g.mem_grammars_self
    simp [hg]
  · apply Station.covers_of_subset (List.Subset.refl _)

/-- The parts of a pattern are reached where they are evaluated, and so is the root of a grammar. -/
theorem Matcher.Reaches.evaluate {p' : Pattern} {f' : Focus} (h : m.Reaches ss p f)
    (hq : p.Asks f (.evaluate p' f')) :
  m.Reaches ss p' f' ∧ p'.height < p.height
  := by
  cases hq with
  | part hp hnear =>
    refine ⟨⟨?_, ?_, ?_⟩, Pattern.height_lt_of_part hp⟩
    · apply List.Subset.trans (Pattern.grammars_subset_of_part hp) h.grammars
    · rw [hnear.scope_eq]
      apply h.scope
    · apply h.stations.trans hnear.covers
  | @inline g _ hroot =>
    have hg : g ∈ m.grammars := h.grammars g.mem_grammars_self
    refine ⟨⟨?_, ?_, ?_⟩, ?_⟩
    · apply List.Subset.trans (Grammar.grammars_subset_of_root hroot) h.grammars
    · intro g' hg'
      cases hg'
      apply hg
    · apply h.stations
    · obtain ⟨ident, rules, root⟩ := g
      cases hroot
      simp [Pattern.height, Grammar.height, Root.height]

/-- A rule that is applied is one of a grammar that is reached. -/
theorem Matcher.Reaches.apply {f' : Focus} (h : m.Reaches ss p f)
    (hq : p.Asks f (.apply g rule f')) :
  f' = f ∧ g ∈ m.grammars
  := by
  cases hq with
  | rule _ => exact ⟨rfl, h.grammars g.mem_grammars_self⟩
  | ruleRef hscope => exact ⟨rfl, h.scope g hscope⟩

/-- The key of a rule application is one of those that the match can come to. -/
theorem Matcher.Reaches.exists_same_key {body : Pattern}
    (h : m.Reaches (Focus.start subject pos m.outer).stations p f) (hg : g ∈ m.grammars)
    (hbody : g.rule? rule = some body) :
  ∃ k ∈ m.keys subject pos, (f.key g rule).same k = true
  := by
  have hhere : (f.place, f.pos) ∈ f.stations :=
    List.mem_append_left _ (Focus.mem_standing.2 ⟨rfl, f.ahead_self⟩)
  obtain ⟨s, hs, hplace, hpos⟩ := h.stations _ hhere
  use ⟨g, rule, s.1, s.2⟩
  constructor
  · apply List.mem_flatMap_of_mem hg
    apply List.mem_flatMap_of_mem (Grammar.mem_rules_of_rule? hbody)
    apply List.mem_map_of_mem hs
  · apply Key.same_iff.2
    use rfl, rfl, hplace, hpos

/-- The body of a rule that is applied is reached. -/
theorem Matcher.Reaches.body {body : Pattern} (h : m.Reaches ss p f) (hg : g ∈ m.grammars)
    (hbody : g.rule? rule = some body) :
  m.Reaches ss body (f.inScope g)
  := by
  constructor
  · have hmem := Grammar.mem_rules_of_rule? hbody
    apply List.Subset.trans (Grammar.grammars_subset_of_rule hmem) (m.grammars_closed g hg)
  · intro g' hg'
    cases hg'
    apply hg
  · apply h.stations

/-! ### Runs that remember nothing -/

/-- The rule applications in progress are different, and have keys that are given. -/
structure Progress.Within (st : Progress) (ks : List Key) : Prop where
  different : st.active.Pairwise fun k l => k.same l = false
  given : ∀ k ∈ st.active, ∃ l ∈ ks, k.same l = true

theorem Progress.Within.begin {ks : List Key} {key : Key} (h : st.Within ks)
    (hactive : st.isActive key = false) (hkey : ∃ l ∈ ks, key.same l = true) :
  (st.begin key).Within ks
  := by
  constructor
  · apply List.Pairwise.cons _ h.different
    intro k hk
    rw [Bool.eq_false_iff]
    intro hsame
    rw [isActive, List.any_eq_false] at hactive
    apply hactive k hk (Key.same_symm hsame)
  · intro k hk
    rcases List.mem_cons.1 hk with rfl | hk
    · apply hkey
    · apply h.given k hk

/-- A result as it should be: an outcome that is acceptable at a focus, or a fault which is not that
of a ceiling. -/
def Run.EndsAt (f : Focus) (active : List Key) :
    EStateM.Result Fault Progress Outcome → Prop :=
  Run.Ends (fun r st => f.Accepts r ∧ st.active = active) fun e _ => e.isCeiling = false

/-- How deeply the evaluation of a pattern may nest: as deeply as the pattern is high, and the
rules that can still be applied. -/
def Matcher.depthLeft (m : Matcher) (subject : Value) (pos : Nat) (p : Pattern)
    (active : List Key) : Nat :=
  p.height + m.height * ((Key.distinct (m.keys subject pos)).length - active.length)

/-- The body of a rule nests less deeply than what applied the rule. -/
theorem Matcher.depthLeft_begin {body : Pattern} {key : Key}
    (hst : (st.begin key).Within (m.keys subject pos)) (hbody : body.height ≤ m.height)
    (p : Pattern) :
  m.depthLeft subject pos body (st.begin key).active < m.depthLeft subject pos p st.active
  := by
  have hlength : (key :: st.active).length ≤ (Key.distinct (m.keys subject pos)).length :=
    Key.length_le_distinct hst.different hst.given
  have hpos := p.height_pos
  obtain ⟨k, hk⟩ := Nat.exists_eq_add_of_le hlength
  simp only [depthLeft, Progress.begin, hk, List.length_cons]
  rw [Nat.add_sub_cancel_left, Nat.add_assoc, Nat.add_sub_cancel_left, Nat.add_comm 1 k,
    Nat.mul_succ]
  omega

/-- The application of a rule ends when the evaluation of its body does. -/
theorem applyRule_ends {ev : Evaluator} (hmemo : o.memoize = false)
    (hev : ∀ body, g.rule? rule = some body → st.isActive (f.key g rule) = false →
      Run.EndsAt (f.inScope g) (st.begin (f.key g rule)).active
        (ev body (f.inScope g) (st.begin (f.key g rule)))) :
  Run.EndsAt f st.active (applyRule o ev g rule f st)
  := by
  have hnone := recalled?_of_not_memoize hmemo st (f.key g rule)
  have happ := applyRule_application o ev g rule f st
  generalize applyRule o ev g rule f st = x at happ ⊢
  cases happ with
  | recalled hr =>
    rw [hnone] at hr
    cases hr
  | active _ _ => rfl
  | undefined _ _ _ => rfl
  | @body body _ hactive hbody =>
    have hrun := hev body hbody hactive
    cases hb : ev body (f.inScope g) (st.begin (f.key g rule)) with
    | error e st' =>
      rw [hb] at hrun
      rw [evalBody_error hb]
      apply hrun
    | ok r st' =>
      rw [hb] at hrun
      rw [evalBody_ok hb]
      use hrun.1
      simp only [Progress.complete]
      rw [hrun.2]
      apply Progress.withdraw_cons_self

/-- A run ends with an acceptable outcome or a fault which is not that of a ceiling, when it may
nest deeply enough for its pattern, and for all rules that can still be applied. -/
theorem Pattern.eval_ends (hmemo : o.memoize = false) (hsteps : o.maxSteps = none)
    (hdepth : o.maxDepth = none) {n depth : Nat}
    (hp : m.Reaches (Focus.start subject pos m.outer).stations p f)
    (hst : st.Within (m.keys subject pos)) (hn : m.depthLeft subject pos p st.active ≤ n) :
  Run.EndsAt f st.active (eval o n depth p f st)
  := by
  induction n generalizing depth p f st with
  | zero =>
    have hpos := p.height_pos
    simp only [Matcher.depthLeft] at hn
    omega
  | succ n ih =>
    rw [eval_succ, brokenCeiling?_of_no_ceilings hsteps hdepth]
    have henter : (st.enter f depth).active = st.active := rfl
    apply (p.plan_keeps f).run (I := fun st' => st'.active = st.active) henter
    · intro q st' hq hst'
      have hwithin : st'.Within (m.keys subject pos) := by
        constructor <;> rw [hst']
        · apply hst.different
        · apply hst.given
      rw [← hst'] at hn ⊢
      cases q with
      | evaluate p' f' =>
        obtain ⟨hp', hlt⟩ := hp.evaluate hq
        apply ih hp' hwithin
        simp only [Matcher.depthLeft] at hn ⊢
        omega
      | apply g rule f' =>
        obtain ⟨rfl, hg⟩ := hp.apply hq
        apply applyRule_ends hmemo
        intro body hbody hactive
        have hbegin := hwithin.begin hactive (hp.exists_same_key hg hbody)
        apply ih (hp.body hg hbody) hbegin
        have hheight : body.height ≤ m.height :=
          m.height_le_rule hg (Grammar.mem_rules_of_rule? hbody)
        have hless := m.depthLeft_begin hbegin hheight p
        omega
    · rintro e st' ⟨name, -, -, rfl⟩ -
      rfl

/-! ### Matches -/

/-- How many evaluations nest at most in a match: the height of the match for each key that it can
come to, and once more. -/
def Matcher.nestingBound (m : Matcher) (subject : Value) (pos : Nat) : Nat :=
  ((Key.distinct (m.keys subject pos)).length + 1) * m.height

theorem Matcher.depthLeft_start (m : Matcher) (subject : Value) (pos : Nat) :
  m.depthLeft subject pos m.pattern [] ≤ m.nestingBound subject pos
  := by
  have hheight := m.height_le_pattern
  simp only [depthLeft, nestingBound, List.length_nil, Nat.sub_zero, Nat.succ_mul, Nat.mul_comm]
  omega

/-- A verdict that is not the fault of a ceiling. -/
def Verdict.Ended (v : Except Fault Outcome) : Prop :=
  ∀ e, v = .error e → e.isCeiling = false

/-- A verdict is an outcome or left recursion. -/
def Verdict.Final (v : Except Fault Outcome) : Prop :=
  (∃ r, v = .ok r) ∨ ∃ rule pos, v = .error (.leftRecursion rule pos)

theorem Verdict.Agrees.ended {c : Comparison} {v w : Except Fault Outcome}
    (h : Verdict.Agrees c v w) (hv : Verdict.Ended v) :
  Verdict.Ended w
  := by
  cases h with
  | ok _ =>
    intro e he
    cases he
  | error e => apply hv

theorem Verdict.Final.ended {v : Except Fault Outcome} (h : Verdict.Final v) :
  Verdict.Ended v
  := by
  rintro e rfl
  rcases h with ⟨r, hr⟩ | ⟨rule, pos, hrule⟩
  · cases hr
  · cases hrule
    rfl

theorem Run.EndsAt.ended {x : Run Outcome} {active : List Key} (h : Run.EndsAt f active (x {})) :
  Verdict.Ended x.record.outcome
  := by
  intro e he
  obtain ⟨st, hst⟩ := Run.record_outcome_eq_error_iff.1 he
  rw [hst] at h
  apply h

namespace Matcher

/-- A match that remembers nothing ends when it may nest as deeply as it has to. -/
theorem memoizing_false_ended (hsteps : m.options.maxSteps = none)
    (hdepth : m.options.maxDepth = none) (subject : Value) (pos : Nat) :
  Verdict.Ended
    ((m.memoizing false).runWithin (m.nestingBound subject pos) subject pos).outcome
  := by
  have hend : Run.EndsAt (.start subject pos m.outer) ({} : Progress).active
      (m.pattern.eval (m.memoizing false).options (m.nestingBound subject pos) 0
        (.start subject pos m.outer) {}) := by
    apply Pattern.eval_ends (o := (m.memoizing false).options) rfl hsteps hdepth
      (m.reaches_start subject pos)
    · constructor
      · apply List.Pairwise.nil
      · simp
    · apply depthLeft_start
  apply hend.ended

/-- A match agrees with the one that remembers nothing when that one ends, in any comparison that
tells the places of the subject apart. -/
theorem agrees_memoizing_false_of_tells {c : Comparison} (htop : subject.Tells c) {n : Nat}
    (h : Verdict.Ended ((m.memoizing false).runWithin n subject pos).outcome) :
  Verdict.Agrees c ((m.memoizing false).runWithin n subject pos).outcome
    (m.runWithin n subject pos).outcome
  := by
  obtain ⟨p, outer, maxDepth, maxSteps, memoize, debug⟩ := m
  cases memoize with
  | false => apply Verdict.Agrees.refl
  | true => apply (memoizing_agrees htop _ _ pos h).1

/-- A match agrees with the one that remembers nothing when that one ends. -/
theorem agrees_memoizing_false {n : Nat}
    (h : Verdict.Ended ((m.memoizing false).runWithin n subject pos).outcome) :
  Verdict.Agrees .alike ((m.memoizing false).runWithin n subject pos).outcome
    (m.runWithin n subject pos).outcome
  := agrees_memoizing_false_of_tells subject.tells_alike h

/-- Matches agree when they come to the same without remembering outcomes. -/
theorem agrees_of_memoizing_false {m m' : Matcher} {c : Comparison} {n : Nat}
    (htop : subject.Tells c)
    (hended : Verdict.Ended ((m.memoizing false).runWithin n subject pos).outcome)
    (heq : ((m'.memoizing false).runWithin n subject pos).outcome
      = ((m.memoizing false).runWithin n subject pos).outcome) :
  Verdict.Agrees c (m.runWithin n subject pos).outcome (m'.runWithin n subject pos).outcome
  := by
  have h := agrees_memoizing_false_of_tells htop hended
  rw [← heq] at h hended
  apply h.symm.trans (agrees_memoizing_false_of_tells htop hended)

/-- A match ends when it may nest as deeply as it has to. -/
theorem runWithin_nestingBound_ended (hsteps : m.options.maxSteps = none)
    (hdepth : m.options.maxDepth = none) (subject : Value) (pos : Nat) :
  Verdict.Ended (m.runWithin (m.nestingBound subject pos) subject pos).outcome
  := by
  have hplain := memoizing_false_ended hsteps hdepth subject pos
  apply (agrees_memoizing_false hplain).ended hplain

/-- A match that ends is the same when it may nest more deeply. -/
theorem runWithin_eq_of_ended {n k : Nat} (h : Verdict.Ended (m.runWithin n subject pos).outcome)
    (hnk : n ≤ k) :
  m.runWithin k subject pos = m.runWithin n subject pos
  := by
  have hdeeper : Run.Deeper (m.pattern.eval m.options n 0 (.start subject pos m.outer))
      (m.pattern.eval m.options k 0 (.start subject pos m.outer)) :=
    Pattern.eval_deeper hnk 0 m.pattern _
  simp only [runWithin, Run.record] at h ⊢
  rw [hdeeper {}]
  intro st hst
  rw [hst] at h
  cases h _ rfl

/-- Every match without ceilings ends, with an outcome or because of left recursion or an undefined
rule. -/
theorem runWithin_ended (hsteps : m.options.maxSteps = none) (hdepth : m.options.maxDepth = none)
    {n : Nat} (hn : m.nestingBound subject pos ≤ n) :
  Verdict.Ended (m.runWithin n subject pos).outcome
  := by
  have hended := runWithin_nestingBound_ended hsteps hdepth subject pos
  rw [runWithin_eq_of_ended hended hn]
  apply hended

/-! ### Matches whose references resolve -/

/-- No rule is undefined where all references resolve. -/
theorem final_of_ended (hm : m.Resolves) {n : Nat}
    (h : Verdict.Ended (m.runWithin n subject pos).outcome) :
  Verdict.Final (m.runWithin n subject pos).outcome
  := by
  cases hv : (m.runWithin n subject pos).outcome with
  | ok r => exact .inl ⟨r, rfl⟩
  | error e =>
    have he := h e hv
    cases e with
    | leftRecursion rule i => exact .inr ⟨rule, i, rfl⟩
    | undefinedRule name site =>
      obtain ⟨hname, hmissing⟩ := open_of_undefinedRule hm.grammars hv
      obtain ⟨g, hg, hrule⟩ := hm.pattern name hname
      rw [hmissing g hg] at hrule
      cases hrule
    | _ => cases he

theorem memoizing_false_final (hm : m.Resolves) (hsteps : m.options.maxSteps = none)
    (hdepth : m.options.maxDepth = none) (subject : Value) (pos : Nat) :
  Verdict.Final
    ((m.memoizing false).runWithin (m.nestingBound subject pos) subject pos).outcome
  := final_of_ended (m := m.memoizing false) ⟨hm.pattern, hm.grammars⟩
    (memoizing_false_ended hsteps hdepth subject pos)

/-- A match ends when it may nest as deeply as it has to, with the verdict of the match that
remembers nothing. -/
theorem runWithin_nestingBound (hm : m.Resolves) (hsteps : m.options.maxSteps = none)
    (hdepth : m.options.maxDepth = none) (subject : Value) (pos : Nat) :
  Verdict.Final (m.runWithin (m.nestingBound subject pos) subject pos).outcome
    ∧ Verdict.Agrees .alike
      ((m.memoizing false).runWithin (m.nestingBound subject pos) subject pos).outcome
      (m.runWithin (m.nestingBound subject pos) subject pos).outcome
  := by
  use final_of_ended hm (runWithin_nestingBound_ended hsteps hdepth subject pos)
  apply agrees_memoizing_false (memoizing_false_ended hsteps hdepth subject pos)

theorem runWithin_deeper {n k : Nat} (hnk : n ≤ k)
    (h : Verdict.Final (m.runWithin n subject pos).outcome) :
  m.runWithin k subject pos = m.runWithin n subject pos
  := runWithin_eq_of_ended h.ended hnk

/-- Evaluations nest at most as deeply as they may. -/
theorem depth_lt_of_mem_visits {n : Nat} {v : Visit}
    (hv : v ∈ (m.runWithin n subject pos).progress.visits) :
  v.depth < n
  := by
  have hextends : ({} : Progress).Extends 0 (0 + n) (m.runWithin n subject pos).progress :=
    (m.pattern.eval_extends m.options n 0 (.start subject pos m.outer) {}).record
  obtain ⟨vs, hvs, -, hdepth⟩ := hextends.visits
  rw [hvs] at hv
  obtain ⟨-, hlt⟩ := hdepth v hv
  omega

/-- Every match ends.  If its references resolve and it has no ceilings, then it comes to an outcome
or is stopped because of left recursion as soon as it may nest deeply enough, and then it nests no
more deeply.  It is left recursion exactly if evaluation without the guard has no outcome. -/
theorem ends_within_nestingBound (m : Matcher) (hm : m.Resolves)
    (hsteps : m.options.maxSteps = none) (hdepth : m.options.maxDepth = none) (subject : Value)
    (pos n : Nat) (hn : m.nestingBound subject pos ≤ n) :
  ((∃ r, (m.runWithin n subject pos).outcome = .ok r)
      ∨ ∃ rule i, (m.runWithin n subject pos).outcome = .error (.leftRecursion rule i))
    ∧ (∀ v ∈ (m.runWithin n subject pos).progress.visits, v.depth < m.nestingBound subject pos)
    ∧ ((∃ rule i, (m.runWithin n subject pos).outcome = .error (.leftRecursion rule i))
      ↔ ∀ k r, m.pattern.unguarded k (.start subject pos m.outer) ≠ .ok r)
  := by
  obtain ⟨hfinal, hagrees⟩ := runWithin_nestingBound hm hsteps hdepth subject pos
  have hplain := memoizing_false_final hm hsteps hdepth subject pos
  rw [runWithin_deeper hn hfinal]
  refine ⟨hfinal, fun v hv => depth_lt_of_mem_visits hv, ?_⟩
  constructor
  · rintro ⟨rule, i, herror⟩ k r hr
    have hle := Nat.le_max_left (m.nestingBound subject pos) k
    have hok := outcome_eq_ok_of_unguarded (m := m.memoizing false) rfl hsteps hdepth
      (Nat.le_max_right (m.nestingBound subject pos) k) hr
    rw [runWithin_deeper hle hplain] at hok
    rw [hok, herror] at hagrees
    cases hagrees
  · intro hno
    rcases hfinal with ⟨r, hr⟩ | hrecursion
    · rw [hr] at hagrees
      generalize hx : ((m.memoizing false).runWithin (m.nestingBound subject pos) subject
        pos).outcome = x at hagrees
      cases hagrees
      cases hno _ _ (unguarded_of_outcome_eq_ok (m := m.memoizing false) rfl hx)
    · apply hrecursion

end Matcher

/-- The sums of ones, in a grammar where a sum starts with a sum. -/
def leftRecursiveSum : Matcher where
  pattern := .ruleRef "sum"
  outer := some
    ⟨0, [("sum", .choice (.sequence (.ruleRef "sum") (.literal "+1")) (.literal "1"))],
      .rule "sum"⟩
  options := { memoize := true }

theorem leftRecursiveSum_resolves :
  leftRecursiveSum.Resolves
  := by
  constructor
  · simp [leftRecursiveSum, Pattern.ResolvesIn, Pattern.references, Pattern.referencesIn,
      Grammar.rule?]
  · intro g hg
    have hg : g = leftRecursiveSum.outer.get rfl := by
      simpa [Matcher.grammars, leftRecursiveSum, Grammar.grammars, Pattern.grammars, Root.grammars,
        Grammar.grammarsOfRules] using hg
    subst hg
    constructor
    · simp [leftRecursiveSum, Grammar.rule?]
    · simp [leftRecursiveSum]
    · simp [leftRecursiveSum, Pattern.ResolvesIn, Pattern.references, Pattern.referencesIn,
        Pattern.parts, Grammar.rule?]

/-- The match of a sum is stopped, and no nesting would be deep enough for it. -/
theorem Matcher.ends_within_nestingBound_leftRecursiveSum :
  leftRecursiveSum.nestingBound (.text "1+1") 0 = 15
    ∧ (leftRecursiveSum.runWithin 15 (.text "1+1") 0).outcome = .error (.leftRecursion "sum" 0)
    ∧ ∀ k r, leftRecursiveSum.pattern.unguarded k
      (.start (.text "1+1") 0 leftRecursiveSum.outer) ≠ .ok r
  := by
  have hbound : leftRecursiveSum.nestingBound (.text "1+1") 0 = 15 := by decide
  have hends := leftRecursiveSum.ends_within_nestingBound leftRecursiveSum_resolves rfl rfl
    (.text "1+1") 0 15 (Nat.le_of_eq hbound)
  use hbound, rfl, hends.2.2.1 ⟨"sum", 0, rfl⟩

end Peg
