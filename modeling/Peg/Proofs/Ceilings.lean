import Peg.Proofs.Running

/-!
# Ceilings cut a run

A run under ceilings goes the way of the run without them until an evaluation breaks a ceiling, and
stops there.  `Run.Cut` says so of the results of two computations.  It is kept by sequencing
because a run that is not cut is the same run, with the same progress.

`Matcher.ceilings_cut` is what follows for matches.
-/

namespace Peg

/-! ### The first break -/

/-- The fault of the first evaluation among some that breaks a ceiling, and its number.  The number
of evaluations before is given. -/
def firstBreak? (o : Options) : Nat → List Visit → Option (Fault × Nat)
  | _, [] => none
  | steps, v :: vs =>
    match Pattern.brokenCeiling? o (steps + 1) v.depth with
    | some e => some (e, steps + 1)
    | none => firstBreak? o (steps + 1) vs

theorem firstBreak?_append (o : Options) (steps : Nat) (vs ws : List Visit) :
  firstBreak? o steps (vs ++ ws)
    = (firstBreak? o steps vs).or (firstBreak? o (steps + vs.length) ws)
  := by
  induction vs generalizing steps with
  | nil => rfl
  | cons v vs ih =>
    simp only [List.cons_append, firstBreak?]
    cases Pattern.brokenCeiling? o (steps + 1) v.depth with
    | some e => rfl
    | none =>
      dsimp only
      rw [ih, List.length_cons, Nat.add_assoc, Nat.add_comm 1]

theorem firstBreak?_eq_none_iff {o : Options} {steps : Nat} {vs : List Visit} :
  firstBreak? o steps vs = none
    ↔ ∀ i v, vs[i]? = some v → Pattern.brokenCeiling? o (steps + i + 1) v.depth = none
  := by
  induction vs generalizing steps with
  | nil => simp [firstBreak?]
  | cons v vs ih =>
    simp only [firstBreak?]
    constructor
    · intro h i w hw
      split at h
      · cases h
      · next hv =>
        cases i with
        | zero =>
          cases hw
          apply hv
        | succ i =>
          rw [← Nat.add_assoc, Nat.add_right_comm steps i 1]
          apply ih.1 h i w hw
    · intro h
      rw [h 0 v rfl]
      apply ih.2
      intro i w hw
      rw [Nat.add_right_comm steps 1 i, Nat.add_assoc steps i 1]
      apply h (i + 1) w hw

/-- The first break is at an evaluation which breaks a ceiling while none before it does. -/
theorem firstBreak?_eq_some {o : Options} {steps k : Nat} {vs : List Visit} {e : Fault}
    (h : firstBreak? o steps vs = some (e, k)) :
  ∃ i v, vs[i]? = some v ∧ k = steps + i + 1 ∧ Pattern.brokenCeiling? o k v.depth = some e
    ∧ ∀ j < i, ∀ w, vs[j]? = some w → Pattern.brokenCeiling? o (steps + j + 1) w.depth = none
  := by
  induction vs generalizing steps with
  | nil => cases h
  | cons v vs ih =>
    simp only [firstBreak?] at h
    split at h
    · next e' hv =>
      cases h
      use 0, v, rfl, rfl, hv
      intro j hj
      omega
    · next hv =>
      obtain ⟨i, w, hw, rfl, he, hbefore⟩ := ih h
      use i + 1, w, hw, by omega, he
      intro j hj u hu
      cases j with
      | zero =>
        cases hu
        apply hv
      | succ j =>
        rw [← Nat.add_assoc, Nat.add_right_comm steps j 1]
        apply hbefore j (by omega) u hu

/-! ### Cuts -/

/-- A result `x` is the cut of the result `y` at the first evaluation that breaks a ceiling, when
both are reached from the same progress. -/
def Run.Cut {α : Type} (o : Options) (st : Progress) (x y : EStateM.Result Fault Progress α) :
    Prop :=
  ∃ vs, (Run.finish y).visits = st.visits ++ vs ∧ (Run.finish y).steps = st.steps + vs.length
    ∧ match firstBreak? o st.steps vs with
      | none => x = y
      | some (e, i) => ∃ st', x = .error e st' ∧ st'.steps = i

/-- A result that is reached without entering an evaluation is its own cut. -/
theorem Run.cut_self {α : Type} {o : Options} {st : Progress}
    {x : EStateM.Result Fault Progress α} (hvisits : (Run.finish x).visits = st.visits)
    (hsteps : (Run.finish x).steps = st.steps) :
  Run.Cut o st x x
  := by
  use []
  rw [hvisits, hsteps]
  simp [firstBreak?]

/-- Being the cut of another computation, from any progress on, is kept by results, faults and
sequencing. -/
def cuts (o : Options) : Congruence Run Run where
  rel x y := ∀ st, Run.Cut o st (x st) (y st)
  pure a st := Run.cut_self rfl rfl
  throw e st := Run.cut_self rfl rfl
  bind {α β x y k l} hx hk st := by
    obtain ⟨vs, hvisits, hsteps, hcut⟩ := hx st
    simp only [Bind.bind, EStateM.bind]
    cases hy : y st with
    | error e st' =>
      rw [hy] at hvisits hsteps hcut
      use vs, hvisits, hsteps
      split at hcut
      · rw [hcut]
      · obtain ⟨st'', hx, hst''⟩ := hcut
        rw [hx]
        use st''
    | ok a st' =>
      rw [hy] at hvisits hsteps hcut
      obtain ⟨ws, hvisits', hsteps', hcut'⟩ := hk a st'
      simp only [Run.finish] at hvisits hsteps
      use vs ++ ws
      refine ⟨?_, ?_, ?_⟩
      · rw [hvisits', hvisits, List.append_assoc]
      · rw [hsteps', hsteps, List.length_append, Nat.add_assoc]
      · rw [firstBreak?_append, ← hsteps]
        cases hb : firstBreak? o st.steps vs with
        | none =>
          rw [hb] at hcut
          rw [hcut]
          apply hcut'
        | some b =>
          rw [hb] at hcut
          obtain ⟨st'', hx, hst''⟩ := hcut
          rw [hx]
          use st''

/-! ### Runs under ceilings -/

/-- The same options with given ceilings on steps and depth. -/
def Options.under (o : Options) (maxSteps maxDepth : Option Nat) : Options :=
  { o with maxSteps := maxSteps, maxDepth := maxDepth }

section Runs

variable {o : Options} {ev ev' : Evaluator} {st : Progress}

/-- The body of a rule is cut like its evaluation. -/
theorem evalBody_cut {key : Key} {body : Pattern} {f : Focus}
    (h : Run.Cut o (st.begin key) (ev body f (st.begin key)) (ev' body f (st.begin key))) :
  Run.Cut o st (evalBody o ev key body f st) (evalBody (o.under none none) ev' key body f st)
  := by
  obtain ⟨vs, hvisits, hsteps, hcut⟩ := h
  obtain ⟨hvisits', hsteps'⟩ := evalBody_finish (o.under none none) ev' key body f st
  rw [Progress.visits_begin] at hvisits
  have hst : (st.begin key).steps = st.steps := rfl
  rw [hst] at hsteps hcut
  use vs, hvisits'.trans hvisits, hsteps'.trans hsteps
  split at hcut
  · rw [evalBody]
    rw [hcut]
    rfl
  · obtain ⟨st', hx, hst'⟩ := hcut
    use st'.abandon key, evalBody_error hx
    apply hst'

theorem applyRule_cut (hev : ∀ p f st, Run.Cut o st (ev p f st) (ev' p f st)) (g : Grammar)
    (rule : String) (f : Focus) (st : Progress) :
  Run.Cut o st (applyRule o ev g rule f st) (applyRule (o.under none none) ev' g rule f st)
  := by
  have happ := applyRule_application o ev g rule f st
  generalize applyRule o ev g rule f st = x at happ ⊢
  cases happ with
  | recalled hr =>
    have hy : applyRule (o.under none none) ev' g rule f st = _ := applyRule_recalled hr
    rw [hy]
    apply Run.cut_self rfl rfl
  | active hr hactive =>
    have hy : applyRule (o.under none none) ev' g rule f st = _ := applyRule_active hr hactive
    rw [hy]
    apply Run.cut_self rfl rfl
  | undefined hr hactive hrule =>
    have hy : applyRule (o.under none none) ev' g rule f st = _ :=
      applyRule_undefined hr hactive hrule
    rw [hy]
    apply Run.cut_self rfl rfl
  | body hr hactive hrule =>
    have hy : applyRule (o.under none none) ev' g rule f st = _ :=
      applyRule_body hr hactive hrule
    rw [hy]
    apply evalBody_cut
    apply hev

/-- A run under ceilings is the cut of the run without them. -/
theorem Pattern.eval_cut (o : Options) (n depth : Nat) (p : Pattern) (f : Focus)
    (st : Progress) :
  Run.Cut o st (eval o n depth p f st) (eval (o.under none none) n depth p f st)
  := by
  induction n generalizing depth p f st with
  | zero => apply Run.cut_self rfl rfl
  | succ n ih =>
    have hanswer : ∀ q, (cuts o).rel (Question.answer o (eval o n (depth + 1)) q)
        (Question.answer (o.under none none) (eval (o.under none none) n (depth + 1)) q) := by
      intro q
      cases q with
      | evaluate p f => apply ih
      | apply g rule f => apply applyRule_cut fun p f st => ih (depth + 1) p f st
    obtain ⟨vs, hvisits, hsteps, hcut⟩ := (cuts o).run (p.plan f) hanswer (st.enter f depth)
    have hfree : brokenCeiling? (o.under none none) (st.steps + 1) depth = none := rfl
    rw [eval_succ, eval_succ, hfree]
    use ⟨f, depth, st.active⟩ :: vs
    refine ⟨?_, ?_, ?_⟩
    · rw [hvisits, Progress.visits_enter, List.append_assoc]
      rfl
    · rw [hsteps]
      simp [Progress.enter, Nat.add_assoc, Nat.add_comm 1]
    · simp only [firstBreak?]
      cases hb : brokenCeiling? o (st.steps + 1) depth with
      | some e => exact ⟨_, rfl, rfl⟩
      | none => apply hcut

end Runs

/-! ### Matches -/

/-- The fault with which an evaluation breaks a ceiling that is the `i`-th one and is entered at a
depth: the ceiling on steps comes first. -/
inductive Breaks (maxSteps maxDepth : Option Nat) (i depth : Nat) : Fault → Prop where
  | steps {a : Nat} :
    maxSteps = some a → a < i → Breaks maxSteps maxDepth i depth (.stepsExceeded a)
  | depth {b : Nat} :
    (∀ a, maxSteps = some a → i ≤ a) → maxDepth = some b → b ≤ depth →
      Breaks maxSteps maxDepth i depth (.depthExceeded b)

theorem Breaks.isCeiling {maxSteps maxDepth : Option Nat} {i depth : Nat} {e : Fault}
    (h : Breaks maxSteps maxDepth i depth e) :
  e.isCeiling = true
  := by
  cases h <;> rfl

theorem breaks_iff {o : Options} {maxSteps maxDepth : Option Nat} {i depth : Nat} {e : Fault} :
  Breaks maxSteps maxDepth i depth e
    ↔ Pattern.brokenCeiling? (o.under maxSteps maxDepth) i depth = some e
  := by
  constructor
  · intro h
    cases h with
    | @steps a ha hi =>
      have hsteps : maxSteps.filter (· < i) = some a :=
        Option.filter_eq_some_iff.2 ⟨ha, by simpa using hi⟩
      simp [Pattern.brokenCeiling?, Options.under, hsteps]
    | @depth b ha hb hd =>
      have hdepth : maxDepth.filter (· ≤ depth) = some b :=
        Option.filter_eq_some_iff.2 ⟨hb, by simpa using hd⟩
      have hsteps : maxSteps.filter (· < i) = none := by
        apply Option.filter_eq_none_iff.2
        intro a hm
        simpa using ha a hm
      simp [Pattern.brokenCeiling?, Options.under, hsteps, hdepth]
  · intro h
    simp only [Pattern.brokenCeiling?, Options.under] at h
    split at h
    · next a _ ha =>
      cases h
      obtain ⟨ha, hi⟩ := Option.filter_eq_some_iff.1 ha
      exact .steps ha (by simpa using hi)
    · next b hnone hb =>
      cases h
      obtain ⟨hb, hd⟩ := Option.filter_eq_some_iff.1 hb
      refine .depth ?_ hb (by simpa using hd)
      intro a ha
      simpa using Option.filter_eq_none_iff.1 hnone a ha
    · cases h

/-- No evaluation of a match breaks a ceiling. -/
def Record.Within (maxSteps maxDepth : Option Nat) (r : Record) : Prop :=
  (∀ a, maxSteps = some a → r.progress.steps ≤ a)
    ∧ ∀ b, maxDepth = some b → ∀ v ∈ r.progress.visits, v.depth < b

/-- What the match `cut` under ceilings comes to, compared with the match `free` without them: the
same, if no evaluation of `free` breaks a ceiling; else it ends at the first one that does, with its
fault.  The `i`-th evaluation is at index `i - 1` of the visits. -/
structure Record.CutBy (maxSteps maxDepth : Option Nat) (free cut : Record) : Prop where
  counted : free.progress.steps = free.progress.visits.length
  same : free.Within maxSteps maxDepth →
    cut.outcome = free.outcome ∧ cut.progress.steps = free.progress.steps
  broken : ¬ free.Within maxSteps maxDepth →
    ∃ i v e, free.progress.visits[i]? = some v ∧ Breaks maxSteps maxDepth (i + 1) v.depth e
      ∧ (∀ j < i, ∀ w, free.progress.visits[j]? = some w →
        ∀ e', ¬ Breaks maxSteps maxDepth (j + 1) w.depth e')
      ∧ cut.outcome = .error e ∧ cut.progress.steps = i + 1
      ∧ ∀ a, e = .stepsExceeded a → cut.progress.steps = a + 1

/-- The same match under given ceilings on steps and depth. -/
def Matcher.under (m : Matcher) (maxSteps maxDepth : Option Nat) : Matcher :=
  { m with options := m.options.under maxSteps maxDepth }

theorem Record.within_iff {maxSteps maxDepth : Option Nat} {r : Record}
    (h : r.progress.steps = r.progress.visits.length) :
  r.Within maxSteps maxDepth
    ↔ ∀ i v e, r.progress.visits[i]? = some v → ¬ Breaks maxSteps maxDepth (i + 1) v.depth e
  := by
  constructor
  · rintro ⟨ha, hb⟩ i v e hv he
    cases he with
    | steps hsteps hi =>
      have hle := ha _ hsteps
      have hlt := (List.getElem?_eq_some_iff.1 hv).1
      omega
    | depth _ hdepth hd =>
      have hlt := hb _ hdepth v (List.mem_of_getElem? hv)
      omega
  · intro hno
    have hsteps : ∀ a, maxSteps = some a → r.progress.steps ≤ a := by
      intro a ha
      by_contra hlt
      have hi : a < r.progress.visits.length := by omega
      apply hno a _ (.stepsExceeded a) (List.getElem?_eq_getElem hi)
      exact .steps ha (Nat.lt_succ_self a)
    use hsteps
    intro b hb v hv
    by_contra hd
    obtain ⟨i, hi⟩ := List.mem_iff_getElem?.1 hv
    apply hno i v (.depthExceeded b) hi
    refine .depth ?_ hb (by omega)
    intro a ha
    have hle := hsteps a ha
    have hlt := (List.getElem?_eq_some_iff.1 hi).1
    omega

/-- The first evaluation that breaks a ceiling, as `Breaks` says it. -/
theorem firstBreak?_breaks {o : Options} {maxSteps maxDepth : Option Nat} {k : Nat}
    {vs : List Visit} {e : Fault}
    (h : firstBreak? (o.under maxSteps maxDepth) 0 vs = some (e, k)) :
  ∃ i v, vs[i]? = some v ∧ k = i + 1 ∧ Breaks maxSteps maxDepth (i + 1) v.depth e
    ∧ ∀ j < i, ∀ w, vs[j]? = some w → ∀ e', ¬ Breaks maxSteps maxDepth (j + 1) w.depth e'
  := by
  obtain ⟨i, v, hv, rfl, he, hbefore⟩ := firstBreak?_eq_some h
  rw [Nat.zero_add] at he ⊢
  use i, v, hv, rfl, breaks_iff.2 he
  intro j hj w hw e' he'
  have hnone := hbefore j hj w hw
  rw [Nat.zero_add, breaks_iff.1 he'] at hnone
  cases hnone

/-- The ceiling on steps is broken first by the evaluation after as many as it allows. -/
theorem Breaks.eq_of_first {maxSteps maxDepth : Option Nat} {i a : Nat} {vs : List Visit}
    {v : Visit} (h : Breaks maxSteps maxDepth (i + 1) v.depth (.stepsExceeded a))
    (hv : vs[i]? = some v)
    (hfirst : ∀ j < i, ∀ w, vs[j]? = some w → ∀ e, ¬ Breaks maxSteps maxDepth (j + 1) w.depth e) :
  i = a
  := by
  cases h with
  | steps ha hi =>
    have hle : ¬ a < i := by
      intro hai
      have hlt := (List.getElem?_eq_some_iff.1 hv).1
      apply hfirst a hai _ (List.getElem?_eq_getElem (Nat.lt_trans hai hlt)) (.stepsExceeded a)
      apply Breaks.steps ha (Nat.lt_succ_self a)
    omega

/-- A record is within ceilings when no visit is the first to break one. -/
theorem Record.within_iff_firstBreak? {maxSteps maxDepth : Option Nat} {r : Record}
    (h : r.progress.steps = r.progress.visits.length) (o : Options) :
  r.Within maxSteps maxDepth
    ↔ firstBreak? (o.under maxSteps maxDepth) 0 r.progress.visits = none
  := by
  rw [Record.within_iff h, firstBreak?_eq_none_iff]
  constructor
  · intro hno i v hv
    rw [Nat.zero_add]
    apply Option.eq_none_iff_forall_not_mem.2
    intro e he
    apply hno i v e hv (breaks_iff.2 he)
  · intro hnone i v e hv he
    have hv := hnone i v hv
    rw [Nat.zero_add, breaks_iff.1 he] at hv
    cases hv

/-- The record of a run that is the cut of another one. -/
theorem Run.Cut.record {o : Options} {maxSteps maxDepth : Option Nat} {x y : Run Outcome}
    (h : Run.Cut (o.under maxSteps maxDepth) {} (x {}) (y {})) :
  Record.CutBy maxSteps maxDepth y.record x.record
  := by
  obtain ⟨vs, hvisits, hsteps, hcut⟩ := h
  rw [← Run.record_progress] at hvisits hsteps
  have hvisits : y.record.progress.visits = vs := hvisits
  have hcounted : y.record.progress.steps = y.record.progress.visits.length := by
    rw [hsteps, hvisits]
    apply Nat.zero_add
  have hwithin : y.record.Within maxSteps maxDepth
      ↔ firstBreak? (o.under maxSteps maxDepth) 0 vs = none := by
    rw [← hvisits]
    apply Record.within_iff_firstBreak? hcounted
  have hzero : ({} : Progress).steps = 0 := rfl
  rw [hzero] at hcut
  constructor
  · apply hcounted
  · intro h
    rw [hwithin.1 h] at hcut
    rw [Run.record_congr hcut]
    exact ⟨rfl, rfl⟩
  · intro h
    cases hb : firstBreak? (o.under maxSteps maxDepth) 0 vs with
    | none => cases h (hwithin.2 hb)
    | some b =>
      obtain ⟨e, k⟩ := b
      rw [hb] at hcut
      obtain ⟨st, hx, hst⟩ := hcut
      obtain ⟨i, v, hv, rfl, he, hfirst⟩ := firstBreak?_breaks hb
      have hrecord : x.record = ⟨.error e, st⟩ := by
        rw [Run.record]
        rw [hx]
      rw [hrecord, hvisits]
      use i, v, e, hv, he, hfirst, rfl, hst
      rintro a rfl
      rw [← he.eq_of_first hv hfirst]
      apply hst

/-- A match under ceilings is the cut of the match without them. -/
theorem Matcher.cutBy_under (m : Matcher) (nesting : Nat) (subject : Value) (pos : Nat)
    (maxSteps maxDepth : Option Nat) :
  Record.CutBy maxSteps maxDepth ((m.under none none).runWithin nesting subject pos)
    ((m.under maxSteps maxDepth).runWithin nesting subject pos)
  := by
  apply Run.Cut.record (o := m.options)
  apply Pattern.eval_cut (m.options.under maxSteps maxDepth)

/-- A match that breaks no ceiling breaks no higher one. -/
theorem Record.Within.mono {maxSteps maxDepth maxSteps' maxDepth' : Option Nat} {r : Record}
    (h : r.Within maxSteps maxDepth)
    (hsteps : ∀ a', maxSteps' = some a' → ∃ a ≤ a', maxSteps = some a)
    (hdepth : ∀ b', maxDepth' = some b' → ∃ b ≤ b', maxDepth = some b) :
  r.Within maxSteps' maxDepth'
  := by
  constructor
  · intro a' ha'
    obtain ⟨a, haa', ha⟩ := hsteps a' ha'
    apply Nat.le_trans (h.1 a ha) haa'
  · intro b' hb' v hv
    obtain ⟨b, hbb', hb⟩ := hdepth b' hb'
    apply Nat.lt_of_lt_of_le (h.2 b hb v hv) hbb'

/-- Ceilings cut a match: under them it is the same as without them, or it ends at the first
evaluation that breaks one.  A match that no ceiling ends is the same under higher ceilings. -/
theorem Matcher.ceilings_cut (m : Matcher) (nesting : Nat) (subject : Value) (pos : Nat)
    (maxSteps maxDepth : Option Nat) :
  Record.CutBy maxSteps maxDepth ((m.under none none).runWithin nesting subject pos)
      ((m.under maxSteps maxDepth).runWithin nesting subject pos)
    ∧ ∀ maxSteps' maxDepth' : Option Nat,
      (∀ a', maxSteps' = some a' → ∃ a ≤ a', maxSteps = some a) →
      (∀ b', maxDepth' = some b' → ∃ b ≤ b', maxDepth = some b) →
      (∀ a, ((m.under maxSteps maxDepth).runWithin nesting subject pos).outcome
        ≠ .error (.stepsExceeded a)) →
      (∀ b, ((m.under maxSteps maxDepth).runWithin nesting subject pos).outcome
        ≠ .error (.depthExceeded b)) →
      ((m.under maxSteps' maxDepth').runWithin nesting subject pos).outcome
          = ((m.under maxSteps maxDepth).runWithin nesting subject pos).outcome
        ∧ ((m.under maxSteps' maxDepth').runWithin nesting subject pos).progress.steps
          = ((m.under maxSteps maxDepth).runWithin nesting subject pos).progress.steps
  := by
  have h := m.cutBy_under nesting subject pos maxSteps maxDepth
  use h
  intro maxSteps' maxDepth' hsteps hdepth hnosteps hnodepth
  have h' := m.cutBy_under nesting subject pos maxSteps' maxDepth'
  by_cases hwithin : Record.Within maxSteps maxDepth
      ((m.under none none).runWithin nesting subject pos)
  · obtain ⟨houtcome, hcount⟩ := h.same hwithin
    obtain ⟨houtcome', hcount'⟩ := h'.same (hwithin.mono hsteps hdepth)
    use houtcome'.trans houtcome.symm, hcount'.trans hcount.symm
  · obtain ⟨i, v, e, -, hbreaks, -, houtcome, -⟩ := h.broken hwithin
    cases hbreaks with
    | steps _ _ => cases hnosteps _ houtcome
    | depth _ _ _ => cases hnodepth _ houtcome

end Peg
