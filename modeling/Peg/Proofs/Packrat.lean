import Mathlib.Data.List.Induction
import Peg.Proofs.Completions
import Peg.Proofs.Termination

/-!
# Completing every application once

A match that remembers outcomes completes every rule application once, when the match that remembers
nothing completes it for the first time.  The two are followed side by side, as in
`Pattern.eval_recalls`, and `Progress.Abridges` says what is known of their logs.  The one log is
the other one without repetitions.  What is remembered is what was completed, and nothing that is in
progress was completed before.

When an outcome is recalled, then the other match completes a number of applications.  They were all
completed before, namely when the remembered application was: what an application completes does not
depend on when it happens.
-/

namespace Peg

/-! ### Lists without repetitions -/

section EraseDups

variable {α : Type} {r : α → α → Bool} {a : α} {l m : List α}

theorem eraseDupsBy_loop_append (r : α → α → Bool) (l m acc : List α) :
  List.eraseDupsBy.loop r (l ++ m) acc
    = List.eraseDupsBy.loop r m (List.eraseDupsBy.loop r l acc).reverse
  := by
  induction l generalizing acc with
  | nil => simp [List.eraseDupsBy.loop]
  | cons a l ih =>
    simp only [List.cons_append, List.eraseDupsBy.loop]
    split
    · apply ih
    · apply ih

theorem eraseDupsBy_concat (r : α → α → Bool) (l : List α) (a : α) :
  (l ++ [a]).eraseDupsBy r
    = if (l.eraseDupsBy r).any (r a) then l.eraseDupsBy r else l.eraseDupsBy r ++ [a]
  := by
  rw [List.eraseDupsBy, eraseDupsBy_loop_append, ← List.eraseDupsBy]
  simp only [List.eraseDupsBy.loop, List.any_reverse]
  split
  · next h => simp [h]
  · next h => simp [h]

/-- What occurs already is erased when it is appended. -/
theorem eraseDupsBy_append_of_forall_any (h : ∀ a ∈ m, (l.eraseDupsBy r).any (r a) = true) :
  (l ++ m).eraseDupsBy r = l.eraseDupsBy r
  := by
  induction m generalizing l with
  | nil => rw [List.append_nil]
  | cons a m ih =>
    obtain ⟨ha, hm⟩ := List.forall_mem_cons.1 h
    have hl : (l ++ [a]).eraseDupsBy r = l.eraseDupsBy r := by rw [eraseDupsBy_concat, if_pos ha]
    rw [List.append_cons, ih (hl ▸ hm), hl]

/-- Nothing is lost when repetitions are erased. -/
theorem any_eraseDupsBy (hr : ∀ a, r a a = true) (h : a ∈ l) :
  (l.eraseDupsBy r).any (r a) = true
  := by
  induction l using List.reverseRecOn with
  | nil => cases h
  | append_singleton l b ih =>
    rw [eraseDupsBy_concat]
    rcases List.mem_append.1 h with h | h
    · split
      · apply ih h
      · simp only [List.any_append, ih h, Bool.true_or]
    · rw [List.mem_singleton.1 h]
      split
      · assumption
      · simp [hr]

/-- No repetitions are left when they are erased. -/
theorem pairwise_eraseDupsBy (r : α → α → Bool) (l : List α) :
  (l.eraseDupsBy r).Pairwise fun a b => r b a = false
  := by
  induction l using List.reverseRecOn with
  | nil => apply List.Pairwise.nil
  | append_singleton l b ih =>
    rw [eraseDupsBy_concat]
    split
    · apply ih
    · next h =>
      rw [List.pairwise_append]
      refine ⟨ih, List.pairwise_singleton _ b, ?_⟩
      intro a ha b' hb'
      rw [List.mem_singleton.1 hb']
      by_contra hba
      apply h
      apply List.any_eq_true.2 ⟨a, ha, by simpa using hba⟩

end EraseDups

variable {top : Value} {c : Comparison} {o : Options} {n depth : Nat} {f : Focus} {g : Grammar}
variable {rule : String} {k : Key} {ks ls : List Key} {r s : Outcome} {st st' st₁ : Progress}

/-! ### Applications that complete nothing new -/

/-- Without remembering, the applications with a key complete only such as are among given ones. -/
def Key.Covered (top : Value) (o : Options) (k : Key) (ks : List Key) : Prop :=
  ∀ f g rule, f.Placed top → k.same (f.key g rule) = true → ∀ n depth st r st₁,
    applyRule o (Pattern.eval o n depth) g rule f st = .ok r st₁ →
    ∃ ls, st₁.completed = st.completed ++ ls ∧ ∀ l ∈ ls, ks.any l.same = true

theorem Key.any_same_trans {l : Key} (h : ks.any l.same = true)
    (hks : ∀ k ∈ ks, ls.any k.same = true) :
  ls.any l.same = true
  := by
  obtain ⟨k, hk, hlk⟩ := List.any_eq_true.1 h
  obtain ⟨m, hm, hkm⟩ := List.any_eq_true.1 (hks k hk)
  apply List.any_eq_true.2 ⟨m, hm, same_trans hlk hkm⟩

theorem Key.Covered.mono (h : k.Covered top o ks) (hks : ∀ k ∈ ks, ls.any k.same = true) :
  k.Covered top o ls
  := by
  intro f g rule hf hsame n depth st r st₁ hrun
  obtain ⟨ms, hms, hcovered⟩ := h f g rule hf hsame n depth st r st₁ hrun
  use ms, hms
  exact fun l hl => Key.any_same_trans (hcovered l hl) hks

/-- What was completed once covers the application. -/
theorem Key.covered_of_run (ho : o.memoize = false) (hf : f.Placed top)
    (hrun : applyRule o (Pattern.eval o n depth) g rule f st = .ok r st₁) :
  (f.key g rule).Covered top o st₁.completed
  := by
  intro f' g' rule' hf' hsame n' depth' st' r' st₁' hrun'
  obtain ⟨rfl, rfl, hff⟩ := hf.resembles top.tells_alike hf' hsame
  have hretraced : Run.Retraced (Outcome.Agrees .alike) st st'
      (applyRule o (Pattern.eval o n depth) g rule f st)
      (applyRule o (Pattern.eval o n' depth') g rule f' st') := by
    apply applyRule_retraced ho _ hff
    exact fun p f f' st st' h => p.eval_retraced ho n n' depth depth' h
  obtain ⟨-, hsince⟩ := hretraced r st₁ r' st₁' hrun hrun'
  apply hsince.exists_any

/-! ### One log without the repetitions of another -/

/-- How the progress of a run that remembers outcomes is related to that of a run which does not:
its log is the other one without repetitions, what it remembers is what was completed, nothing in
progress was completed before, and an application completed before completes nothing new. -/
structure Progress.Abridges (top : Value) (o : Options) (st st' : Progress) : Prop where
  completed : st'.completed = st.completed.eraseDupsBy Key.same
  remembered : st'.memo.map (·.1) = st'.completed.reverse
  fresh : ∀ k ∈ st'.active, st'.completed.any k.same = false
  covered : ∀ k ∈ st'.completed, k.Covered top o st'.completed

namespace Progress.Abridges

theorem start :
  Abridges top o {} {}
  := ⟨rfl, rfl, by simp, by simp [Progress.completed, Progress.completions]⟩

theorem enter (h : st.Abridges top o st') (f : Focus) (depth : Nat) :
  (st.enter f depth).Abridges top o (st'.enter f depth)
  := by
  constructor
  · rw [completed_enter, completed_enter]
    apply h.completed
  · rw [completed_enter]
    apply h.remembered
  · rw [completed_enter]
    apply h.fresh
  · rw [completed_enter]
    apply h.covered

/-- What begins without being remembered was not completed before. -/
theorem begin (h : st.Abridges top o st') (hnew : recalled? o.remembering st' k = none) :
  (st.begin k).Abridges top o (st'.begin k)
  := by
  have hk : st'.completed.any k.same = false := by
    rw [List.any_eq_false]
    intro l hl hkl
    rw [← List.mem_reverse, ← h.remembered] at hl
    obtain ⟨e, he, rfl⟩ := List.mem_map.1 hl
    have hfind : st'.memo.find? (fun e => e.1.same k) = none := by
      simpa [recalled?, Options.remembering, remembered?] using hnew
    apply List.find?_eq_none.1 hfind e he (Key.same_symm hkl)
  constructor
  · rw [completed_begin, completed_begin]
    apply h.completed
  · rw [completed_begin]
    apply h.remembered
  · rw [completed_begin]
    exact List.forall_mem_cons.2 ⟨hk, h.fresh⟩
  · rw [completed_begin]
    apply h.covered

/-- The latest application completes in both runs.  Its key is a new one. -/
theorem complete {active : List Key} (h : st.Abridges top o st')
    (hactive : st'.active = k :: active) (hnew : ∀ l ∈ active, l.same k = false)
    (hcovered : k.Covered top o (st.completed ++ [k])) (memoize : Bool) (r s : Outcome) :
  (st.complete memoize k r).Abridges top o (st'.complete true k s)
  := by
  -- the application was in progress until now, so none with its key was completed meanwhile
  have hk : st'.completed.any k.same = false := by
    apply h.fresh
    rw [hactive]
    apply List.mem_cons_self
  have hcompleted : st'.completed ++ [k] = (st.completed ++ [k]).eraseDupsBy Key.same := by
    rw [eraseDupsBy_concat, ← h.completed, hk]
    rfl
  constructor
  · simpa using hcompleted
  · rw [completed_complete, List.reverse_append, ← h.remembered]
    rfl
  · have hactive' : (st'.complete true k s).active = active := by
      simp only [Progress.complete, hactive, withdraw_cons_self]
    rw [completed_complete, hactive']
    intro l hl
    have hl' : l ∈ st'.active := by
      rw [hactive]
      apply List.mem_cons_of_mem k hl
    simp [h.fresh l hl', hnew l hl]
  · rw [completed_complete]
    intro l hl
    rcases List.mem_append.1 hl with hl | hl
    · apply (h.covered l hl).mono
      intro m hm
      rw [List.any_append, Bool.or_eq_true]
      left
      apply List.any_eq_true.2 ⟨m, hm, m.same_refl⟩
    · rw [List.mem_singleton.1 hl, hcompleted]
      apply hcovered.mono
      exact fun m hm => any_eraseDupsBy Key.same_refl hm

/-- While an outcome is recalled, the other run completes nothing new. -/
theorem recalled (h : st.Abridges top o st') (hf : f.Placed top)
    (hs : recalled? o.remembering st' (f.key g rule) = some s)
    (hrun : applyRule o (Pattern.eval o n depth) g rule f st = .ok r st₁) :
  st₁.Abridges top o st'
  := by
  obtain ⟨e, he, hsame, -⟩ := recalled?_eq_some hs
  have hcompleted : e.1 ∈ st'.completed := by
    rw [← List.mem_reverse, ← h.remembered]
    apply List.mem_map_of_mem he
  obtain ⟨ls, hls, hany⟩ := h.covered e.1 hcompleted f g rule hf hsame n depth st r st₁ hrun
  refine ⟨?_, h.remembered, h.fresh, h.covered⟩
  rw [hls, eraseDupsBy_append_of_forall_any (h.completed ▸ hany), h.completed]

end Progress.Abridges

/-! ### Two runs side by side -/

/-- How the result of a run that remembers outcomes is related to that of a run which does not, and
which has the applications `active` in progress: if the latter is stopped by a ceiling then in no
way, and else they end alike, and the one log is the other one without repetitions. -/
inductive Run.Abridges {α β : Type} (top : Value) (o : Options) (active : List Key)
    (results : α → β → Prop) :
    EStateM.Result Fault Progress α → EStateM.Result Fault Progress β → Prop where
  | ok {a : α} {b : β} {st st' : Progress} :
    results a b → st.active = active → st.Recalls top .alike st' → st.Abridges top o st' →
      Abridges top o active results (.ok a st) (.ok b st')
  | error {e : Fault} {st st' : Progress} :
    st'.completed = st.completed.eraseDupsBy Key.same →
      Abridges top o active results (.error e st) (.error e st')
  | ceiling {e : Fault} {st : Progress} {y : EStateM.Result Fault Progress β} :
    e.isCeiling = true → Abridges top o active results (.error e st) y

/-- Plans that ask the same questions are carried out so that the one log abridges the other, when
the questions are answered so. -/
theorem Plan.Corresponds.run_abridges {α β : Type} {active : List Key} {t : Terms} {P : α → Prop}
    {results : α → β → Prop} {x : Plan α} {y : Plan β} {answer answer' : Question → Run Outcome}
    (hxy : x.Corresponds (Alongside.correspondence .alike Eq) results y)
    (hx : x.Keeps t P) (hprecedes : x.Precedes top active) (hactive : st.active = active)
    (hst : st.Recalls top .alike st') (hlog : st.Abridges top o st')
    (hallowed : ∀ q r, t.asks q → q.Settles r → t.answers q r)
    (hsettles : ∀ q st r st', answer q st = .ok r st' → q.Settles r)
    (hanswer : ∀ q st st', t.asks q → q.Precedes top active → st.active = active →
      st.Recalls top .alike st' → st.Abridges top o st' →
      Run.Abridges top o active (Outcome.Agrees .alike) (answer q st) (answer' q st')) :
  Run.Abridges top o active results (x.run answer st) (y.run answer' st')
  := by
  induction hxy using Corresponds.induction generalizing st st' with
  | done a b hab => exact .ok hab hactive hst hlog
  | stop e => exact .error hlog.completed
  | ask q q' next next' hq _ ih =>
    obtain rfl : q = q' := hq
    have hrun := hanswer q st st' hx.1 hprecedes.question hactive hst hlog
    rw [run_ask, run_ask]
    cases hqs : answer q st with
    | error e st₁ =>
      rw [hqs] at hrun
      dsimp only
      generalize answer' q st' = z at hrun ⊢
      cases hrun with
      | error hlog => exact .error hlog
      | ceiling he => exact .ceiling he
    | ok r st₁ =>
      rw [hqs] at hrun
      dsimp only
      generalize answer' q st' = z at hrun ⊢
      cases hrun with
      | ok hrs hactive₁ hst₁ hlog₁ =>
        have hr := hsettles q st r st₁ hqs
        apply ih _ _ hrs (hx.2 r (hallowed q r hx.1 hr)) (hprecedes.answered hr) hactive₁ hst₁ hlog₁

/-- What two evaluators of patterns have in common, of which the second one remembers outcomes and
has the log of the first one without repetitions. -/
def Evaluator.AbridgedBy (ev ev' : Evaluator) (top : Value) (o : Options) : Prop :=
  ∀ p f st st', f.Placed top → p.Precedes top st.active f → st.Recalls top .alike st' →
    st.Abridges top o st' →
    Run.Abridges top o st.active (Outcome.Agrees .alike) (ev p f st) (ev' p f st')

section Rules

/-- If the body of a rule is evaluated so that the one log abridges the other, then the application
is completed so. -/
theorem evalBody_abridges {body : Pattern} (ho : o.memoize = false)
    (hev : (Pattern.eval o n depth).AbridgedBy (Pattern.eval o.remembering n depth) top o)
    (hf : f.Placed top) (hq : (Question.apply g rule f).Precedes top st.active)
    (hst : st.Recalls top .alike st') (hlog : st.Abridges top o st')
    (hnew : recalled? o.remembering st' (f.key g rule) = none)
    (hinactive : st'.isActive (f.key g rule) = false) (hrule : g.rule? rule = some body)
    (hrun : applyRule o (Pattern.eval o n depth) g rule f st
      = evalBody o (Pattern.eval o n depth) (f.key g rule) body (f.inScope g) st) :
  Run.Abridges top o st.active (Outcome.Agrees .alike)
    (evalBody o (Pattern.eval o n depth) (f.key g rule) body (f.inScope g) st)
    (evalBody o.remembering (Pattern.eval o.remembering n depth) (f.key g rule) body (f.inScope g)
      st')
  := by
  have hrecalls := evalBody_recalls (o := o) top.tells_alike
    (Pattern.eval_recalls ho top.tells_alike n depth)
    (fun p f => Pattern.eval_sound ho n depth p f) hrule hf (.refl f) hq hst
  have hbegin : (st.begin (f.key g rule)).Recalls top .alike (st'.begin (f.key g rule)) :=
    ⟨.cons (Key.same_refl _) hst.active, hst.steps, hst.faithful⟩
  have hbody := hev body _ _ _ (hf.inScope g) (hq.body hrule hf) hbegin (hlog.begin hnew)
  have hextends := Pattern.eval_extends o.remembering n depth body (f.inScope g)
    (st'.begin (f.key g rule))
  cases hb : Pattern.eval o n depth body (f.inScope g) (st.begin (f.key g rule)) with
  | error e st₁ =>
    rw [hb] at hbody
    rw [evalBody_error hb]
    generalize hb' : Pattern.eval o.remembering n depth body _ _ = z at hbody
    cases hbody with
    | error hlog₁ =>
      rw [evalBody_error hb']
      apply Run.Abridges.error
      rw [Progress.completed_abandon, Progress.completed_abandon, hlog₁]
    | ceiling he => exact .ceiling he
  | ok r st₁ =>
    rw [hb] at hbody
    rw [evalBody_ok hb] at hrun hrecalls ⊢
    generalize hb' : Pattern.eval o.remembering n depth body _ _ = z at hbody hextends
    cases hbody with
    | ok _ _ _ hlog₁ =>
      rw [evalBody_ok hb'] at hrecalls ⊢
      cases hrecalls with
      | ok hrs hactive hst₂ =>
        apply Run.Abridges.ok hrs hactive hst₂
        apply hlog₁.complete hextends.active
        · simpa [Progress.isActive] using hinactive
        · -- this run is the one that later applications with the same key retrace
          have hcovered := Key.covered_of_run ho hf hrun
          rw [Progress.completed_complete] at hcovered
          apply hcovered

/-- A rule is applied so that the one log abridges the other. -/
theorem applyRule_abridges (ho : o.memoize = false)
    (hev : (Pattern.eval o n depth).AbridgedBy (Pattern.eval o.remembering n depth) top o)
    (hf : f.Placed top) (hq : (Question.apply g rule f).Precedes top st.active)
    (hst : st.Recalls top .alike st') (hlog : st.Abridges top o st') :
  Run.Abridges top o st.active (Outcome.Agrees .alike)
    (applyRule o (Pattern.eval o n depth) g rule f st)
    (applyRule o.remembering (Pattern.eval o.remembering n depth) g rule f st')
  := by
  have hnone := recalled?_of_not_memoize ho st (f.key g rule)
  have hactive : st.isActive (f.key g rule) = st'.isActive (f.key g rule) :=
    Key.any_same_eq hst.active fun hkl => Key.same_congr hkl (Key.same_refl _)
  have happ := applyRule_application o.remembering (Pattern.eval o.remembering n depth) g rule f st'
  generalize applyRule o.remembering (Pattern.eval o.remembering n depth) g rule f st' = y
    at happ ⊢
  cases happ with
  | recalled hs =>
    -- the run that remembers nothing evaluates the body of the rule again
    have hrecalls : Run.Recalls top .alike st.active (Outcome.Agrees .alike)
        (applyRule o (Pattern.eval o n depth) g rule f st) _ :=
      applyRule_recalls_remembered ho hf (.refl f) hq hst hs
    cases hrun : applyRule o (Pattern.eval o n depth) g rule f st with
    | error e st₁ =>
      rw [hrun] at hrecalls
      cases hrecalls with
      | ceiling he => exact .ceiling he
    | ok r st₁ =>
      rw [hrun] at hrecalls
      cases hrecalls with
      | ok hrs hactive hst₁ => exact .ok hrs hactive hst₁ (hlog.recalled hf hs hrun)
  | active _ ha =>
    rw [applyRule_active hnone (hactive.trans ha)]
    exact .error hlog.completed
  | undefined _ ha hrule =>
    rw [applyRule_undefined hnone (hactive.trans ha) hrule]
    exact .error hlog.completed
  | body hnew ha hrule =>
    have hrun : applyRule o (Pattern.eval o n depth) g rule f st
        = evalBody o (Pattern.eval o n depth) (f.key g rule) _ (f.inScope g) st :=
      applyRule_body hnone (hactive.trans ha) hrule
    rw [hrun]
    apply evalBody_abridges ho hev hf hq hst hlog hnew ha hrule hrun

/-- Patterns are evaluated so that the log of the run which remembers outcomes abridges the
other. -/
theorem Pattern.eval_abridges (ho : o.memoize = false) (n depth : Nat) :
  (eval o n depth).AbridgedBy (eval o.remembering n depth) top o
  := by
  induction n generalizing depth with
  | zero => exact fun _ _ _ _ _ _ _ _ => .ceiling rfl
  | succ n ih =>
    intro p f st st' hf hp hst hlog
    rw [eval_succ, eval_succ]
    cases hc : brokenCeiling? o (st.steps + 1) depth with
    | some e => exact .ceiling (isCeiling_of_broken hc)
    | none =>
      have hsteps : st'.steps + 1 ≤ st.steps + 1 := Nat.succ_le_succ hst.steps
      have hc' : brokenCeiling? o.remembering (st'.steps + 1) depth = none :=
        brokenCeiling?_mono hsteps hc
      rw [hc']
      have hactive : (st.enter f depth).active = st.active := rfl
      have henter : (st.enter f depth).Recalls top .alike (st'.enter f depth) :=
        ⟨hst.active, hsteps, hst.faithful⟩
      have hbacked : ∀ q, Run.Backed (Question.answer o (eval o n (depth + 1)) q)
          (q.resolve (unguarded n)) :=
        Question.answer_backed ho fun p f => eval_sound ho n (depth + 1) p f
      apply (p.plan_same f).run_abridges (p.plan_keeps f) hp.plan hactive henter
        (hlog.enter f depth)
      · exact fun q r _ hr => Question.accepts_of_settles hr
      · intro q st r st' hr
        use n, hbacked q st r st' hr
      · intro q st₁ st₁' hq hprecedes hactive hst₁ hlog₁
        have hplaced := hq.placed hf
        rw [← hactive] at hprecedes ⊢
        cases q with
        | evaluate p f => apply ih (depth + 1) p f _ _ hplaced hprecedes.evaluate hst₁ hlog₁
        | apply g rule f =>
          apply applyRule_abridges ho (ih (depth + 1)) hplaced hprecedes hst₁ hlog₁

end Rules

/-! ### Matches -/

/-- The log of a run that is not stopped by a ceiling is the one of the run which remembers
outcomes, with repetitions. -/
theorem Run.Abridges.completed {active : List Key} {results : Outcome → Outcome → Prop}
    {x y : Run Outcome} (h : Run.Abridges top o active results (x {}) (y {}))
    (hx : Verdict.Ended x.record.outcome) :
  y.record.progress.completed = x.record.progress.completed.eraseDupsBy Key.same
  := by
  simp only [Run.record] at hx ⊢
  generalize x {} = a at h hx
  generalize y {} = b at h
  cases h with
  | ok _ _ _ hlog => apply hlog.completed
  | error hlog => apply hlog
  | ceiling he =>
    have hno := hx _ rfl
    rw [he] at hno
    cases hno

/-- A match that remembers outcomes completes every rule application once.  Unless a ceiling stops
the match, its log is the one of the match which remembers nothing, where each key that was
completed before is left out.  So no two of its keys are the same, and no application is lost.
Without ceilings this is so whenever the match may nest deeply enough. -/
theorem Matcher.completes_each_once (m : Matcher) (subject : Value) (pos : Nat) :
  (∀ n, Verdict.Ended ((m.memoizing false).runWithin n subject pos).outcome →
      ((m.memoizing true).runWithin n subject pos).progress.completed
          = ((m.memoizing false).runWithin n subject pos).progress.completed.eraseDupsBy Key.same
        ∧ ((m.memoizing true).runWithin n subject pos).progress.completed.Pairwise
          (fun k l => l.same k = false)
        ∧ ∀ k ∈ ((m.memoizing false).runWithin n subject pos).progress.completed,
          ∃ l ∈ ((m.memoizing true).runWithin n subject pos).progress.completed, k.same l = true)
    ∧ (m.options.maxSteps = none → m.options.maxDepth = none →
        ∀ n ≥ m.nestingBound subject pos,
          Verdict.Ended ((m.memoizing false).runWithin n subject pos).outcome)
  := by
  constructor
  · intro n hended
    have hprecedes : m.pattern.Precedes subject ({} : Progress).active
        (.start subject pos m.outer) := by
      simp [Pattern.Precedes]
    have hstart : ({} : Progress).Recalls subject .alike {} :=
      ⟨.nil, Nat.le_refl _, by simp [Progress.Faithful]⟩
    have hrun := Pattern.eval_abridges (o := (m.memoizing false).options) rfl n 0 m.pattern
      (.start subject pos m.outer) {} {} (Focus.placed_start subject pos m.outer) hprecedes hstart
      .start
    have hcompleted : ((m.memoizing true).runWithin n subject pos).progress.completed
        = ((m.memoizing false).runWithin n subject pos).progress.completed.eraseDupsBy Key.same :=
      hrun.completed hended
    use hcompleted
    rw [hcompleted]
    use pairwise_eraseDupsBy Key.same _
    intro k hk
    apply List.any_eq_true.1 (any_eraseDupsBy Key.same_refl hk)
  · intro hsteps hdepth n hn
    apply runWithin_ended (m := m.memoizing false) hsteps hdepth hn

/-- A digit with a mark, or else a digit and a rule that refers to itself. -/
def digitThenLoop : Matcher where
  pattern := .choice (.sequence (.ruleRef "digit") (.literal "!"))
    (.sequence (.ruleRef "digit") (.ruleRef "loop"))
  outer := some
    ⟨0, [("digit", .charRange [('0', '9')]), ("loop", .ruleRef "loop")], .rule "digit"⟩

/-- The match is stopped because of left recursion.  Until then the digit is completed twice, and
once when it is remembered. -/
theorem Matcher.completes_each_once_digitThenLoop :
  ((digitThenLoop.memoizing false).runWithin 9 (.text "7") 0).outcome
      = .error (.leftRecursion "loop" 1)
    ∧ ((digitThenLoop.memoizing false).runWithin 9 (.text "7") 0).progress.completed.map
        (fun k => (k.rule, k.pos))
      = [("digit", 0), ("digit", 0)]
    ∧ ((digitThenLoop.memoizing true).runWithin 9 (.text "7") 0).progress.completed.map
        (fun k => (k.rule, k.pos))
      = [("digit", 0)]
  := by
  have houtcome : ((digitThenLoop.memoizing false).runWithin 9 (.text "7") 0).outcome
      = .error (.leftRecursion "loop" 1) := rfl
  have hended :
      Verdict.Ended ((digitThenLoop.memoizing false).runWithin 9 (.text "7") 0).outcome := by
    rw [houtcome]
    rintro e ⟨⟩
    rfl
  obtain ⟨hcompleted, -⟩ := (digitThenLoop.completes_each_once (.text "7") 0).1 9 hended
  refine ⟨houtcome, rfl, ?_⟩
  rw [hcompleted]
  rfl

end Peg
