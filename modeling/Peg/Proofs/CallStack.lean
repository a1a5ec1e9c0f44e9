import Peg.Proofs.Termination
import Peg.Proofs.Whereabouts

/-!
# The call stack of a match

A match knows the rule applications in progress by their keys.  At every moment these are the keys
of the applications on the call stack: those whose bodies are being evaluated, one inside the other.
`Evaluation.Stacked` tells which applications are on the call stack when an evaluation is carried
out, and `Evaluation.Passes` which progress is made at the moments when that evaluation is the
innermost one.

What every evaluation that enters another one keeps is `Evaluation.CallStack`: the applications on
the stack are in progress, no two have the same key, and those at a text are at the text being
matched.  So an application that is met in progress is one on the stack, at the same subject.  The
main result is `Matcher.active_eq_map_key`.
-/

namespace Peg

variable {o : Options} {n depth : Nat} {p q : Pattern} {f f' : Focus} {g : Grammar}
variable {rule : String} {r : Outcome} {st st' : Progress}

/-- The application of a rule of a grammar at a focus. -/
structure Call where
  grammar : Grammar
  rule : String
  focus : Focus

/-- What a rule application is known by. -/
def Call.key (c : Call) : Key :=
  c.focus.key c.grammar c.rule

/-! ### What is in progress stays so -/

/-- A question that is answered leaves the rule applications in progress as they were. -/
theorem Question.answer_active {q : Question}
    (h : q.answer o (Pattern.eval o n depth) st = .ok r st') :
  st'.active = st.active
  := by
  have hextends : Run.Ends (fun _ => st.Extends depth (depth + n))
      (fun _ => st.Extends depth (depth + n)) (q.answer o (Pattern.eval o n depth) st) := by
    cases q with
    | evaluate p f => apply Pattern.eval_extends
    | apply g rule f => exact applyRule_extends (Pattern.eval_extends o n depth) g rule f st
  rw [h] at hextends
  apply hextends.active

/-- The rule applications in progress are the same whenever a plan poses a question. -/
theorem Plan.Poses.active_eq {α : Type} {x : Plan α} {q : Question}
    (h : x.Poses (Question.answer o (Pattern.eval o n depth)) st q st') :
  st'.active = st.active
  := by
  refine (x.keeps_anything.poses (I := fun st' => st'.active = st.active) h rfl ?_).2
  exact fun _ _ _ _ hst hr => ⟨trivial, (Question.answer_active hr).trans hst⟩

/-- A run that is stopped is stopped by the plan itself or while a question is answered. -/
theorem Plan.Keeps.exists_poses_of_error {α : Type} {t : Terms} {P : α → Prop} {x : Plan α}
    {answer : Question → Run Outcome} {e : Fault} {I : Progress → Prop} (hx : x.Keeps t P)
    (hst : I st)
    (hanswer : ∀ q st r st', I st → answer q st = .ok r st' → t.answers q r ∧ I st')
    (h : x.run answer st = .error e st') :
  t.stops e ∨ ∃ q st₁, x.Poses answer st q st₁ ∧ answer q st₁ = .error e st'
  := by
  induction x generalizing st with
  | done a => cases h
  | stop e' =>
    cases h
    exact .inl hx
  | ask q next ih =>
    rw [run_ask] at h
    cases hq : answer q st with
    | error e' st₁ =>
      rw [hq] at h
      cases h
      exact .inr ⟨q, st, .first, hq⟩
    | ok r st₁ =>
      rw [hq] at h
      obtain ⟨hallowed, hst₁⟩ := hanswer q st r st₁ hst hq
      rcases ih r (hx.2 r hallowed) hst₁ h with hstop | ⟨q', st₂, hposes, herror⟩
      · exact .inl hstop
      · exact .inr ⟨q', st₂, .later hq hposes, herror⟩

namespace Evaluation

variable {top e e' : Evaluation} {calls calls' : List Call} {c : Call}

/-! ### Evaluations on a call stack -/

/-- An evaluation enters another one, and puts a rule application on the call stack if it is the
body of a rule. -/
inductive Enters (o : Options) : Evaluation → Option Call → Evaluation → Prop where
  | part {n depth : Nat} {p q : Pattern} {f f' : Focus} {st st' : Progress} :
    Pattern.brokenCeiling? o (st.steps + 1) depth = none →
    (p.plan f).Poses (Question.answer o (Pattern.eval o n (depth + 1))) (st.enter f depth)
      (.evaluate q f') st' →
    Enters o ⟨n + 1, depth, p, f, st⟩ none ⟨n, depth + 1, q, f', st'⟩
  | body {n depth : Nat} {p body : Pattern} {f : Focus} {st st' : Progress} {c : Call} :
    Pattern.brokenCeiling? o (st.steps + 1) depth = none →
    (p.plan f).Poses (Question.answer o (Pattern.eval o n (depth + 1))) (st.enter f depth)
      (.apply c.grammar c.rule c.focus) st' →
    recalled? o st' c.key = none → st'.isActive c.key = false →
    c.grammar.rule? c.rule = some body →
    Enters o ⟨n + 1, depth, p, f, st⟩ (some c)
      ⟨n, depth + 1, body, c.focus.inScope c.grammar, st'.begin c.key⟩

theorem begins_iff_enters :
  Begins o e e' ↔ ∃ c, Enters o e c e'
  := by
  constructor
  · intro h
    cases h with
    | part hc hposes => exact ⟨none, .part hc hposes⟩
    | @body _ _ _ _ g rule _ f' _ _ hc hposes hrecalled hactive hbody =>
      exact ⟨some ⟨g, rule, f'⟩, .body hc hposes hrecalled hactive hbody⟩
  · rintro ⟨c, h⟩
    cases h with
    | part hc hposes => exact .part hc hposes
    | body hc hposes hrecalled hactive hbody => exact .body hc hposes hrecalled hactive hbody

/-- The rule applications on the call stack when an evaluation nested in `top` is carried out, the
latest first. -/
inductive Stacked (o : Options) (top : Evaluation) : List Call → Evaluation → Prop where
  | here : Stacked o top [] top
  | inside {calls : List Call} {e e' : Evaluation} {c : Option Call} :
    Stacked o top calls e → Enters o e c e' → Stacked o top (c.toList ++ calls) e'

theorem Stacked.trans (h : Stacked o top calls e) (h' : Stacked o e calls' e') :
  Stacked o top (calls' ++ calls) e'
  := by
  induction h' with
  | here => apply h
  | inside _ henters ih =>
    rw [List.append_assoc]
    exact .inside ih henters

/-- What is found in an evaluation that is entered is found in the one that enters it. -/
theorem Enters.exists_stacked {c : Option Call} {P : Evaluation → Prop} (h : Enters o top c e)
    (he : ∃ calls e', Stacked o e calls e' ∧ P e') :
  ∃ calls e', Stacked o top calls e' ∧ P e'
  := by
  obtain ⟨calls, e', hstacked, hP⟩ := he
  exact ⟨_, e', (Stacked.inside .here h).trans hstacked, hP⟩

theorem nests_iff_stacked :
  Nests o top e ↔ ∃ calls, Stacked o top calls e
  := by
  constructor
  · intro h
    induction h with
    | refl => exact ⟨[], .here⟩
    | tail _ hbegins ih =>
      obtain ⟨calls, hstacked⟩ := ih
      obtain ⟨c, henters⟩ := begins_iff_enters.1 hbegins
      exact ⟨_, .inside hstacked henters⟩
  · rintro ⟨calls, h⟩
    induction h with
    | here => exact .refl
    | inside _ henters ih => exact .tail ih (begins_iff_enters.2 ⟨_, henters⟩)

/-! ### Moments -/

/-- The progress made at a moment when an evaluation is the innermost one: before it is entered and
just after, whenever its plan poses a question, and when it ends. -/
inductive Passes (o : Options) : Evaluation → Progress → Prop where
  | before (e : Evaluation) : Passes o e e.progress
  | entered (e : Evaluation) : Passes o e (e.progress.enter e.focus e.depth)
  | posing {n depth : Nat} {p : Pattern} {f : Focus} {st st' : Progress} {q : Question} :
    Pattern.brokenCeiling? o (st.steps + 1) depth = none →
    (p.plan f).Poses (Question.answer o (Pattern.eval o n (depth + 1))) (st.enter f depth) q st' →
    Passes o ⟨n + 1, depth, p, f, st⟩ st'
  | ended (e : Evaluation) : Passes o e (Run.finish (e.result o))

/-- An evaluation leaves the rule applications in progress as they were, however it ends. -/
theorem finish_active (o : Options) (e : Evaluation) :
  (Run.finish (e.result o)).active = e.progress.active
  := (Pattern.eval_extends o e.nesting e.depth e.pattern e.focus e.progress).finish.active

/-- The same rule applications are in progress at all moments of an evaluation. -/
theorem Passes.active_eq (h : e.Passes o st) :
  st.active = e.progress.active
  := by
  cases h with
  | before => rfl
  | entered => rfl
  | posing _ hposes => exact hposes.active_eq
  | ended => apply finish_active

/-! ### What is on the call stack -/

/-- How the rule applications on a call stack are, in the match of an object, when an evaluation is
about to be entered. -/
structure CallStack (subject : Value) (calls : List Call) (e : Evaluation) : Prop where
  active : e.progress.active = calls.map Call.key
  distinct : (calls.map Call.key).Pairwise fun k l => k.same l = false
  text : ∀ c ∈ calls, ∀ s, c.focus.subject = .text s → e.focus.subject = .text s
  placed : ∀ c ∈ calls, c.focus.Placed subject
  focus : e.focus.Placed subject
  acceptable : e.progress.Acceptable

end Evaluation

/-- Near a focus on a text there are only foci on that text. -/
theorem Focus.Near.subject_of_text {s : String} (h : f.Near f') (hs : f.subject = .text s) :
  f'.subject = .text s
  := by
  cases h with
  | moved _ => exact hs
  | literal hv => cases Value.not_text_of_fieldAt? hv ⟨s, hs⟩
  | field hf _ => cases Value.not_text_of_fields? hf ⟨s, hs⟩
  | key hf _ => cases Value.not_text_of_fields? hf ⟨s, hs⟩

/-- What a pattern asks at a focus on a text is about that text. -/
theorem Pattern.Asks.subject_of_text {a : Question} {s : String} (h : p.Asks f a)
    (hs : f.subject = .text s) :
  a.focus.subject = .text s
  := by
  cases h with
  | part _ hnear => apply hnear.subject_of_text hs
  | inline _ => exact hs
  | rule _ => exact hs
  | ruleRef _ => exact hs

namespace Evaluation

variable {subject : Value} {top e e' : Evaluation} {calls calls' : List Call} {c : Call}

/-- The call stack stays in order when an evaluation enters another one. -/
theorem Enters.callStack {c : Option Call} (h : e.Enters o c e')
    (he : CallStack subject calls e) :
  CallStack subject (c.toList ++ calls) e'
  := by
  cases h with
  | part _ hposes =>
    obtain ⟨hasks, hst'⟩ := asks_of_poses he.acceptable hposes
    constructor
    · exact hposes.active_eq.trans he.active
    · exact he.distinct
    · exact fun c hc s hs => hasks.subject_of_text (he.text c hc s hs)
    · exact he.placed
    · exact hasks.placed he.focus
    · exact hst'
  | @body n depth p body f st st' c _ hposes _ hfresh _ =>
    obtain ⟨hasks, hst'⟩ := asks_of_poses he.acceptable hposes
    have hplaced : c.focus.Placed subject := hasks.placed he.focus
    have hactive : st'.active = calls.map Call.key := hposes.active_eq.trans he.active
    constructor
    · rw [Option.toList_some, List.singleton_append, List.map_cons, ← hactive]
      rfl
    · -- the application was not in progress, so its key is new
      apply List.pairwise_cons.2 ⟨?_, he.distinct⟩
      intro k hk
      rw [← hactive] at hk
      rw [← Bool.not_eq_true]
      intro hsame
      have hfresh := List.any_eq_false.1 hfresh k hk
      exact hfresh (Key.same_symm hsame)
    · intro d hd s hs
      rcases List.mem_cons.1 hd with rfl | hd
      · exact hs
      · exact hasks.subject_of_text (he.text d hd s hs)
    · exact List.forall_mem_cons.2 ⟨hplaced, he.placed⟩
    · exact hplaced.inScope _
    · exact hst'

theorem Stacked.callStack (h : Stacked o top calls e) (htop : CallStack subject [] top) :
  CallStack subject calls e
  := by
  induction h with
  | here => exact htop
  | inside _ henters ih => exact henters.callStack ih

/-! ### Applications in progress -/

/-- An evaluation applies a rule that is in progress, which stops the match. -/
inductive Recurs (o : Options) : Evaluation → Call → Prop where
  | of {n depth : Nat} {p : Pattern} {f : Focus} {st st' : Progress} {c : Call} :
    Pattern.brokenCeiling? o (st.steps + 1) depth = none →
    (p.plan f).Poses (Question.answer o (Pattern.eval o n (depth + 1))) (st.enter f depth)
      (.apply c.grammar c.rule c.focus) st' →
    recalled? o st' c.key = none → st'.isActive c.key = true →
    Recurs o ⟨n + 1, depth, p, f, st⟩ c

/-- An application that is met in progress is on the call stack, at the same subject. -/
theorem Recurs.exists_mem (h : e.Recurs o c) (he : CallStack subject calls e) :
  ∃ d ∈ calls, d.grammar = c.grammar ∧ d.rule = c.rule ∧ d.focus.pos = c.focus.pos
    ∧ d.focus.subject = c.focus.subject
  := by
  cases h with
  | of _ hposes _ hactive =>
    obtain ⟨hasks, -⟩ := asks_of_poses he.acceptable hposes
    obtain ⟨k, hk, hsame⟩ := List.any_eq_true.1 hactive
    rw [hposes.active_eq.trans he.active] at hk
    obtain ⟨d, hd, rfl⟩ := List.mem_map.1 hk
    obtain ⟨hgrammar, hrule, hresembles⟩ :=
      (he.placed d hd).resembles subject.tells_alike (hasks.placed he.focus) hsame
    exact ⟨d, hd, hgrammar, hrule, hresembles.pos, hresembles.subject⟩

end Evaluation

/-- A rule application that is stopped by a left recursion is in progress already, or the evaluation
of its body is stopped so. -/
theorem applyRule_leftRecursion {ev : Evaluator} {name : String} {pos : Nat}
    (h : applyRule o ev g name f st = .error (.leftRecursion rule pos) st') :
  recalled? o st (f.key g name) = none
    ∧ ((st.isActive (f.key g name) = true ∧ name = rule ∧ f.pos = pos)
      ∨ ∃ body st₁, st.isActive (f.key g name) = false ∧ g.rule? name = some body
        ∧ ev body (f.inScope g) (st.begin (f.key g name)) = .error (.leftRecursion rule pos) st₁)
  := by
  have happ := applyRule_application o ev g name f st
  rw [h] at happ
  generalize hx : EStateM.Result.error (Fault.leftRecursion rule pos) st' = x at happ
  cases happ with
  | recalled _ => cases hx
  | active hrecalled hactive =>
    cases hx
    exact ⟨hrecalled, .inl ⟨hactive, rfl, rfl⟩⟩
  | undefined _ _ _ => cases hx
  | @body body hrecalled hfresh hbody =>
    use hrecalled
    right
    cases hb : ev body (f.inScope g) (st.begin (f.key g name)) with
    | ok r st₁ =>
      rw [evalBody_ok hb] at hx
      cases hx
    | error fault st₁ =>
      rw [evalBody_error hb] at hx
      cases hx
      exact ⟨body, st₁, hfresh, hbody, hb⟩

namespace Evaluation

variable {e : Evaluation}

/-- A run that is stopped by a left recursion is stopped where an application is met in progress. -/
theorem exists_recurs {rule : String} {pos : Nat} (hst : e.progress.Acceptable)
    (h : e.result o = .error (.leftRecursion rule pos) st) :
  ∃ calls e', Stacked o e calls e' ∧ ∃ c, e'.Recurs o c ∧ c.rule = rule ∧ c.focus.pos = pos
  := by
  obtain ⟨n, depth, p, f, st₀⟩ := e
  induction n generalizing depth p f st₀ st with
  | zero => cases h
  | succ n ih =>
    rw [result, Pattern.eval_succ] at h
    cases hc : Pattern.brokenCeiling? o (st₀.steps + 1) depth with
    | some fault =>
      rw [hc] at h
      cases h
      cases Pattern.isCeiling_of_broken hc
    | none =>
      rw [hc] at h
      have henter : (st₀.enter f depth).Acceptable := hst
      rcases (p.plan_keeps f).exists_poses_of_error henter
        (fun _ _ _ _ hst hr => Question.answer_accepts hst hr) h with
        ⟨_, _, _, hfault⟩ | ⟨q, st₁, hposes, herror⟩
      · cases hfault
      · obtain ⟨-, hst₁⟩ := asks_of_poses hst hposes
        cases q with
        | evaluate q f' => exact (Enters.part hc hposes).exists_stacked (ih _ _ _ _ hst₁ herror)
        | apply g name f' =>
          obtain ⟨hrecalled, ⟨hactive, rfl, rfl⟩ | ⟨body, st₂, hfresh, hbody, hrun⟩⟩ :=
            applyRule_leftRecursion herror
          · exact ⟨[], _, .here, ⟨g, name, f'⟩, .of hc hposes hrecalled hactive, rfl, rfl⟩
          · have henters := Enters.body (c := ⟨g, name, f'⟩) hc hposes hrecalled hfresh hbody
            exact henters.exists_stacked (ih _ _ _ _ hst₁ hrun)

end Evaluation

/-- The key of an application at a text is for that text. -/
theorem Focus.subject_of_key_place {s : String} (h : (f.key g rule).place = .text s) :
  f.subject = .text s
  := by
  by_cases ht : ∃ t, f.subject = .text t
  · obtain ⟨t, ht⟩ := ht
    rw [Focus.key, Focus.place_text ht] at h
    cases h
    exact ht
  · rw [Focus.key, Focus.place_object ht] at h
    cases h

/-! ### Matches -/

namespace Matcher

variable {m : Matcher} {nesting pos : Nat} {subject : Value} {calls : List Call} {e : Evaluation}

/-- Nothing is on the call stack when a match starts. -/
theorem callStack_evaluation (m : Matcher) (nesting : Nat) (subject : Value) (pos : Nat) :
  Evaluation.CallStack subject [] (m.evaluation nesting subject pos)
  := by
  constructor
  · rfl
  · exact .nil
  · simp
  · simp
  · apply Focus.placed_start
  · intro e he
    cases he

theorem callStack (h : (m.evaluation nesting subject pos).Stacked m.options calls e) :
  Evaluation.CallStack subject calls e
  := h.callStack (m.callStack_evaluation nesting subject pos)

/-- At every moment of a match the rule applications in progress are known by the keys of those on
the call stack.  No two of these are the same, and those at a text are at the text that is being
matched.  Every evaluation leaves them as they were, so none is left when the match ends.  A match
is stopped by a left recursion only where the rule is applied while an application of it, at the
same position of the same subject, is on the call stack. -/
theorem active_eq_map_key (m : Matcher) (nesting : Nat) (subject : Value) (pos : Nat) :
  (∀ calls e, (m.evaluation nesting subject pos).Stacked m.options calls e →
      (∀ st, e.Passes m.options st → st.active = calls.map Call.key)
        ∧ (calls.map Call.key).Pairwise (fun k l => k.same l = false)
        ∧ (∀ k ∈ calls.map Call.key, ∀ s, k.place = .text s → e.focus.subject = .text s)
        ∧ (Run.finish (e.result m.options)).active = e.progress.active)
    ∧ (∀ v ∈ (m.runWithin nesting subject pos).progress.visits,
      ∃ calls e, (m.evaluation nesting subject pos).Stacked m.options calls e ∧ e.visit = v
        ∧ v.active = calls.map Call.key)
    ∧ (∀ rule pos', (m.runWithin nesting subject pos).outcome = .error (.leftRecursion rule pos') →
      ∃ calls e, (m.evaluation nesting subject pos).Stacked m.options calls e
        ∧ ∃ c, e.Recurs m.options c ∧ c.rule = rule ∧ c.focus.pos = pos'
          ∧ ∃ d ∈ calls, d.grammar = c.grammar ∧ d.rule = rule ∧ d.focus.pos = pos'
            ∧ d.focus.subject = c.focus.subject)
    ∧ (m.runWithin nesting subject pos).progress.active = []
  := by
  refine ⟨?_, ?_, ?_, ?_⟩
  · intro calls e he
    have hstack := callStack he
    refine ⟨?_, hstack.distinct, ?_, ?_⟩
    · exact fun st hst => hst.active_eq.trans hstack.active
    · intro k hk s hs
      obtain ⟨c, hc, rfl⟩ := List.mem_map.1 hk
      exact hstack.text c hc s (Focus.subject_of_key_place hs)
    · apply Evaluation.finish_active
  · intro v hv
    obtain ⟨e, he, rfl⟩ := exists_nested_of_mem_visits hv
    obtain ⟨calls, he⟩ := Evaluation.nests_iff_stacked.1 he
    exact ⟨calls, e, he, rfl, (callStack he).active⟩
  · intro rule pos' h
    obtain ⟨st, hst⟩ := Run.record_outcome_eq_error_iff.1 h
    have hstart := m.callStack_evaluation nesting subject pos
    obtain ⟨calls, e, he, c, hrecurs, rfl, rfl⟩ := Evaluation.exists_recurs hstart.acceptable hst
    obtain ⟨d, hd, hgrammar, hrule, hpos, hsubject⟩ := hrecurs.exists_mem (callStack he)
    exact ⟨calls, e, he, c, hrecurs, rfl, rfl, d, hd, hgrammar, hrule, hpos, hsubject⟩
  · rw [runWithin, Run.record_progress]
    exact Evaluation.finish_active m.options (m.evaluation nesting subject pos)

end Matcher

/-- The sum at the start is on the call stack when a sum is looked for there again. -/
theorem Matcher.active_eq_map_key_leftRecursiveSum :
  (∃ calls e,
      (leftRecursiveSum.evaluation 15 (.text "1+1") 0).Stacked leftRecursiveSum.options calls e
        ∧ ∃ c, e.Recurs leftRecursiveSum.options c ∧ c.rule = "sum" ∧ c.focus.pos = 0
          ∧ ∃ d ∈ calls, d.grammar = c.grammar ∧ d.rule = "sum" ∧ d.focus.pos = 0
            ∧ d.focus.subject = c.focus.subject)
    ∧ (leftRecursiveSum.runWithin 15 (.text "1+1") 0).progress.active = []
  := by
  obtain ⟨-, -, hrecurs, hactive⟩ := leftRecursiveSum.active_eq_map_key 15 (.text "1+1") 0
  exact ⟨hrecurs "sum" 0 rfl, hactive⟩

/-- A key and a value that are equal texts are matched by the same rule, one after the other, so it
is in progress only once at a time. -/
example :
  ((⟨.grammar ⟨0, [("field", .field (.pattern (.ruleRef "name")) (.ruleRef "name")),
      ("name", .repetition (.charRange [('a', 'z')]) (.atLeast 1))], .rule "field"⟩, none, {}⟩ :
    Matcher).runWithin 9 (.dict [(.text "ab", .text "ab")]) 0).outcome = .ok (some ⟨0, []⟩)
  := by decide +kernel

end Peg
