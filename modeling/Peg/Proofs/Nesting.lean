import Mathlib.Logic.Relation
import Peg.Proofs.Places
import Peg.Proofs.Running

/-!
# Evaluations inside a run

A run evaluates one pattern, and for that many others: the parts of the pattern, the bodies of the
rules that it refers to, the parts of these, and so on.  An `Evaluation` says where one of them
begins, and `Evaluation.Nests` tells which ones are nested in another.

What holds of an evaluation holds of all those nested in it when it is `Hereditary`.  For this the
answers that plans are given must stop ahead of where their questions start.  Remembered outcomes do
so because they are known by their keys, which tell the position and how much room there is.
-/

namespace Peg

variable {o : Options} {n depth : Nat} {p q : Pattern} {f f' : Focus} {g : Grammar}
variable {rule : String} {k l : Key} {r : Outcome} {st st' : Progress}

/-! ### Acceptable memories -/

/-- The number of characters that remain at a position of a place; in an object there are none. -/
def Place.room : Place → Nat → Nat
  | .text s, pos => s.length - pos
  | .object _, _ => 0

theorem Focus.place_room (f : Focus) :
  f.place.room f.pos = f.room
  := by
  by_cases hs : ∃ s, f.subject = .text s
  · obtain ⟨s, hs⟩ := hs
    rw [Focus.place_text hs]
    simp only [Place.room, Focus.room, hs]
  · rw [Focus.place_object hs]
    simp only [Place.room, Focus.room]
    split
    · next s hs' => cases hs ⟨s, hs'⟩
    · rfl

theorem Place.room_congr {a b : Place} (h : a.same b = true) (pos : Nat) :
  a.room pos = b.room pos
  := by
  cases a <;> cases b <;> simp only [same, Bool.false_eq_true] at h
  · rw [beq_iff_eq.1 h]
  · rfl

/-- An outcome is acceptable for a key: a success stops ahead of where the application starts. -/
def Key.Accepts (k : Key) (r : Outcome) : Prop :=
  ∀ s ∈ r, k.pos ≤ s.stop ∧ s.stop ≤ k.pos + k.place.room k.pos

theorem Focus.key_accepts_iff (g : Grammar) (rule : String) :
  (f.key g rule).Accepts r ↔ f.Accepts r
  := by
  simp only [Key.Accepts, Focus.key, Focus.place_room, Focus.Accepts, Focus.Ahead]

theorem Key.Accepts.congr (h : k.Accepts r) (hkl : k.same l = true) :
  l.Accepts r
  := by
  obtain ⟨-, -, hplace, hpos⟩ := Key.same_iff.1 hkl
  rw [Key.Accepts, ← hpos, ← Place.room_congr hplace]
  apply h

/-- Every remembered outcome is acceptable for its key. -/
def Progress.Acceptable (st : Progress) : Prop :=
  ∀ e ∈ st.memo, e.1.Accepts e.2

namespace Progress.Acceptable

/-- At the start nothing is remembered. -/
theorem start :
  ({} : Progress).Acceptable
  := List.forall_mem_nil _

theorem recalled (h : st.Acceptable) (hr : recalled? o st (f.key g rule) = some r) :
  f.Accepts r
  := by
  obtain ⟨e, he, hsame, rfl⟩ := recalled?_eq_some hr
  have haccepts := (h e he).congr hsame
  apply (Focus.key_accepts_iff g rule).1 haccepts

theorem complete (h : st.Acceptable) (memoize : Bool) (hr : k.Accepts r) :
  (st.complete memoize k r).Acceptable
  := by
  intro e he
  simp only [Progress.complete] at he
  split at he
  · rcases List.mem_cons.1 he with rfl | he
    · apply hr
    · apply h e he
  · apply h e he

end Progress.Acceptable

/-! ### What is handed on -/

/-- A property of patterns and their foci that an evaluation hands on to those inside it: to those
that it asks for, and to the bodies of the rules that it applies. -/
structure Hereditary (V : Pattern → Focus → Prop) : Prop where
  evaluate {p q : Pattern} {f f' : Focus} :
    V p f → p.Asks f (.evaluate q f') → V q f'
  body {p body : Pattern} {g : Grammar} {rule : String} {f f' : Focus} :
    V p f → p.Asks f (.apply g rule f') → g.rule? rule = some body → V body (f'.inScope g)

/-- What holds everywhere is handed on. -/
theorem Hereditary.anything :
  Hereditary fun _ _ => True
  := ⟨fun _ _ => trivial, fun _ _ _ => trivial⟩

/-- A result as it should be: an outcome that is acceptable at a focus, with an acceptable memory,
or a fault; and only given rules are found to be undefined. -/
def Run.Lawful (f : Focus) (missing : String → Prop) :
    EStateM.Result Fault Progress Outcome → Prop :=
  Run.Ends (fun r st => f.Accepts r ∧ st.Acceptable)
    fun e _ => ∀ name site, e = .undefinedRule name site → missing name

section Lawful

variable {V : Pattern → Focus → Prop} {missing : String → Prop} {ev : Evaluator}

/-- The application of a rule is lawful when the rule may be missing if it is, and the evaluation of
its body is lawful. -/
theorem applyRule_lawful (hst : st.Acceptable) (hmissing : g.rule? rule = none → missing rule)
    (hbody : ∀ body, g.rule? rule = some body →
      Run.Lawful (f.inScope g) missing (ev body (f.inScope g) (st.begin (f.key g rule)))) :
  Run.Lawful f missing (applyRule o ev g rule f st)
  := by
  have happ := applyRule_application o ev g rule f st
  generalize applyRule o ev g rule f st = x at happ ⊢
  cases happ with
  | recalled hr => exact ⟨hst.recalled hr, hst⟩
  | active _ _ =>
    intro name site he
    cases he
  | undefined _ _ hrule =>
    intro name site he
    cases he
    apply hmissing hrule
  | @body body _ _ hrule =>
    have hrun := hbody body hrule
    cases hb : ev body (f.inScope g) (st.begin (f.key g rule)) with
    | error e st' =>
      rw [hb] at hrun
      rw [evalBody_error hb]
      apply hrun
    | ok r st' =>
      rw [hb] at hrun
      rw [evalBody_ok hb]
      use hrun.1
      apply hrun.2.complete
      apply (Focus.key_accepts_iff g rule).2 hrun.1

/-- A run is lawful, where those rules may be missing that an evaluation with a hereditary property
refers to with no such rule in scope. -/
theorem Pattern.eval_lawful (hV : Hereditary V)
    (happly : ∀ {p f g rule f'}, V p f → p.Asks f (.apply g rule f') → g.rule? rule = none →
      missing rule)
    (href : ∀ {f name}, V (.ruleRef name) f → f.scope = none → missing name)
    (hp : V p f) (hst : st.Acceptable) :
  Run.Lawful f missing (eval o n depth p f st)
  := by
  induction n generalizing depth p f st with
  | zero =>
    intro name site he
    cases he
  | succ n ih =>
    rw [eval_succ]
    cases hc : brokenCeiling? o (st.steps + 1) depth with
    | some e =>
      -- the fault of a ceiling is not that of an undefined rule
      rintro name site rfl
      cases isCeiling_of_broken hc
    | none =>
      have henter : (st.enter f depth).Acceptable := hst
      apply (p.plan_keeps f).run henter
      · intro q st hq hst
        cases q with
        | evaluate q f' => apply ih (hV.evaluate hp hq) hst
        | apply g rule f' =>
          apply applyRule_lawful hst (happly hp hq)
          intro body hbody
          apply ih (hV.body hp hq hbody)
          apply hst
      · rintro e st' ⟨name, rfl, hscope, rfl⟩ - name' site he
        cases he
        apply href hp hscope

end Lawful

/-- Where any rule may be missing, every run is lawful. -/
theorem Pattern.eval_acceptable (hst : st.Acceptable) :
  Run.Lawful f (fun _ => True) (eval o n depth p f st)
  := by
  apply eval_lawful .anything
  · exact fun _ _ _ => trivial
  · exact fun _ _ => trivial
  · trivial
  · apply hst

theorem Question.answer_acceptable {q : Question} (hst : st.Acceptable) :
  Run.Lawful q.focus (fun _ => True) (q.answer o (Pattern.eval o n depth) st)
  := by
  cases q with
  | evaluate p f => apply Pattern.eval_acceptable hst
  | apply g rule f =>
    apply applyRule_lawful hst fun _ => trivial
    intro body _
    apply Pattern.eval_acceptable
    apply hst

/-- The outcome of a run is acceptable where the run starts, and memories stay acceptable. -/
theorem Pattern.eval_accepts (hst : st.Acceptable) (h : eval o n depth p f st = .ok r st') :
  f.Accepts r ∧ st'.Acceptable
  := by
  have hlawful : Run.Lawful f (fun _ => True) (eval o n depth p f st) := eval_acceptable hst
  rw [h] at hlawful
  apply hlawful

/-- Answers to questions are acceptable too. -/
theorem Question.answer_accepts {q : Question} (hst : st.Acceptable)
    (h : q.answer o (Pattern.eval o n depth) st = .ok r st') :
  q.focus.Accepts r ∧ st'.Acceptable
  := by
  have hlawful : Run.Lawful q.focus (fun _ => True) (q.answer o (Pattern.eval o n depth) st) :=
    answer_acceptable hst
  rw [h] at hlawful
  apply hlawful

/-! ### Questions posed -/

/-- While a plan is carried out, a question is posed with the progress made by then. -/
inductive Plan.Poses {α : Type} (answer : Question → Run Outcome) :
    Plan α → Progress → Question → Progress → Prop where
  | first {q : Question} {next : Outcome → Plan α} {st : Progress} :
    Poses answer (.ask q next) st q st
  | later {q q' : Question} {next : Outcome → Plan α} {r : Outcome} {st st₁ st' : Progress} :
    answer q st = .ok r st₁ → Poses answer (next r) st₁ q' st' →
      Poses answer (.ask q next) st q' st'

section Poses

variable {α : Type} {answer : Question → Run Outcome} {x : Plan α} {a : Question}

/-- A plan that keeps to terms poses only questions that they allow, as long as the answers are
allowed, and then a property of the progress is kept. -/
theorem Plan.Keeps.poses {t : Terms} {P : α → Prop} {I : Progress → Prop} (hx : x.Keeps t P)
    (h : x.Poses answer st a st') (hst : I st)
    (hanswer : ∀ q st r st', I st → answer q st = .ok r st' → t.answers q r ∧ I st') :
  t.asks a ∧ I st'
  := by
  induction h with
  | first => exact ⟨hx.1, hst⟩
  | later hr _ ih =>
    obtain ⟨hallowed, hst'⟩ := hanswer _ _ _ _ hst hr
    apply ih (hx.2 _ hallowed) hst'

/-- Visits made while a plan is carried out are made while one of its questions is answered. -/
theorem Plan.exists_poses {N : Question → Progress → Visit → Prop} {v : Visit}
    (hanswer : ∀ q st, v ∈ (Run.finish (answer q st)).visits → v ∈ st.visits ∨ N q st v)
    (h : v ∈ (Run.finish (x.run answer st)).visits) :
  v ∈ st.visits ∨ ∃ q st', x.Poses answer st q st' ∧ N q st' v
  := by
  induction x generalizing st with
  | done a =>
    left
    apply h
  | stop e =>
    left
    apply h
  | ask q next ih =>
    have hfirst : v ∈ (Run.finish (answer q st)).visits →
        v ∈ st.visits ∨ ∃ q' st', (Plan.ask q next).Poses answer st q' st' ∧ N q' st' v := by
      intro hv
      rcases hanswer q st hv with hv | hv
      · exact .inl hv
      · exact .inr ⟨q, st, .first, hv⟩
    rw [run_ask] at h
    cases hq : answer q st with
    | error e st₁ =>
      rw [hq] at h hfirst
      apply hfirst h
    | ok r st₁ =>
      rw [hq] at h hfirst
      rcases ih r h with hv | ⟨q', st', hposes, hv⟩
      · apply hfirst hv
      · exact .inr ⟨q', st', .later hq hposes, hv⟩

end Poses

/-! ### Nested evaluations -/

/-- An evaluation that is about to be entered, at a depth and with the progress made by then.  At
most `nesting` evaluations may nest in it, itself included. -/
structure Evaluation where
  nesting : Nat
  depth : Nat
  pattern : Pattern
  focus : Focus
  progress : Progress

namespace Evaluation

/-- What an evaluation comes to. -/
def result (o : Options) (e : Evaluation) : EStateM.Result Fault Progress Outcome :=
  e.pattern.eval o e.nesting e.depth e.focus e.progress

/-- An evaluation begins another one: the one that its plan asks for, or the one of the body of a
rule that its plan applies. -/
inductive Begins (o : Options) : Evaluation → Evaluation → Prop where
  | part {n depth : Nat} {p q : Pattern} {f f' : Focus} {st st' : Progress} :
    Pattern.brokenCeiling? o (st.steps + 1) depth = none →
    (p.plan f).Poses (Question.answer o (Pattern.eval o n (depth + 1))) (st.enter f depth)
      (.evaluate q f') st' →
    Begins o ⟨n + 1, depth, p, f, st⟩ ⟨n, depth + 1, q, f', st'⟩
  | body {n depth : Nat} {p body : Pattern} {g : Grammar} {rule : String} {f f' : Focus}
      {st st' : Progress} :
    Pattern.brokenCeiling? o (st.steps + 1) depth = none →
    (p.plan f).Poses (Question.answer o (Pattern.eval o n (depth + 1))) (st.enter f depth)
      (.apply g rule f') st' →
    recalled? o st' (f'.key g rule) = none → st'.isActive (f'.key g rule) = false →
    g.rule? rule = some body →
    Begins o ⟨n + 1, depth, p, f, st⟩
      ⟨n, depth + 1, body, f'.inScope g, st'.begin (f'.key g rule)⟩

/-- The evaluations nested in one: itself, those that it begins, those that these begin, and so
on. -/
def Nests (o : Options) : Evaluation → Evaluation → Prop :=
  Relation.ReflTransGen (Begins o)

/-- What an evaluation poses while it is carried out it may ask, and memories stay acceptable. -/
theorem asks_of_poses {a : Question} (hst : st.Acceptable)
    (h : (p.plan f).Poses (Question.answer o (Pattern.eval o n (depth + 1))) (st.enter f depth) a
      st') :
  p.Asks f a ∧ st'.Acceptable
  := by
  have henter : (st.enter f depth).Acceptable := hst
  apply (p.plan_keeps f).poses h henter
  intro q st r st' hst hr
  apply Question.answer_accepts hst hr

variable {V : Pattern → Focus → Prop} {e e' : Evaluation}

/-- A hereditary property is handed on to an evaluation that is begun. -/
theorem Begins.hereditary (hV : Hereditary V) (h : Begins o e e') (he : V e.pattern e.focus)
    (hst : e.progress.Acceptable) :
  V e'.pattern e'.focus ∧ e'.progress.Acceptable
  := by
  cases h with
  | part _ hposes =>
    obtain ⟨hasks, hst'⟩ := asks_of_poses hst hposes
    exact ⟨hV.evaluate he hasks, hst'⟩
  | body _ hposes _ _ hbody =>
    obtain ⟨hasks, hst'⟩ := asks_of_poses hst hposes
    exact ⟨hV.body he hasks hbody, hst'⟩

/-- A hereditary property is handed on to all evaluations nested in one that has it. -/
theorem Nests.hereditary (hV : Hereditary V) (h : Nests o e e') (he : V e.pattern e.focus)
    (hst : e.progress.Acceptable) :
  V e'.pattern e'.focus ∧ e'.progress.Acceptable
  := by
  induction h with
  | refl => exact ⟨he, hst⟩
  | tail _ hbegins ih => apply hbegins.hereditary hV ih.1 ih.2

/-- The visit that an evaluation makes when it is entered. -/
def visit (e : Evaluation) : Visit :=
  ⟨e.focus, e.depth, e.progress.active⟩

/-- Visits made by the application of a rule are made by an evaluation nested in that of its body,
if those made by evaluations are. -/
theorem exists_nested_of_mem_applyRule {v : Visit}
    (hev : ∀ {p f st}, v ∈ (Run.finish (Pattern.eval o n depth p f st)).visits →
      v ∈ st.visits ∨ ∃ e, Nests o ⟨n, depth, p, f, st⟩ e ∧ e.visit = v)
    (h : v ∈ (Run.finish (applyRule o (Pattern.eval o n depth) g rule f st)).visits) :
  v ∈ st.visits ∨ ∃ body, recalled? o st (f.key g rule) = none
    ∧ st.isActive (f.key g rule) = false ∧ g.rule? rule = some body
    ∧ ∃ e, Nests o ⟨n, depth, body, f.inScope g, st.begin (f.key g rule)⟩ e ∧ e.visit = v
  := by
  have happ := applyRule_application o (Pattern.eval o n depth) g rule f st
  generalize applyRule o (Pattern.eval o n depth) g rule f st = x at happ h
  cases happ with
  | recalled _ => exact .inl h
  | active _ _ => exact .inl h
  | undefined _ _ _ => exact .inl h
  | @body body hrecalled hactive hbody =>
    rw [(evalBody_finish _ _ _ _ _ _).1] at h
    rcases hev h with hv | hv
    · rw [Progress.visits_begin] at hv
      exact .inl hv
    · exact .inr ⟨body, hrecalled, hactive, hbody, hv⟩

/-- Every visit of a run is made by an evaluation nested in it. -/
theorem exists_nested_of_mem_visits {v : Visit} (h : v ∈ (Run.finish (e.result o)).visits) :
  v ∈ e.progress.visits ∨ ∃ e', Nests o e e' ∧ e'.visit = v
  := by
  obtain ⟨n, depth, p, f, st⟩ := e
  induction n generalizing depth p f st with
  | zero =>
    left
    apply h
  | succ n ih =>
    have henter : v ∈ (st.enter f depth).visits →
        v ∈ st.visits ∨ ∃ e', Nests o ⟨n + 1, depth, p, f, st⟩ e' ∧ e'.visit = v := by
      intro hv
      rw [Progress.visits_enter, List.mem_append, List.mem_singleton] at hv
      rcases hv with hv | rfl
      · exact .inl hv
      · exact .inr ⟨_, .refl, rfl⟩
    simp only [result] at h
    rw [Pattern.eval_succ] at h
    cases hc : Pattern.brokenCeiling? o (st.steps + 1) depth with
    | some e =>
      rw [hc] at h
      apply henter h
    | none =>
      rw [hc] at h
      have hposed := Plan.exists_poses (N := fun q st' v =>
        (p.plan f).Poses (Question.answer o (Pattern.eval o n (depth + 1))) (st.enter f depth) q
          st' → ∃ e', Nests o ⟨n + 1, depth, p, f, st⟩ e' ∧ e'.visit = v) ?_ h
      · rcases hposed with hv | ⟨q, st', hposes, hv⟩
        · apply henter hv
        · exact .inr (hv hposes)
      · intro q st' hv
        cases q with
        | evaluate q f' =>
          rcases ih _ _ _ _ hv with hv | ⟨e', hnests, hv⟩
          · exact .inl hv
          · exact .inr fun hposes => ⟨e', .head (.part hc hposes) hnests, hv⟩
        | apply g rule f' =>
          rcases exists_nested_of_mem_applyRule (fun hv => ih _ _ _ _ hv) hv with hv | hv
          · exact .inl hv
          · right
            intro hposes
            obtain ⟨body, hrecalled, hactive, hbody, e', hnests, hv⟩ := hv
            exact ⟨e', .head (.body hc hposes hrecalled hactive hbody) hnests, hv⟩

end Evaluation

/-- The evaluation that a match starts with. -/
def Matcher.evaluation (m : Matcher) (nesting : Nat) (subject : Value) (pos : Nat) :
    Evaluation :=
  ⟨nesting, 0, m.pattern, .start subject pos m.outer, {}⟩

namespace Matcher

variable {m : Matcher} {nesting pos : Nat} {subject : Value} {e : Evaluation}

/-- What is handed on by evaluations holds of all those in a match if it holds of the first one.
Memories are acceptable there. -/
theorem nests_hereditary {V : Pattern → Focus → Prop} (hV : Hereditary V)
    (hstart : V m.pattern (.start subject pos m.outer))
    (h : (m.evaluation nesting subject pos).Nests m.options e) :
  V e.pattern e.focus ∧ e.progress.Acceptable
  := by
  apply h.hereditary hV hstart
  intro e he
  cases he

/-- Every visit of a match is made by an evaluation in it. -/
theorem exists_nested_of_mem_visits {v : Visit}
    (h : v ∈ (m.runWithin nesting subject pos).progress.visits) :
  ∃ e, (m.evaluation nesting subject pos).Nests m.options e ∧ e.visit = v
  := by
  rw [runWithin, Run.record_progress] at h
  rcases Evaluation.exists_nested_of_mem_visits (e := m.evaluation nesting subject pos) h with
    hv | hv
  · cases hv
  · apply hv

end Matcher

end Peg
