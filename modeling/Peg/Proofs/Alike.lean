import Peg.Proofs.Copies

/-!
# Patterns that are alike

Patterns are alike when they have the same shape and their constants have the same content, which
leaves room: a constant may be a number or the truth value that it is alike to, or a dictionary with
its entries in another order.  `Pattern.Likened` says what that comes to for a pattern, given what
it comes to for the parts.

A pattern goes the same way as one alike to it, and its captures have the same names and values of
the same content, whether they are named anew or collected on the way.  So the same is told of the
matches of patterns that are alike, but for captured values, which are alike:
`Matcher.answers_agree_of_alike`.
-/

namespace Peg

variable {c : Comparison} {p p' : Pattern} {f f' : Focus} {g g' : Grammar} {rule : String}

/-! ### What agreement says of a pattern -/

/-- Two patterns of the same kind, with parts and constants that agree. -/
inductive Pattern.Likened (c : Comparison) : Pattern → Pattern → Prop where
  | same {p : Pattern} : Likened c p p
  | combination {p p' : Pattern} :
    p.Parallel (fun q q' => q.agrees c q' = true) p' → Likened c p p'
  | field {k k' : Selector} {v v' : Pattern} :
    k.Parallel (fun q q' => q.agrees c q' = true) k' → v.agrees c v' = true →
      Likened c (.field k v) (.field k' v')
  | span {p p' : Pattern} : p.agrees c p' = true → Likened c (.span p) (.span p')
  | const {v v' : Value} : v.agrees c v' = true → Likened c (.const v) (.const v')
  | group {p p' : Pattern} {name : String} :
    p.agrees c p' = true → Likened c (.group p name) (.group p' name)
  | collect {p p' : Pattern} : p.agrees c p' = true → Likened c (.collect p) (.collect p')

theorem Selector.parallel_of_agrees {k k' : Selector} (h : k.agrees c k' = true) :
  k.Parallel (fun q q' => q.agrees c q' = true) k'
  := by
  cases k <;> cases k' <;> simp only [agrees, beq_iff_eq, Bool.false_eq_true] at h
  case literal.literal key key' =>
    rw [h]
    apply Parallel.literal
  case pattern.pattern q q' => exact .pattern h

/-- Patterns that agree are of the same kind. -/
theorem Pattern.likened_of_agrees (h : p.agrees c p' = true) :
  p.Likened c p'
  := by
  revert h
  fun_cases agrees c p p' <;> intro h
  case case7 =>
    obtain ⟨hk, hv⟩ := Bool.and_eq_true_iff.1 h
    exact .field (Selector.parallel_of_agrees hk) hv
  case case8 =>
    obtain ⟨hp, hq⟩ := Bool.and_eq_true_iff.1 h
    exact .combination (.sequence hp hq)
  case case9 =>
    obtain ⟨hp, hq⟩ := Bool.and_eq_true_iff.1 h
    exact .combination (.choice hp hq)
  case case10 =>
    obtain ⟨hp, hbound⟩ := Bool.and_eq_true_iff.1 h
    rw [eq_of_beq hbound]
    exact .combination (.repetition hp)
  case case11 =>
    obtain ⟨hp, hq⟩ := Bool.and_eq_true_iff.1 h
    exact .combination (.difference hp hq)
  case case12 => exact .combination (.invert h)
  case case13 => exact .combination (.lookahead h)
  case case15 =>
    rw [(Grammar.agrees_iff _ _).1 h]
    exact .same
  case case16 => exact .span h
  case case17 => exact .const h
  case case18 => exact .same
  case case19 =>
    obtain ⟨hp, hname⟩ := Bool.and_eq_true_iff.1 h
    rw [eq_of_beq hname]
    exact .group hp
  case case20 => exact .collect h
  case case21 => cases h
  -- the other patterns have no parts, so they are equal
  all_goals
    rw [eq_of_beq h]
    exact .same

@[simp]
theorem Pattern.agrees_refl (p : Pattern) :
  p.agrees c p = true
  := Value.agrees_refl (.pattern p)

/-! ### Matches of patterns that agree -/

/-- Patterns that agree are evaluated at the same focus. -/
structure Pattern.AgreedEvaluation (c : Comparison) (p : Pattern) (f : Focus) (p' : Pattern)
    (f' : Focus) : Prop where
  pattern : p.agrees c p' = true
  focus : f = f'

/-- A rule of the same grammar is applied at the same focus. -/
structure Focus.SameApplication (g : Grammar) (f : Focus) (g' : Grammar) (f' : Focus) : Prop where
  grammar : g = g'
  focus : f = f'

/-- A pattern goes the same way as one that agrees with it, and its outcomes agree. -/
theorem Pattern.AgreedEvaluation.plan_corresponds (h : p.AgreedEvaluation c f p' f') :
  (p.plan f).Corresponds
    (Alongside.correspondence c
      (Question.Related (AgreedEvaluation c) fun _ => Focus.SameApplication))
    (Outcome.Agrees c) (p'.plan f')
  := by
  obtain ⟨hp, rfl⟩ := h
  have hparts : ∀ q q' f f', q.agrees c q' = true → f = f' →
      Question.Related (AgreedEvaluation c) (fun _ => Focus.SameApplication)
        (.evaluate q f) (.evaluate q' f') := fun q q' f f' hq hf => .evaluate ⟨hq, hf⟩
  cases likened_of_agrees hp with
  | same =>
    apply (p.plan_same f).imp
    · rintro q _ rfl
      cases q with
      | evaluate q f => exact .evaluate ⟨agrees_refl q, rfl⟩
      | apply g rule f => exact .apply ⟨rfl, rfl⟩
    · exact fun _ _ _ _ _ hr => hr
  | combination hq =>
    apply Resemblance.parallel_corresponds (R := Alongside.identity.abreast.resemblance c) hparts
      hq rfl
  | field hk hv =>
    apply Resemblance.field_corresponds (R := Alongside.identity.abreast.resemblance c) hparts hk hv
      rfl rfl
    exact fun _ _ => ⟨rfl, fun _ => rfl⟩
  | span hq =>
    apply Abreast.evaluate_corresponds (hparts _ _ _ _ hq rfl)
    intro s s' hs
    use hs.1
    rw [hs.1]
    exact .cons (Capture.Agrees.refl _) hs.2
  | const hv => apply Abreast.capturing (A := Alongside.identity.abreast) rfl hv
  | group hq =>
    apply Abreast.evaluate_corresponds (hparts _ _ _ _ hq rfl)
    exact fun s s' hs => ⟨hs.1, Capture.relabel_agrees _ hs.2⟩
  | collect hq =>
    apply Abreast.evaluate_corresponds (hparts _ _ _ _ hq rfl)
    exact fun s s' hs => ⟨hs.1, .cons (Capture.collect_agrees hs.2) .nil⟩

/-- A completed rule application, and the same one with an outcome that agrees. -/
def Key.SameCompletion (c : Comparison) (e e' : Key × Outcome) : Prop :=
  e.1 = e'.1 ∧ Outcome.Agrees c e.2 e'.2

/-- A match and that of a pattern that agrees, with the same grammars in scope. -/
def Pattern.agreedUnison (c : Comparison) : Unison where
  evaluations := AgreedEvaluation c
  applications _ := Focus.SameApplication
  comparison := c
  known _ _ := True
  histories := List.Forall₂ (Key.SameCompletion c)
  known_hereditary := .anything
  plan_corresponds _ h := h.plan_corresponds
  pos_eq h := congrArg Focus.pos h.focus
  body := by
    rintro rule g _ f _ ⟨rfl, rfl⟩
    cases g.rule? rule with
    | none => apply Option.Rel.none
    | some p => exact .some ⟨agrees_refl p, rfl⟩
  same_eq := by
    rintro rule rule₁ g _ g₁ _ f _ f₁ _ ⟨rfl, rfl⟩ ⟨rfl, rfl⟩
    rfl
  histories_nil := .nil
  histories_concat := by
    rintro rule g _ f _ r r' cs cs' ⟨rfl, rfl⟩ hr hcs
    exact List.rel_append hcs (.cons ⟨rfl, hr⟩ .nil)

/-! ### What is told of the matches -/

/-- What is told of two matches agrees: the outcomes agree or the fault is the same, and the number
of steps and the trace are the same. -/
structure Record.Agrees (c : Comparison) (r r' : Record) : Prop where
  outcome : Verdict.Agrees c r.outcome r'.outcome
  steps : r.progress.steps = r'.progress.steps
  trace : ∀ subject pos,
    Trace.printed subject pos r.outcome r.progress
      = Trace.printed subject pos r'.outcome r'.progress

/-- Two results of which both are outcomes that agree, or both are the same error. -/
inductive Answer.OutcomesAgree (c : Comparison) :
    Except Error Outcome → Except Error Outcome → Prop where
  | ok {r s : Outcome} : Outcome.Agrees c r s → OutcomesAgree c (.ok r) (.ok s)
  | error (e : Error) : OutcomesAgree c (.error e) (.error e)

/-- Two answers with outcomes that agree or the same error, and the same number of steps and the
same trace. -/
structure Answer.Agrees (c : Comparison) (a a' : Answer) : Prop where
  outcome : Answer.OutcomesAgree c a.outcome a'.outcome
  steps : a.steps = a'.steps
  trace : a.trace = a'.trace

namespace Trace

/-- Lines tell nothing of captured values. -/
theorem completed_agrees {key : Key} {r r' : Outcome} (h : Outcome.Agrees c r r') :
  completed key r = completed key r'
  := by
  cases h with
  | none => rfl
  | some h => simp only [completed, h.1]

theorem ended_agrees {r r' : Outcome} (h : Outcome.Agrees c r r') (steps : Nat) :
  ended r steps = ended r' steps
  := by
  cases h with
  | none => rfl
  | some h => simp only [ended, h.1, h.2.length_eq]

theorem map_completed_agrees {cs cs' : List (Key × Outcome)}
    (h : List.Forall₂ (Key.SameCompletion c) cs cs') :
  cs.map (fun e => completed e.1 e.2) = cs'.map (fun e => completed e.1 e.2)
  := by
  rw [← List.forall₂_eq_eq_eq, List.forall₂_map_left_iff, List.forall₂_map_right_iff]
  apply h.imp
  rintro ⟨key, r⟩ ⟨_, r'⟩ ⟨rfl, hr⟩
  apply completed_agrees hr

/-- The same is printed of runs that completed the same, with outcomes that agree. -/
theorem printed_agrees {x x' : Except Fault Outcome} {st st' : Progress}
    (hx : Verdict.Agrees c x x') (hsteps : st.steps = st'.steps)
    (h : List.Forall₂ (Key.SameCompletion c) st.completions st'.completions) (subject : Value)
    (pos : Nat) :
  printed subject pos x st = printed subject pos x' st'
  := by
  simp only [printed, map_completed_agrees h]
  cases hx with
  | ok hr => simp only [ended_agrees hr, hsteps]
  | error e => rfl

end Trace

namespace Matcher

/-- Answers agree when what is told of the runs does. -/
theorem answer_agrees {m m' : Matcher} (hdebug : m.options.debug = m'.options.debug)
    (h : ∀ subject pos, (m.run subject pos).Agrees c (m'.run subject pos)) (subject start : Value) :
  (m.answer subject start).Agrees c (m'.answer subject start)
  := by
  simp only [answer, traceTold, hdebug]
  cases startPosition subject start with
  | error e => exact ⟨.error e, rfl, rfl⟩
  | ok pos =>
    obtain ⟨houtcome, hsteps, htrace⟩ := h subject pos
    have hlines := htrace subject pos
    simp only [Trace.lines, hlines, stepsTold, hsteps]
    generalize (m.run subject pos).outcome = x, (m'.run subject pos).outcome = x' at houtcome
    cases houtcome with
    | ok hr => exact ⟨.ok hr, rfl, rfl⟩
    | error e => exact ⟨.error _, rfl, rfl⟩

/-- Equal patterns match equally: whatever the outer grammar, the options and the subject are, two
patterns that are alike both fail, or both succeed, stop at the same position and have captures of
the same names with values that are alike, or both meet the same error.  They do so after as many
steps and with the same trace, however deeply evaluations may nest and from every start, also from
one that is refused. -/
theorem answers_agree_of_alike {p p' : Pattern} (h : p.alike p' = true) (outer : Option Grammar)
    (o : Options) (subject : Value) :
  (∀ nesting pos,
      (runWithin nesting ⟨p, outer, o⟩ subject pos).Agrees .alike
        (runWithin nesting ⟨p', outer, o⟩ subject pos))
    ∧ ∀ start, (answer ⟨p, outer, o⟩ subject start).Agrees .alike
        (answer ⟨p', outer, o⟩ subject start)
  := by
  have hruns : ∀ nesting subject pos,
      (runWithin nesting ⟨p, outer, o⟩ subject pos).Agrees .alike
        (runWithin nesting ⟨p', outer, o⟩ subject pos) := by
    intro nesting subject pos
    have hstart : p.AgreedEvaluation .alike (.start subject pos outer) p'
        (.start subject pos outer) := ⟨h, rfl⟩
    obtain ⟨hverdicts, hsteps, hhistory⟩ :=
      (Pattern.agreedUnison .alike).runWithin_alike o hstart trivial nesting
    exact ⟨hverdicts, hsteps, Trace.printed_agrees hverdicts hsteps hhistory⟩
  use fun nesting pos => hruns nesting subject pos
  have hanswers := @answer_agrees .alike ⟨p, outer, o⟩ ⟨p', outer, o⟩ rfl (hruns nestingLimit)
  apply hanswers subject

end Matcher

/-- A table of a letter and of a fixed value under the name `k`. -/
def letterWith (v : Value) : Pattern :=
  .collect (.sequence (.span (.anyChars 1)) (.group (.const v) "k"))

/-- A dictionary that holds a number and a list of a truth value. -/
def numberAndTruth : Value :=
  .dict [(.text "a", .int 1), (.int 0, .list [.bool true])]

/-- The same with a truth value for each number and a number for the truth value, in the other
order. -/
def truthAndNumber : Value :=
  .dict [(.bool false, .list [.int 1]), (.text "a", .bool true)]

/-- The values are told apart, and so are the captures, but they are alike. -/
theorem Matcher.answers_agree_of_alike_letterWith :
  (letterWith numberAndTruth).alike (letterWith truthAndNumber) = true
    ∧ numberAndTruth ≠ truthAndNumber
    ∧ (answer ⟨letterWith numberAndTruth, none, {}⟩ (.text "xy") (.int 0)).outcome.toOption
      = some (some ⟨1, [⟨.table [.text "x"] [(.text "k", numberAndTruth)], none⟩]⟩)
    ∧ (answer ⟨letterWith truthAndNumber, none, {}⟩ (.text "xy") (.int 0)).outcome.toOption
      = some (some ⟨1, [⟨.table [.text "x"] [(.text "k", truthAndNumber)], none⟩]⟩)
    ∧ (answer ⟨letterWith numberAndTruth, none, {}⟩ (.text "xy") (.int 0)).Agrees .alike
        (answer ⟨letterWith truthAndNumber, none, {}⟩ (.text "xy") (.int 0))
  := by
  have halike : (letterWith numberAndTruth).alike (letterWith truthAndNumber) = true := by decide
  refine ⟨halike, by decide, by decide, by decide, ?_⟩
  exact (answers_agree_of_alike halike none {} (.text "xy")).2 (.int 0)

end Peg
