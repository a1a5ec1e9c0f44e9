import Peg.Proofs.Derivation.Soundness

/-!
# Completeness of derivations

Every outcome on which a pattern settles can be derived for it.  The plan of a pattern is followed
with answers that can be derived, and its result is then derived by one of the rules: this is
`Pattern.plan_derives`.
-/

namespace Peg

variable {p : Pattern} {f : Focus} {n m : Nat} {s : Success} {r : Outcome}

/-- The outcomes that can be derived for a question. -/
def Question.Yields : Question → Outcome → Prop
  | .evaluate p f, r => p.Yields f r
  | .apply g rule f, r => ∃ body, g.rule? rule = some body ∧ body.Yields (f.inScope g) r

/-- The terms under which answers can be derived, and stop ahead of where their questions start. -/
def derivable : Terms where
  asks _ := True
  answers q r := q.Yields r ∧ q.focus.Accepts r
  stops _ := True

/-! ### Repetitions -/

theorem Focus.map_stay_after (f : Focus) (r : Outcome) :
  r.map f.stay.after = r
  := by
  cases r <;> rfl

theorem Focus.map_after_map_after (s t : Success) (r : Outcome) :
  (r.map t.after).map s.after = r.map (s.after t).after
  := by
  cases r with
  | none => rfl
  | some u => simp [Success.after]

theorem repeatExactly_derives (n : Nat) (f : Focus) :
  (repeatExactly p n f).Keeps derivable fun
    | none => (Pattern.repetition p (.atLeast n)).Yields f none
    | some s => ∀ r, (Pattern.repetition p (.atLeast 0)).Yields (f.moveTo s.stop) r →
      (Pattern.repetition p (.atLeast n)).Yields f (r.map s.after)
  := by
  induction n generalizing f with
  | zero =>
    intro r hr
    rw [Focus.map_stay_after]
    apply hr
  | succ n ih =>
    apply Plan.evaluate_keeps trivial
    intro r hr
    cases r with
    | none => apply Pattern.Yields.tooFew hr.1
    | some s =>
      apply (ih (f.moveTo s.stop)).bind
      intro r' hr'
      cases r' with
      | none => apply Pattern.Yields.counted hr.1 hr'
      | some t =>
        intro u hu
        have h := Pattern.Yields.counted hr.1 (hr' u hu)
        rw [Focus.map_after_map_after] at h
        apply h

theorem repeatGreedily_derives (room : Nat) (f : Focus) (hroom : f.room ≤ room) :
  (repeatGreedily p room f).Keeps derivable fun s =>
    (Pattern.repetition p (.atLeast 0)).Yields f (some s)
  := by
  induction room generalizing f with
  | zero =>
    rw [repeatGreedily]
    apply Plan.evaluate_keeps trivial
    rintro r ⟨hr, hahead⟩
    cases r with
    | none => apply Pattern.Yields.exhausted hr
    | some s =>
      obtain ⟨h₁, h₂⟩ := Focus.accepts_some.1 hahead
      dsimp only [Question.focus] at h₁ h₂
      have hstop : s.stop = f.pos := by omega
      simp only [hstop, if_true]
      apply Pattern.Yields.idle hr hstop
  | succ room ih =>
    rw [repeatGreedily]
    apply Plan.evaluate_keeps trivial
    rintro r ⟨hr, hahead⟩
    cases r with
    | none => apply Pattern.Yields.exhausted hr
    | some s =>
      dsimp only
      split
      · next hstop => apply Pattern.Yields.idle hr hstop
      · next hstop =>
        have hlt := Focus.room_moveTo_lt (Focus.accepts_some.1 hahead) hstop
        dsimp only [Question.focus] at hlt
        apply (ih (f.moveTo s.stop) (by omega)).bind
        intro t ht
        apply Pattern.Yields.again hr hstop ht

theorem repeatUpTo_derives (n : Nat) (f : Focus) :
  (repeatUpTo p n f).Keeps derivable fun s =>
    (Pattern.repetition p (.atMost n)).Yields f (some s)
  := by
  induction n generalizing f with
  | zero => apply Pattern.Yields.full
  | succ n ih =>
    apply Plan.evaluate_keeps trivial
    intro r hr
    cases r with
    | none => apply Pattern.Yields.enough hr.1
    | some s =>
      apply (ih (f.moveTo s.stop)).bind
      intro t ht
      apply Pattern.Yields.further hr.1 ht

theorem repeated_derives (p : Pattern) (f : Focus) (bound : Bound) :
  (repeated p f bound).Keeps derivable ((Pattern.repetition p bound).Yields f)
  := by
  cases bound with
  | atLeast n =>
    apply (repeatExactly_derives n f).bind
    intro r hr
    cases r with
    | none => apply hr
    | some s =>
      apply (repeatGreedily_derives _ (f.moveTo s.stop) (Nat.le_refl _)).bind
      intro t ht
      apply hr _ ht
  | atMost n =>
    apply (repeatUpTo_derives n f).bind
    intro s hs
    apply hs

/-! ### Fields -/

theorem matchField_derives (key value : Value) :
  (matchField p f key value).Keeps derivable fun r =>
    ∃ v, p.Yields (f.inField key value) v ∧ r = v.map fun s => ⟨f.pos, s.captures⟩
  := by
  apply Plan.evaluate_keeps trivial
  intro v hv
  cases v with
  | none => exact ⟨none, hv.1, rfl⟩
  | some s => exact ⟨some s, hv.1, rfl⟩

/-- What is derived from the fields that are left, when no field before them matches. -/
theorem scanFields_derives {k : Pattern} {before after : List (Value × Value)}
    (hf : f.subject.fields? = some (before ++ after))
    (hbefore : ∀ e ∈ before, ∃ r, k.Yields (f.inKey e.1) r
      ∧ (r ≠ none → p.Yields (f.inField e.1 e.2) none)) :
  (scanFields k p f after).Keeps derivable ((Pattern.field (.pattern k) p).Yields f)
  := by
  induction after generalizing before with
  | nil =>
    rw [List.append_nil] at hf
    choose! keys hkeys hvalues using hbefore
    apply Pattern.Yields.noField hf hkeys hvalues
  | cons e after ih =>
    have passed : ∀ r, k.Yields (f.inKey e.1) r →
        (r ≠ none → p.Yields (f.inField e.1 e.2) none) →
        (scanFields k p f after).Keeps derivable ((Pattern.field (.pattern k) p).Yields f) := by
      intro r hr hv
      have hf' : f.subject.fields? = some (before ++ [e] ++ after) := by
        rw [hf, List.append_assoc]
        rfl
      apply ih hf'
      intro e' he'
      rcases List.mem_append.1 he' with he' | he'
      · apply hbefore e' he'
      · obtain rfl := List.mem_singleton.1 he'
        use r
    apply Plan.evaluate_keeps trivial
    rintro r ⟨hr, _⟩
    cases r with
    | none =>
      apply passed none hr
      intro h
      cases h rfl
    | some s =>
      apply (matchField_derives e.1 e.2).bind
      rintro _ ⟨v, hv, rfl⟩
      cases v with
      | none =>
        apply passed _ hr
        intro _
        apply hv
      | some t =>
        choose! keys hkeys hvalues using hbefore
        have h := Pattern.Yields.firstField hf hkeys hvalues hr hv
        apply h

/-! ### Patterns -/

namespace Pattern

/-- What a plan comes to is derived from the answers to its questions. -/
theorem plan_derives (p : Pattern) (f : Focus) :
  (p.plan f).Keeps derivable (p.Yields f)
  := by
  have test : p.isTest = true → (p.plan f).Keeps derivable (p.Yields f) := by
    intro hp
    by_cases h : ∃ n, p.Consumes f n
    · obtain ⟨n, h⟩ := h
      rw [plan_of_consumes h]
      apply Pattern.Yields.pass h
    · have h := not_exists.1 h
      rw [plan_of_not_consumes hp h]
      apply Pattern.Yields.refuse hp h
  cases p with
  | literal t => apply test rfl
  | truth b => apply test rfl
  | anyChars n => apply test rfl
  | fewerThan n => apply test rfl
  | charSet s => apply test rfl
  | charRange rs => apply test rfl
  | field k v =>
    cases k with
    | literal name =>
      simp only [plan, matchSelected]
      split
      · next h => apply Pattern.Yields.absent h
      · next value h =>
        apply (matchField_derives name.value value).imp
        rintro _ ⟨r, hr, rfl⟩
        apply Pattern.Yields.present h hr
    | pattern selector =>
      simp only [plan, matchSelected]
      split
      · next h => apply Pattern.Yields.fieldless h
      · next fields h =>
        have hf : f.subject.fields? = some ([] ++ fields) := h
        apply scanFields_derives hf
        simp
  | sequence p q =>
    apply Plan.evaluate_keeps trivial
    intro r hr
    cases r with
    | none => apply Pattern.Yields.broken hr.1
    | some s =>
      apply Plan.evaluate_keeps trivial
      intro r' hr'
      apply Pattern.Yields.sequence hr.1 hr'.1
  | choice p q =>
    apply Plan.evaluate_keeps trivial
    intro r hr
    cases r with
    | none => use trivial, fun r' hr' => .second hr.1 hr'.1
    | some s => apply Pattern.Yields.first hr.1
  | repetition p bound => apply repeated_derives
  | difference p q =>
    apply Plan.evaluate_keeps trivial
    intro r hr
    cases r with
    | none => use trivial, fun r' hr' => .difference hr.1 hr'.1
    | some s => apply Pattern.Yields.excluded hr.1
  | invert p =>
    apply Plan.evaluate_keeps trivial
    intro r hr
    cases r with
    | none => apply Pattern.Yields.invert hr.1
    | some s => apply Pattern.Yields.invertFails hr.1
  | lookahead p =>
    apply Plan.evaluate_keeps trivial
    intro r hr
    cases r with
    | none => apply Pattern.Yields.lookaheadFails hr.1
    | some s => apply Pattern.Yields.lookahead hr.1
  | ruleRef name =>
    simp only [plan]
    split
    · trivial
    · next g hg =>
      use trivial
      rintro r ⟨⟨body, hbody, hr⟩, _⟩
      rw [Focus.inScope_of_scope hg] at hr
      apply Pattern.Yields.ruleRef hg hbody hr
  | grammar g =>
    simp only [plan, matchRoot]
    split
    · next name hg =>
      use trivial
      rintro r ⟨⟨body, hbody, hr⟩, _⟩
      have hroot : g.rootPattern? = some body := by simp only [Grammar.rootPattern?, hg, hbody]
      apply Pattern.Yields.grammar hroot hr
    · next q hg =>
      use trivial
      intro r hr
      have hroot : g.rootPattern? = some q := by simp only [Grammar.rootPattern?, hg]
      apply Pattern.Yields.grammar hroot hr.1
  | span p =>
    apply Plan.evaluate_keeps trivial
    exact fun r hr => .span hr.1
  | const v => apply Pattern.Yields.const
  | position => apply Pattern.Yields.position
  | group p name =>
    apply Plan.evaluate_keeps trivial
    exact fun r hr => .group hr.1
  | collect p =>
    apply Plan.evaluate_keeps trivial
    exact fun r hr => .collect hr.1

theorem yields_of_unguarded (h : p.unguarded n f = .ok r) :
  p.Yields f r
  := by
  induction n generalizing p f r with
  | zero => cases h
  | succ n ih =>
    apply (p.plan_derives f).of_run _ h
    intro q r _ hq
    constructor
    · cases q with
      | evaluate q g => apply ih hq
      | apply g rule g' =>
        obtain ⟨body, hbody, hq⟩ := Question.resolve_apply_eq_ok_iff.1 hq
        use body, hbody
        apply ih hq
    · apply Question.accepts_of_resolve hq

/-- The outcomes that can be derived are those on which a pattern settles. -/
theorem yields_iff_settles :
  p.Yields f r ↔ p.Settles f r
  := by
  constructor
  · apply settles_of_yields
  · rintro ⟨n, h⟩
    apply yields_of_unguarded h

end Pattern

end Peg
