import Peg.Proofs.Derivation

/-!
# Soundness of derivations

A pattern settles on every outcome that can be derived for it.  Most rules read off one step of a
plan.  Those of repetitions do not, for a repetition is carried out by two loops, one that counts
its matches and one that does not.  So it is shown first what one more match in front of a
repetition comes to.
-/

namespace Peg

variable {p : Pattern} {f : Focus} {n m : Nat} {s : Success} {r : Outcome}

/-! ### Repetitions -/

/-- A repetition which has more room than there is comes to the same. -/
theorem repeatGreedily_settles (hn : f.room ≤ n) (hm : f.room ≤ m)
    (h : (repeatGreedily p n f).Settles s) :
  (repeatGreedily p m f).Settles s
  := by
  induction n generalizing m f s with
  | zero =>
    rw [repeatGreedily, Plan.settles_bind_iff] at h ⊢
    obtain ⟨r, hr, h⟩ := h
    use r, hr
    cases r with
    | none => apply h
    | some t =>
      have ht := Focus.accepts_some.1 (Pattern.accepts_of_settles (Plan.settles_evaluate_iff.1 hr))
      have hstop : t.stop = f.pos := by
        obtain ⟨h₁, h₂⟩ := ht
        omega
      simpa [hstop] using h
  | succ n ih =>
    rw [repeatGreedily, Plan.settles_bind_iff] at h ⊢
    obtain ⟨r, hr, h⟩ := h
    use r, hr
    cases r with
    | none => apply h
    | some t =>
      have ht := Focus.accepts_some.1 (Pattern.accepts_of_settles (Plan.settles_evaluate_iff.1 hr))
      dsimp only at h ⊢
      split
      · next hstop =>
        rw [if_pos hstop] at h
        apply h
      · next hstop =>
        rw [if_neg hstop] at h
        have hlt := Focus.room_moveTo_lt ht hstop
        cases m with
        | zero => omega
        | succ m =>
          rw [Plan.settles_bind_iff] at h ⊢
          obtain ⟨rest, hrest, h⟩ := h
          use rest
          constructor
          · apply ih _ _ hrest <;> omega
          · apply h

/-- One more match is counted before a repetition with a least number. -/
theorem repetition_settles_counted (hs : p.Settles f (some s))
    (h : (Pattern.repetition p (.atLeast n)).Settles (f.moveTo s.stop) r) :
  (Pattern.repetition p (.atLeast (n + 1))).Settles f (r.map s.after)
  := by
  rw [Pattern.settles_iff_plan] at h ⊢
  obtain ⟨u, hu, h⟩ := Plan.settles_bind_iff.1 h
  apply Plan.settles_bind_iff.2
  use u.map s.after
  constructor
  · apply Plan.Settles.evaluate hs
    apply Plan.settles_bind_iff.2
    use u, hu
    apply Plan.settles_done
  · cases u with
    | none =>
      obtain rfl := Plan.settles_done_iff.1 h
      apply Plan.settles_done
    | some t =>
      obtain ⟨rest, hrest, h⟩ := Plan.settles_bind_iff.1 h
      obtain rfl := Plan.settles_done_iff.1 h
      apply Plan.settles_bind_iff.2
      use rest, hrest
      apply Plan.settles_done_iff.2
      simp [Success.after]

/-- A repetition without a least number is a greedy one. -/
theorem repetition_settles_greedy_iff :
  (Pattern.repetition p (.atLeast 0)).Settles f r
    ↔ ∃ s, (repeatGreedily p f.room f).Settles s ∧ r = some s
  := by
  rw [Pattern.settles_iff_plan]
  have hplan : (Pattern.repetition p (.atLeast 0)).plan f
      = (repeatGreedily p f.room f >>= fun rest => pure (some (f.stay.after rest))) := rfl
  rw [hplan, Plan.settles_bind_iff]
  simp only [Plan.pure_eq, Plan.settles_done_iff]
  rfl

/-- One more match is made before a greedy repetition. -/
theorem repetition_settles_again (hs : p.Settles f (some s)) (hstop : s.stop ≠ f.pos)
    (h : (Pattern.repetition p (.atLeast 0)).Settles (f.moveTo s.stop) r) :
  (Pattern.repetition p (.atLeast 0)).Settles f (r.map s.after)
  := by
  obtain ⟨t, ht, rfl⟩ := repetition_settles_greedy_iff.1 h
  have hahead := Focus.accepts_some.1 (Pattern.accepts_of_settles hs)
  have hlt := Focus.room_moveTo_lt hahead hstop
  obtain ⟨room, hroom⟩ : ∃ room, f.room = room + 1 := Nat.exists_eq_add_one.2 (by omega)
  apply repetition_settles_greedy_iff.2
  refine ⟨s.after t, ?_, rfl⟩
  rw [hroom, repeatGreedily]
  apply Plan.Settles.evaluate hs
  dsimp only
  rw [if_neg hstop]
  apply Plan.settles_bind_iff.2
  use t
  constructor
  · apply repeatGreedily_settles _ _ ht <;> omega
  · apply Plan.settles_done

/-- One more match is made before a repetition with a greatest number. -/
theorem repetition_settles_further (hs : p.Settles f (some s))
    (h : (Pattern.repetition p (.atMost n)).Settles (f.moveTo s.stop) r) :
  (Pattern.repetition p (.atMost (n + 1))).Settles f (r.map s.after)
  := by
  rw [Pattern.settles_iff_plan] at h ⊢
  obtain ⟨t, ht, h⟩ := Plan.settles_bind_iff.1 h
  obtain rfl := Plan.settles_done_iff.1 h
  apply Plan.settles_bind_iff.2
  use s.after t
  constructor
  · apply Plan.Settles.evaluate hs
    apply Plan.settles_bind_iff.2
    use t, ht
    apply Plan.settles_done
  · apply Plan.settles_done

/-- A grammar settles on what the pattern of its root settles on. -/
theorem grammar_settles {g : Grammar} {root : Pattern} (hroot : g.rootPattern? = some root)
    (h : root.Settles (f.inScope g) r) :
  (Pattern.grammar g).Settles f r
  := by
  have hplan : (Pattern.grammar g).plan f = matchRoot g f := rfl
  rw [Pattern.settles_iff_plan, hplan]
  rw [matchRoot]
  rw [Grammar.rootPattern?] at hroot
  cases hg : g.root with
  | rule name =>
    rw [hg] at hroot
    apply Plan.settles_apply_iff.2
    apply Question.settles_apply_iff.2
    use root, hroot
  | inline q =>
    rw [hg] at hroot
    cases hroot
    apply Plan.settles_evaluate_iff.2 h

/-! ### Fields -/

theorem matchField_settles {key value : Value} (h : p.Settles (f.inField key value) r) :
  (matchField p f key value).Settles (r.map fun s => ⟨f.pos, s.captures⟩)
  := by
  apply Plan.Settles.evaluate h
  cases r with
  | none => apply Plan.settles_done
  | some s => apply Plan.settles_done

/-- Fields are passed over whose keys or values do not match. -/
theorem scanFields_settles {k : Pattern} {before after : List (Value × Value)}
    {keys : Value × Value → Outcome} (hkeys : ∀ e ∈ before, k.Settles (f.inKey e.1) (keys e))
    (hvalues : ∀ e ∈ before, keys e ≠ none → p.Settles (f.inField e.1 e.2) none)
    (h : (scanFields k p f after).Settles r) :
  (scanFields k p f (before ++ after)).Settles r
  := by
  induction before with
  | nil => apply h
  | cons e before ih =>
    have hrest := ih (fun e he => hkeys e (List.mem_cons_of_mem _ he))
      (fun e he => hvalues e (List.mem_cons_of_mem _ he))
    apply Plan.Settles.evaluate (hkeys e List.mem_cons_self)
    cases hk : keys e with
    | none => apply hrest
    | some s =>
      have hv := hvalues e List.mem_cons_self (by simp [hk])
      apply Plan.settles_bind_iff.2
      use none
      constructor
      · apply matchField_settles hv
      · apply hrest

/-! ### Patterns -/

namespace Pattern

/-- A pattern settles as soon as its first question settles, when nothing else is to be asked. -/
theorem settles_of_first {q : Pattern} {g : Focus} {next : Outcome → Plan Outcome} {t : Outcome}
    (hplan : p.plan f = Plan.evaluate q g >>= next) (h : q.Settles g r)
    (hnext : next r = .done t) :
  p.Settles f t
  := by
  rw [settles_iff_plan, hplan]
  apply Plan.Settles.evaluate h
  rw [hnext]
  apply Plan.settles_done

/-- What can be derived for a pattern is what it settles on. -/
theorem settles_of_yields (h : p.Yields f r) :
  p.Settles f r
  := by
  induction h with
  | pass h =>
    rw [settles_iff_plan, plan_of_consumes h]
    apply Plan.settles_done
  | refuse hp h =>
    rw [settles_iff_plan, plan_of_not_consumes hp h]
    apply Plan.settles_done
  | absent h =>
    simp only [settles_iff_plan, plan, matchSelected, h]
    apply Plan.settles_done
  | present h _ ih =>
    simp only [settles_iff_plan, plan, matchSelected, h]
    apply matchField_settles ih
  | fieldless h =>
    simp only [settles_iff_plan, plan, matchSelected, h]
    apply Plan.settles_done
  | @noField k p f fields keys h _ _ ihk ihv =>
    simp only [settles_iff_plan, plan, matchSelected, h]
    rw [← List.append_nil fields]
    apply scanFields_settles ihk ihv
    apply Plan.settles_done
  | firstField h _ _ _ _ ihk ihv ihs iht =>
    simp only [settles_iff_plan, plan, matchSelected, h]
    apply scanFields_settles ihk ihv
    apply Plan.Settles.evaluate ihs
    apply Plan.settles_bind_iff.2
    refine ⟨_, matchField_settles iht, ?_⟩
    apply Plan.settles_done
  | broken _ ih => exact settles_of_first rfl ih rfl
  | sequence _ _ ihs ih =>
    apply settles_iff_plan.2
    apply Plan.Settles.evaluate ihs
    apply Plan.Settles.evaluate ih
    apply Plan.settles_done
  | first _ ih => exact settles_of_first rfl ih rfl
  | second _ _ ihp ihq =>
    apply settles_iff_plan.2
    apply Plan.Settles.evaluate ihp
    apply Plan.settles_evaluate_iff.2 ihq
  | tooFew _ ih =>
    apply settles_iff_plan.2
    apply Plan.settles_bind_iff.2
    use none
    constructor
    · apply Plan.Settles.evaluate ih
      apply Plan.settles_done
    · apply Plan.settles_done
  | counted _ _ ihs ih => apply repetition_settles_counted ihs ih
  | @exhausted p f _ ih =>
    apply repetition_settles_greedy_iff.2
    refine ⟨f.stay, ?_, rfl⟩
    rw [repeatGreedily]
    apply Plan.Settles.evaluate ih
    apply Plan.settles_done
  | @idle p f s _ hstop ih =>
    apply repetition_settles_greedy_iff.2
    refine ⟨f.stay, ?_, rfl⟩
    rw [repeatGreedily]
    apply Plan.Settles.evaluate ih
    dsimp only
    rw [if_pos hstop]
    apply Plan.settles_done
  | again _ hstop _ ihs ih => apply repetition_settles_again ihs hstop ih
  | full =>
    apply settles_iff_plan.2
    apply Plan.settles_done
  | @enough p f n _ ih =>
    apply settles_iff_plan.2
    apply Plan.settles_bind_iff.2
    use f.stay
    constructor
    · apply Plan.Settles.evaluate ih
      apply Plan.settles_done
    · apply Plan.settles_done
  | further _ _ ihs ih => apply repetition_settles_further ihs ih
  | excluded _ ih => exact settles_of_first rfl ih rfl
  | difference _ _ ihq ihp =>
    apply settles_iff_plan.2
    apply Plan.Settles.evaluate ihq
    apply Plan.settles_evaluate_iff.2 ihp
  | invertFails _ ih => exact settles_of_first rfl ih rfl
  | invert _ ih => exact settles_of_first rfl ih rfl
  | lookaheadFails _ ih => exact settles_of_first rfl ih rfl
  | lookahead _ ih => exact settles_of_first rfl ih rfl
  | @ruleRef name f g body r hg hbody _ ih =>
    simp only [settles_iff_plan, plan, hg]
    apply Plan.settles_apply_iff.2
    apply Question.settles_apply_iff.2
    use body, hbody
    rw [Focus.inScope_of_scope hg]
    apply ih
  | grammar hroot _ ih => apply grammar_settles hroot ih
  | span _ ih => exact settles_of_first rfl ih rfl
  | const =>
    apply settles_iff_plan.2
    apply Plan.settles_done
  | position =>
    apply settles_iff_plan.2
    apply Plan.settles_done
  | group _ ih => exact settles_of_first rfl ih rfl
  | collect _ ih => exact settles_of_first rfl ih rfl

end Pattern

end Peg
