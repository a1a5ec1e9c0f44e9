import Peg.Proofs.Laws

/-!
# Laws of repetitions

A repetition that must match a pattern at least so many times is the pattern in a row that often,
and then a greedy repetition.  The latter goes on while the pattern succeeds and consumes something,
and drops the match that stops it.  It ends because a match that consumes nothing stops it, and the
others leave less and less room.  `Pattern.Greedily` tells what it comes to, one match after the
other, without the number that the recursion of the loop is on, which the loop never uses up.

After a greedy repetition nothing is left over for another one: the pattern is tried once more where
the first one has stopped, and comes to the same as before.  So repetitions absorb the greedy ones
after them and around them, and one with a greatest number may be made in two parts.
-/

namespace Peg

variable {m : Bool} {s t : View m} {p q : Pattern} {f : Focus} {n : Nat}

theorem Success.after_stay (r : Success) (f : Focus) :
  r.after (f.moveTo r.stop).stay = r
  := by
  simp [after, Focus.stay, Focus.moveTo]

namespace Pattern

/-! ### One more match -/

section Counted

variable {v : Except Fault (Outcome × View m)}

theorem plan_atLeast_succ (p : Pattern) (n : Nat) (f : Focus) :
  (repetition p (.atLeast (n + 1))).plan f = Plan.evaluate p f >>= fun
    | none => .done none
    | some r => (repetition p (.atLeast n)).plan (f.moveTo r.stop) >>= fun rest =>
        .done (rest.map r.after)
  := by
  simp only [plan, repeated, repeatExactly, Plan.bind_assoc]
  congr 1
  funext x
  cases x with
  | none => rfl
  | some r =>
    simp only [Plan.pure_eq, Plan.bind_assoc, Plan.done_bind]
    congr 1
    funext y
    cases y with
    | none => rfl
    | some y => simp [Plan.bind_assoc, Success.after]

theorem plan_atMost_succ (p : Pattern) (n : Nat) (f : Focus) :
  (repetition p (.atMost (n + 1))).plan f = Plan.evaluate p f >>= fun
    | none => .done (some f.stay)
    | some r => (repetition p (.atMost n)).plan (f.moveTo r.stop) >>= fun rest =>
        .done (rest.map r.after)
  := by
  simp only [plan, repeated, repeatUpTo, Plan.bind_assoc]
  congr 1
  funext x
  cases x with
  | none => rfl
  | some r => simp [Plan.bind_assoc, Plan.done_bind]

/-- A repetition with a positive least number is the pattern, and then the repetition with one
less. -/
theorem comesTo_atLeast_succ_iff :
  (repetition p (.atLeast (n + 1))).ComesTo f s v
    ↔ (sequence p (repetition p (.atLeast n))).ComesTo f s v
  := by
  rw [comesTo_sequence_iff, ComesTo, plan_atLeast_succ, Plan.comesTo_evaluate_bind_cases]
  simp only [Plan.comesTo_bind_done_iff, Plan.comesTo_done_iff, exists_and_left]
  rfl

theorem comesTo_atMost_zero_iff :
  (repetition p (.atMost 0)).ComesTo f s v ↔ v = .ok (some f.stay, s)
  := Plan.comesTo_done_iff

/-- A repetition with a positive greatest number is the pattern, and then the repetition with one
less; or nothing, where the pattern fails. -/
theorem comesTo_atMost_succ_iff :
  (repetition p (.atMost (n + 1))).ComesTo f s v
    ↔ (∃ r s' w, p.ComesTo f s (.ok (some r, s'))
        ∧ (repetition p (.atMost n)).ComesTo (f.moveTo r.stop) s' w
        ∧ v = w.map (Prod.map (Option.map r.after) id))
      ∨ (∃ s', p.ComesTo f s (.ok (none, s')) ∧ v = .ok (some f.stay, s'))
      ∨ ∃ e, p.ComesTo f s (.error e) ∧ v = .error e
  := by
  rw [ComesTo, plan_atMost_succ, Plan.comesTo_evaluate_bind_cases]
  simp only [Plan.comesTo_bind_done_iff, Plan.comesTo_done_iff, exists_and_left]
  rfl

end Counted

/-! ### Greedy repetitions -/

/-- What a greedy repetition of a pattern comes to in a view. -/
inductive Greedily (p : Pattern) : Focus → View m → Except Fault (Success × View m) → Prop where
  | again {f : Focus} {s s' : View m} {r : Success} {w : Except Fault (Success × View m)} :
    p.ComesTo f s (.ok (some r, s')) → r.stop ≠ f.pos → Greedily p (f.moveTo r.stop) s' w →
      Greedily p f s (w.map (Prod.map r.after id))
  | idle {f : Focus} {s s' : View m} {r : Success} :
    p.ComesTo f s (.ok (some r, s')) → r.stop = f.pos → Greedily p f s (.ok (f.stay, s'))
  | exhausted {f : Focus} {s s' : View m} :
    p.ComesTo f s (.ok (none, s')) → Greedily p f s (.ok (f.stay, s'))
  | stopped {f : Focus} {s : View m} {e : Fault} :
    p.ComesTo f s (.error e) → Greedily p f s (.error e)

variable {w : Except Fault (Success × View m)} {r : Success}

theorem greedily_of_comesTo {room : Nat} (h : (repeatGreedily p room f).ComesTo s w)
    (hroom : f.room ≤ room) (hs : s.Acceptable) :
  p.Greedily f s w
  := by
  induction room generalizing f s w with
  | zero =>
    rw [repeatGreedily] at h
    obtain ⟨r, s', hp, h⟩ | ⟨s', hp, h⟩ | ⟨e, hp, rfl⟩ := Plan.comesTo_evaluate_bind_cases.1 h
    · have hahead := Focus.accepts_some.1 (hp.accepts hs).1
      have hstop : r.stop = f.pos := by
        obtain ⟨h₁, h₂⟩ := hahead
        omega
      simp only [hstop, if_true] at h
      obtain rfl := Plan.comesTo_done_iff.1 h
      exact .idle hp hstop
    · obtain rfl := Plan.comesTo_done_iff.1 h
      exact .exhausted hp
    · exact .stopped hp
  | succ room ih =>
    rw [repeatGreedily] at h
    obtain ⟨r, s', hp, h⟩ | ⟨s', hp, h⟩ | ⟨e, hp, rfl⟩ := Plan.comesTo_evaluate_bind_cases.1 h
    · dsimp only at h
      split at h
      · next hstop =>
        obtain rfl := Plan.comesTo_done_iff.1 h
        exact .idle hp hstop
      · next hstop =>
        obtain ⟨haccepts, hs'⟩ := hp.accepts hs
        have hlt := Focus.room_moveTo_lt (Focus.accepts_some.1 haccepts) hstop
        obtain ⟨w', hrest, rfl⟩ := Plan.comesTo_bind_done_iff.1 h
        exact .again hp hstop (ih hrest (by omega) hs')
    · obtain rfl := Plan.comesTo_done_iff.1 h
      exact .exhausted hp
    · exact .stopped hp

theorem Greedily.comesTo {room : Nat} (h : p.Greedily f s w) (hroom : f.room ≤ room)
    (hs : s.Acceptable) :
  (repeatGreedily p room f).ComesTo s w
  := by
  induction h generalizing room with
  | again hp hstop _ ih =>
    obtain ⟨haccepts, hs'⟩ := hp.accepts hs
    have hlt := Focus.room_moveTo_lt (Focus.accepts_some.1 haccepts) hstop
    obtain ⟨room, rfl⟩ : ∃ k, room = k + 1 := Nat.exists_eq_add_one.2 (by omega)
    rw [repeatGreedily]
    apply Plan.comesTo_evaluate_bind_cases.2
    left
    refine ⟨_, _, hp, ?_⟩
    dsimp only
    rw [if_neg hstop]
    exact Plan.comesTo_bind_done_iff.2 ⟨_, ih (by omega) hs', rfl⟩
  | idle hp hstop =>
    rw [repeatGreedily]
    apply Plan.comesTo_evaluate_bind_cases.2
    left
    refine ⟨_, _, hp, ?_⟩
    dsimp only
    rw [if_pos hstop]
    apply Plan.ComesTo.done
  | exhausted hp =>
    rw [repeatGreedily]
    apply Plan.comesTo_evaluate_bind_cases.2
    exact .inr (.inl ⟨_, hp, .done _ _⟩)
  | stopped hp =>
    rw [repeatGreedily]
    apply Plan.comesTo_evaluate_bind_cases.2
    exact .inr (.inr ⟨_, hp, rfl⟩)

/-- A repetition without a least number is a greedy one. -/
theorem comesTo_atLeast_zero_iff {v : Except Fault (Outcome × View m)} (hs : s.Acceptable) :
  (repetition p (.atLeast 0)).ComesTo f s v
    ↔ ∃ w, p.Greedily f s w ∧ v = w.map (Prod.map some id)
  := by
  have hplan : (repetition p (.atLeast 0)).plan f
      = repeatGreedily p f.room f >>= fun rest => .done (some rest) := rfl
  rw [ComesTo, hplan, Plan.comesTo_bind_done_iff]
  constructor
  · rintro ⟨w, h, rfl⟩
    exact ⟨w, greedily_of_comesTo h (Nat.le_refl _) hs, rfl⟩
  · rintro ⟨w, h, rfl⟩
    exact ⟨w, h.comesTo (Nat.le_refl _) hs, rfl⟩

/-- Nothing is left over for a greedy repetition after another one. -/
theorem Greedily.rests (h : p.Greedily f s (.ok (r, t))) :
  p.Greedily (f.moveTo r.stop) t (.ok ((f.moveTo r.stop).stay, t))
  := by
  generalize hw : Except.ok (r, t) = w at h
  induction h generalizing r t with
  | @again f s s' r' w _ _ _ ih =>
    obtain e | ⟨rest, s''⟩ := w
    · cases hw
    · cases hw
      have hrest : p.Greedily (f.moveTo rest.stop) s'' (.ok ((f.moveTo rest.stop).stay, s'')) :=
        ih rfl
      exact hrest
  | idle hp hstop =>
    cases hw
    exact .idle (hp.replay (.refl _)) hstop
  | exhausted hp =>
    cases hw
    exact .exhausted (hp.replay (.refl _))
  | stopped _ => cases hw

/-- A greedy repetition moves on, or else it comes to nothing. -/
theorem Greedily.advances (h : p.Greedily f s (.ok (r, t))) (hs : s.Acceptable) :
  r = f.stay ∨ f.pos < r.stop
  := by
  generalize hw : Except.ok (r, t) = w at h
  induction h generalizing r t with
  | @again f s s' r' w hp hstop _ ih =>
    obtain e | ⟨rest, s''⟩ := w
    · cases hw
    · cases hw
      right
      obtain ⟨haccepts, hs'⟩ := hp.accepts hs
      have hle := (Focus.accepts_some.1 haccepts).1
      have hlt : f.pos < r'.stop := by omega
      obtain rfl | hrest := ih hs' rfl
      · exact hlt
      · exact Nat.lt_trans hlt hrest
  | idle _ _ =>
    cases hw
    exact .inl rfl
  | exhausted _ =>
    cases hw
    exact .inl rfl
  | stopped _ => cases hw

/-- A greedy repetition of a greedy repetition comes to the same. -/
theorem Greedily.nested (h : p.Greedily f s w) (hs : s.Acceptable) :
  (repetition p (.atLeast 0)).Greedily f s w
  := by
  have hinner := (comesTo_atLeast_zero_iff hs).2 ⟨w, h, rfl⟩
  obtain e | ⟨r, t⟩ := w
  · exact .stopped hinner
  · obtain rfl | hlt := h.advances hs
    · exact .idle hinner rfl
    · -- the outer repetition goes on once more, and finds that the inner one stays
      have ht := (hinner.accepts hs).2
      have hagain := (comesTo_atLeast_zero_iff ht).2 ⟨_, h.rests, rfl⟩
      have hrest : (repetition p (.atLeast 0)).Greedily (f.moveTo r.stop) t
          (.ok ((f.moveTo r.stop).stay, t)) := .idle hagain rfl
      have houter := Greedily.again hinner (Nat.ne_of_gt hlt) hrest
      simpa [Except.map, Success.after_stay] using houter

/-! ### Two repetitions in a row -/

theorem atLeast_succ_refines (p : Pattern) (n : Nat) :
  (repetition p (.atLeast (n + 1))).Refines (sequence p (repetition p (.atLeast n)))
  := fun _ _ _ _ h => comesTo_atLeast_succ_iff.1 h

theorem sequence_refines_atLeast (p : Pattern) (n : Nat) :
  (sequence p (repetition p (.atLeast n))).Refines (repetition p (.atLeast (n + 1)))
  := fun _ _ _ _ h => comesTo_atLeast_succ_iff.2 h

/-- The first matches of a repetition with a least number may be written out. -/
theorem atLeast_add_refines (p : Pattern) (k n : Nat) :
  (repetition p (.atLeast (k + 1 + n))).Refines
    (sequence (combine sequence p (List.replicate k p)) (repetition p (.atLeast n)))
  := by
  induction k with
  | zero =>
    rw [Nat.zero_add, Nat.add_comm]
    apply atLeast_succ_refines
  | succ k ih =>
    rw [Nat.add_right_comm]
    apply (atLeast_succ_refines p _).trans
    apply (Refines.sequence p ih).trans
    apply sequence_assoc

/-- A repetition with a least number leaves nothing over for a greedy one. -/
theorem atLeast_then_greedy {v : Except Fault (Outcome × View m)} (hs : s.Acceptable)
    (h : (repetition p (.atLeast n)).ComesTo f s v) :
  (sequence (repetition p (.atLeast n)) (repetition p (.atLeast 0))).ComesTo f s v
  := by
  induction n generalizing f s v with
  | zero =>
    apply comesTo_sequence_iff.2
    obtain ⟨w, hw, rfl⟩ := (comesTo_atLeast_zero_iff hs).1 h
    obtain e | ⟨r, t⟩ := w
    · exact .inr (.inr ⟨e, h, rfl⟩)
    · left
      have ht := (h.accepts hs).2
      refine ⟨r, t, _, h, (comesTo_atLeast_zero_iff ht).2 ⟨_, hw.rests, rfl⟩, ?_⟩
      simp [Except.map, Success.after_stay]
  | succ n ih =>
    have hassoc : (sequence p (sequence (repetition p (.atLeast n))
        (repetition p (.atLeast 0)))).Refines
        (sequence (repetition p (.atLeast (n + 1))) (repetition p (.atLeast 0))) :=
      (sequence_assoc _ _ _).trans ((sequence_refines_atLeast p n).sequence_left _)
    apply hassoc
    rw [comesTo_atLeast_succ_iff, comesTo_sequence_iff] at h
    apply comesTo_sequence_iff.2
    obtain ⟨r, s', w, hp, hrest, rfl⟩ | h := h
    · exact .inl ⟨r, s', w, hp, ih (hp.accepts hs).2 hrest, rfl⟩
    · exact .inr h

/-- A repetition with a greatest number may be made in two parts. -/
theorem atMost_add_refines (p : Pattern) (k n : Nat) :
  (repetition p (.atMost (k + n))).Refines
    (sequence (repetition p (.atMost k)) (repetition p (.atMost n)))
  := by
  intro m f s v h
  apply comesTo_sequence_iff.2
  induction k generalizing f s v with
  | zero =>
    rw [Nat.zero_add] at h
    left
    refine ⟨f.stay, s, v, comesTo_atMost_zero_iff.2 rfl, h, ?_⟩
    obtain e | ⟨_ | r, t⟩ := v <;> rfl
  | succ k ih =>
    rw [Nat.add_right_comm, comesTo_atMost_succ_iff] at h
    obtain ⟨r, s', w, hp, hrest, rfl⟩ | ⟨s', hp, rfl⟩ | ⟨e, hp, rfl⟩ := h
    · have hmore : ∀ u, (repetition p (.atMost k)).ComesTo (f.moveTo r.stop) s' u →
          (repetition p (.atMost (k + 1))).ComesTo f s
            (u.map (Prod.map (Option.map r.after) id)) :=
        fun u hu => comesTo_atMost_succ_iff.2 (.inl ⟨r, s', u, hp, hu, rfl⟩)
      obtain ⟨x, s'', w, hk, hn, rfl⟩ | ⟨s'', hk, rfl⟩ | ⟨e, hk, rfl⟩ := ih _ _ _ hrest
      · left
        refine ⟨r.after x, s'', w, hmore _ hk, hn, ?_⟩
        obtain e | ⟨_ | y, t⟩ := w
        · rfl
        · rfl
        · simp [Except.map, Success.after_assoc]
      · exact .inr (.inl ⟨s'', hmore _ hk, rfl⟩)
      · exact .inr (.inr ⟨e, hmore _ hk, rfl⟩)
    · -- the second part tries the pattern once more, and it fails again
      have hfirst : (repetition p (.atMost (k + 1))).ComesTo f s (.ok (some f.stay, s')) :=
        comesTo_atMost_succ_iff.2 (.inr (.inl ⟨s', hp, rfl⟩))
      have hsecond : (repetition p (.atMost n)).ComesTo f s' (.ok (some f.stay, s')) := by
        cases n with
        | zero => exact comesTo_atMost_zero_iff.2 rfl
        | succ n =>
          exact comesTo_atMost_succ_iff.2 (.inr (.inl ⟨s', hp.replay (.refl s'), rfl⟩))
      exact .inl ⟨f.stay, s', _, hfirst, hsecond, rfl⟩
    · exact .inr (.inr ⟨e, comesTo_atMost_succ_iff.2 (.inr (.inr ⟨e, hp, rfl⟩)), rfl⟩)

end Pattern

/-! ### Constructions -/

theorem Value.toPatterns_replicate (p : Pattern) (k n : Nat) :
  toPatterns (List.replicate k (.pattern p)) n = .ok (List.replicate k p) n
  := by
  induction k with
  | zero => rfl
  | succ k ih =>
    simp only [List.replicate_succ, toPatterns, toPattern, Bind.bind, EStateM.bind, Pure.pure,
      EStateM.pure, ih]

/-- The laws of repetitions.  The first matches of a repetition with a least number may be written
out, and a greedy repetition after it adds nothing.  A greedy repetition of a greedy repetition is
that repetition, and a repetition with a greatest number may be made in two parts. -/
theorem Constructor.repetitions_lawful (p : Pattern) (k n : Nat) :
  Build.Pairs [.pattern p] Pattern.Interchangeable
      (repetition.apply [.pattern p, .int (k + 1 + n : Nat)])
      (do
        let a ← sequence.apply (List.replicate (k + 1) (.pattern p))
        let b ← repetition.apply [.pattern p, .int n]
        sequence.apply [a, b])
    ∧ Build.Pairs [.pattern p] Pattern.Interchangeable
      (repetition.apply [.pattern p, .int n])
      (do
        let a ← repetition.apply [.pattern p, .int n]
        let b ← repetition.apply [.pattern p, .int 0]
        sequence.apply [a, b])
    ∧ Build.Pairs [.pattern p] Pattern.Interchangeable
      (repetition.apply [.pattern p, .int 0])
      (do
        let a ← repetition.apply [.pattern p, .int 0]
        repetition.apply [a, .int 0])
    ∧ Build.Pairs [.pattern p] Pattern.Interchangeable
      (repetition.apply [.pattern p, .int (-(k + 1 + (n + 1) : Nat))])
      (do
        let a ← repetition.apply [.pattern p, .int (-(k + 1 : Nat))]
        let b ← repetition.apply [.pattern p, .int (-(n + 1 : Nat))]
        sequence.apply [a, b])
  := by
  refine ⟨?_, ?_, ?_, ?_⟩
  · intro i
    have hcopies : sequence.apply (List.replicate (k + 1) (.pattern p)) i
        = .ok (.pattern (Pattern.combine .sequence p (List.replicate k p))) i :=
      asValue_combination_of_ok (Value.toPatterns_replicate p (k + 1) i)
    refine ⟨_, _, rfl, ?_, (Pattern.atLeast_add_refines p k n).interchangeable⟩
    simp only [Bind.bind, EStateM.bind, hcopies]
    rfl
  · refine fun _ => ⟨_, _, rfl, rfl, fun _ => Pattern.endsLikeOn_of_acceptable ?_⟩
    exact fun _ _ _ _ hs _ h => Pattern.atLeast_then_greedy hs h
  · refine fun _ => ⟨_, _, rfl, rfl, fun _ => Pattern.endsLikeOn_of_acceptable ?_⟩
    intro m f s v hs _ h
    obtain ⟨w, hw, rfl⟩ := (Pattern.comesTo_atLeast_zero_iff hs).1 h
    exact (Pattern.comesTo_atLeast_zero_iff hs).2 ⟨w, hw.nested hs, rfl⟩
  · exact fun _ => ⟨_, _, rfl, rfl, (Pattern.atMost_add_refines p (k + 1) (n + 1)).interchangeable⟩

end Peg
