import Peg.Proofs.Lockstep
import Peg.Proofs.Positions
import Peg.Proofs.Termination

/-!
# Matching a slice of a text

A match never looks behind the position where it starts.  So a match which starts inside a text
goes as the one that starts at the beginning of the slice from there on, with all positions shifted
by the number of characters left out: the same captures, the same faults and the same number of
steps.  Only the captures of positions would tell the difference, and so the patterns of the match
may have none.

The two matches are in `lockstep`, with the foci `Focus.Sliced`.
-/

namespace Peg

/-- The slice of a text from an index on, which is counted from the end if it is negative: the
characters that do not stand before it. -/
def sliceFrom (s : String) (i : Int) : String :=
  .ofList ((s.toList.zipIdx.filter fun c => (if i < 0 then i + s.length else i) ≤ c.2).map (·.1))

theorem filter_zipIdx_from (cs : List Char) (j : Int) (start : Nat) :
  ((cs.zipIdx start).filter fun c => j ≤ c.2).map (·.1) = cs.drop (j - start).toNat
  := by
  induction cs generalizing start with
  | nil => simp
  | cons c cs ih =>
    rw [List.zipIdx_cons, List.filter_cons]
    split
    · next hj =>
      have hzero : (j - start).toNat = 0 := by
        have hj : j ≤ start := by simpa using hj
        omega
      have hzero' : (j - (start + 1 : Nat)).toNat = 0 := by omega
      rw [List.map_cons, ih, hzero, hzero', List.drop_zero, List.drop_zero]
    · next hj =>
      have hsucc : (j - start).toNat = (j - (start + 1 : Nat)).toNat + 1 := by
        have hj : ¬ j ≤ start := by simpa using hj
        omega
      rw [ih, hsucc, List.drop_succ_cons]

/-- A slice leaves out the characters before the position that the index stands for. -/
theorem sliceFrom_eq_drop (s : String) (i : Int) :
  sliceFrom s i = .ofList (s.toList.drop (clampedStart s.length i))
  := by
  rw [sliceFrom, filter_zipIdx_from, clampedStart]
  generalize (if i < 0 then i + s.length else i) = j
  congr 1
  rcases Nat.le_total j.toNat s.length with h | h
  · rw [Nat.min_eq_left h, Int.natCast_zero, Int.sub_zero]
  · rw [Nat.min_eq_right h, Int.natCast_zero, Int.sub_zero, ← String.length_toList,
      List.drop_length]
    apply List.drop_eq_nil_of_le
    rw [String.length_toList]
    apply h

theorem clampedStart_le (length : Nat) (i : Int) :
  clampedStart length i ≤ length
  := Nat.min_le_right _ _

theorem clampedStart_add_sliceFrom (s : String) (i : Int) :
  clampedStart s.length i + (sliceFrom s i).length = s.length
  := by
  have hle := clampedStart_le s.length i
  rw [sliceFrom_eq_drop, String.length_ofList, List.length_drop, String.length_toList]
  omega

/-! ### Shifted positions -/

/-- The same success, in a text where all positions are `k` further on. -/
def Success.shift (k : Nat) (s : Success) : Success :=
  ⟨s.stop + k, s.captures⟩

/-- The same verdict, in a text where all positions are `k` further on. -/
def Verdict.shift (k : Nat) : Except Fault Outcome → Except Fault Outcome
  | .ok r => .ok (r.map (Success.shift k))
  | .error e => .error (e.shift k)

/-- A focus in a text from which the first `k` characters are left out, and the same focus in the
text itself. -/
structure Focus.Sliced (s : String) (k : Nat) (f f' : Focus) : Prop where
  slice : f.subject = .text (.ofList (s.toList.drop k))
  subject : f'.subject = .text s
  pos : f'.pos = f.pos + k
  scope : f'.scope = f.scope

namespace Focus.Sliced

variable {s : String} {k : Nat} {f f' : Focus}

theorem moveTo (h : f.Sliced s k f') (pos : Nat) :
  (f.moveTo pos).Sliced s k (f'.moveTo (pos + k))
  := ⟨h.slice, h.subject, rfl, h.scope⟩

theorem inScope (h : f.Sliced s k f') (g : Grammar) :
  (f.inScope g).Sliced s k (f'.inScope g)
  := ⟨h.slice, h.subject, h.pos, rfl⟩

theorem sameAhead (hk : k ≤ s.length) (h : f.Sliced s k f') :
  f.SameAhead f'
  := by
  apply SameAhead.text h.slice h.subject
  · rw [String.toList_ofList, List.drop_drop, h.pos, Nat.add_comm]
  · rw [String.length_ofList, List.length_drop, String.length_toList, h.pos]
    omega

theorem spanned_eq (h : f.Sliced s k f') (stop : Nat) :
  f'.spanned (stop + k) = f.spanned stop
  := by
  simp only [spanned, h.slice, h.subject, h.pos, String.toList_ofList]
  rw [List.take_drop, List.drop_drop, Nat.add_comm k, Nat.add_comm k]

end Focus.Sliced

/-- Foci in a slice and in the text itself, with successes that are shifted. -/
def slicing (s : String) (k : Nat) (hk : k ≤ s.length) : Resemblance where
  foci := Focus.Sliced s k
  successes r r' := r' = r.shift k
  stay h := by rw [Focus.stay, Focus.stay, h.pos, Success.shift]
  moveTo h hs := hs ▸ h.moveTo _
  stop_iff h hs := by simp [hs, h.pos, Success.shift]
  room h := (h.sameAhead hk).room_eq
  after hs ht := by simp [hs, ht, Success.after, Success.shift]
  back h hs := by simp [hs, h.pos, Success.shift]

/-- A pattern goes the same way in a slice, unless it captures where it stands. -/
theorem Pattern.plan_slice {s : String} {k : Nat} (hk : k ≤ s.length) {p : Pattern} {f f' : Focus}
    (hp : p ≠ .position) (h : f.Sliced s k f') {Q : Question → Question → Prop}
    (heval : ∀ q f f', f.Sliced s k f' → Q (.evaluate q f) (.evaluate q f'))
    (happly : ∀ rule g f f', f.Sliced s k f' → Q (.apply g rule f) (.apply g rule f')) :
  (p.plan f).Corresponds ((slicing s k hk).correspondence Q) (slicing s k hk).outcomes (p.plan f')
  := by
  have hrel : ∀ q q' f f', q = q' → (slicing s k hk).foci f f' →
      Q (.evaluate q f) (.evaluate q' f') := by
    rintro q _ f f' rfl h
    apply heval q f f' h
  cases p with
  | literal | truth | anyChars | fewerThan | charSet | charRange =>
    apply Resemblance.primitive_corresponds rfl (h.sameAhead hk)
    intro n
    simp only [slicing, Success.shift, h.pos]
    rw [Nat.add_right_comm]
  | sequence p q => exact Resemblance.parallel_corresponds hrel (.sequence rfl rfl) h
  | choice p q => exact Resemblance.parallel_corresponds hrel (.choice rfl rfl) h
  | repetition p bound => exact Resemblance.parallel_corresponds hrel (.repetition rfl) h
  | difference p q => exact Resemblance.parallel_corresponds hrel (.difference rfl rfl) h
  | invert p => exact Resemblance.parallel_corresponds hrel (.invert rfl) h
  | lookahead p => exact Resemblance.parallel_corresponds hrel (.lookahead rfl) h
  | field key value =>
    cases key <;> simp only [plan, matchSelected, h.slice, h.subject] <;> apply Option.Rel.none
  | ruleRef name =>
    simp only [plan, h.scope]
    split
    · rfl
    · exact ⟨happly _ _ _ _ h, fun _ _ hr => hr⟩
  | grammar g =>
    simp only [plan, matchRoot]
    split
    · exact ⟨happly _ _ _ _ h, fun _ _ hr => hr⟩
    · apply Resemblance.passing_corresponds (heval _ _ _ (h.inScope g))
  | span p =>
    apply Resemblance.evaluate_corresponds (heval p f f' h)
    · apply Option.Rel.none
    · rintro r _ rfl
      apply Option.Rel.some
      simp only [slicing, Success.shift, h.spanned_eq]
  | const v =>
    apply Option.Rel.some
    simp only [slicing, Success.shift, Focus.capturing, h.pos]
  | position => cases hp rfl
  | group p name =>
    apply Resemblance.evaluate_corresponds (heval p f f' h)
    · apply Option.Rel.none
    · rintro r _ rfl
      apply Option.Rel.some
      rfl
  | collect p =>
    apply Resemblance.evaluate_corresponds (heval p f f' h)
    · apply Option.Rel.none
    · rintro r _ rfl
      apply Option.Rel.some
      rfl

/-- The match of a slice and that of the text itself, where no position is captured. -/
def Matcher.sliceLockstep (m : Matcher) (hposition : ∀ scope, ¬ m.Uses .position scope)
    (s : String) (k : Nat) (hk : k ≤ s.length) : Lockstep m.options m.options where
  evaluations p f p' f' := p = p' ∧ f.Sliced s k f'
  applications _ g f g' f' := g = g' ∧ f.Sliced s k f'
  outcomes := (slicing s k hk).outcomes
  known p f := m.Uses p f.scope
  shift := k
  ahead := 0
  histories _ _ := True
  known_hereditary := m.uses_hereditary
  memoize_eq := rfl
  brokenCeiling?_eq _ _ := rfl
  plan_corresponds := by
    rintro p _ f f' hknown ⟨rfl, h⟩
    apply Pattern.plan_slice hk _ h
    · exact fun q f f' h => .evaluate ⟨rfl, h⟩
    · exact fun rule g f f' h => .apply ⟨rfl, h⟩
    · rintro rfl
      apply hposition _ hknown
  pos_eq h := h.2.pos
  body := by
    rintro rule g _ f f' ⟨rfl, h⟩
    cases g.rule? rule with
    | none => apply Option.Rel.none
    | some body => exact .some ⟨rfl, h.inScope g⟩
  same_eq := by
    rintro rule rule₁ g _ g₁ _ f f' f₁ f₁' ⟨rfl, h⟩ ⟨rfl, h₁⟩
    -- each match stays on its one text, so only grammars, rules and positions tell keys apart
    rw [Bool.eq_iff_iff, Key.same_iff, Key.same_iff]
    simp [Focus.key, Focus.place, h.slice, h.subject, h₁.slice, h₁.subject, h.pos, h₁.pos,
      Place.same]
  histories_nil := trivial
  histories_concat _ _ _ := trivial

theorem Lockstep.Verdicts.eq_shift {m : Matcher} {hposition : ∀ scope, ¬ m.Uses .position scope}
    {s : String} {k : Nat} {hk : k ≤ s.length} {v v' : Except Fault Outcome}
    (h : (m.sliceLockstep hposition s k hk).Verdicts v v') :
  v' = Verdict.shift k v
  := by
  cases h with
  | error e => rfl
  | ok hr =>
    cases hr with
    | none => rfl
    | some hs =>
      rw [hs]
      rfl

/-- A match that captures no positions and starts inside a text comes to the same as the match of
the slice from there on, with positions shifted by the length of what is left out, and after as many
steps.  Without ceilings they end. -/
theorem Matcher.matches_slice (m : Matcher) (hposition : ∀ scope, ¬ m.Uses .position scope)
    (s : String) (i : Int) :
  ∃ k, startPosition (.text s) (.int i) = .ok k
    ∧ k + (sliceFrom s i).length = s.length
    ∧ startPosition (.text (sliceFrom s i)) (.int 0) = .ok 0
    ∧ (∀ n, (m.runWithin n (.text s) k).outcome
          = Verdict.shift k (m.runWithin n (.text (sliceFrom s i)) 0).outcome
        ∧ (m.runWithin n (.text s) k).progress.steps
          = (m.runWithin n (.text (sliceFrom s i)) 0).progress.steps)
    ∧ (m.options.maxSteps = none → m.options.maxDepth = none →
        ∀ n ≥ m.nestingBound (.text s) k, Verdict.Ended (m.runWithin n (.text s) k).outcome)
  := by
  have hk := clampedStart_le s.length i
  use clampedStart s.length i, rfl, clampedStart_add_sliceFrom s i
  refine ⟨by simp [startPosition, clampedStart], ?_, ?_⟩
  · intro n
    have hsliced : Focus.Sliced s (clampedStart s.length i)
        (.start (.text (sliceFrom s i)) 0 m.outer)
        (.start (.text s) (clampedStart s.length i) m.outer) := by
      refine ⟨?_, rfl, (Nat.zero_add _).symm, rfl⟩
      rw [sliceFrom_eq_drop]
      rfl
    obtain ⟨hverdicts, hsteps, -⟩ := (m.sliceLockstep hposition s _ hk).runWithin_alike rfl
      ⟨rfl, hsliced⟩ .start n
    use hverdicts.eq_shift, hsteps
  · intro hsteps hdepth n hn
    apply m.runWithin_ended hsteps hdepth hn

/-- Two characters, whichever they are. -/
def spanOfTwo : Matcher where
  pattern := .span (.anyChars 2)

theorem spanOfTwo_uses {p : Pattern} {scope : Option Grammar} (h : spanOfTwo.Uses p scope) :
  p = .span (.anyChars 2) ∨ p = .anyChars 2
  := by
  induction h with
  | start => exact .inl rfl
  | part _ hq ih =>
    rcases ih with rfl | rfl
    · exact .inr (List.mem_singleton.1 hq)
    · cases hq
  | inline _ _ ih => rcases ih with h | h <;> cases h
  | root _ _ _ ih => rcases ih with h | h <;> cases h
  | rule _ _ ih => rcases ih with h | h <;> cases h

/-- Two characters are taken three characters before the end of a text of four. -/
theorem Matcher.matches_slice_spanOfTwo :
  (∀ scope, ¬ spanOfTwo.Uses .position scope)
    ∧ sliceFrom "abcd" (-3) = "bcd"
    ∧ (spanOfTwo.runWithin 5 (.text "bcd") 0).outcome = .ok (some ⟨2, [⟨.text "bc", none⟩]⟩)
    ∧ (spanOfTwo.runWithin 5 (.text "abcd") 1).outcome = .ok (some ⟨3, [⟨.text "bc", none⟩]⟩)
  := by
  have hposition : ∀ scope, ¬ spanOfTwo.Uses .position scope := by
    intro scope h
    rcases spanOfTwo_uses h with h | h <;> cases h
  have hslice : sliceFrom "abcd" (-3) = "bcd" := by decide
  have houtcome : (spanOfTwo.runWithin 5 (.text "bcd") 0).outcome
      = .ok (some ⟨2, [⟨.text "bc", none⟩]⟩) := rfl
  obtain ⟨k, hk, -, -, hruns, -⟩ := spanOfTwo.matches_slice hposition "abcd" (-3)
  cases hk
  obtain ⟨hshift, -⟩ := hruns 5
  rw [hslice, houtcome] at hshift
  exact ⟨hposition, hslice, houtcome, hshift⟩

end Peg
