import Mathlib.Order.Bounds.Defs
import Mathlib.Tactic.IntervalCases
import Peg.Proofs.Endings

/-!
# Scanning to a delimiter

A character that is not the start of a delimiter, repeated as often as possible, passes over
everything before the first delimiter of a text.  So the repetition searches for the least position
at which the delimiter matches, and stops at the end of the text if there is none.  The delimiter
may be any pattern; whatever it captures is dropped.
-/

namespace Peg

namespace Pattern

/-- The characters before a delimiter. -/
def upTo (delimiter : Pattern) : Pattern :=
  .repetition (.difference (.anyChars 1) delimiter) (.atLeast 0)

variable {d : Pattern} {f : Focus} {s : String} {j : Nat}

/-- No character is passed over at a delimiter, and at the end of a text there is none. -/
theorem Yields.not_before {r : Outcome} (hs : f.subject = .text s) (hd : d.Yields f r)
    (hr : r = none → f.pos = s.length) :
  (Pattern.difference (.anyChars 1) d).Yields f none
  := by
  cases r with
  | some t => exact .excluded hd
  | none =>
    apply Yields.difference hd
    apply Yields.refuse rfl
    rintro n (_ | _ | @⟨_, s', _, hs', hn⟩)
    rw [hs] at hs'
    cases hs'
    have hend := hr rfl
    omega

/-- The character ahead is passed over when there is no delimiter. -/
theorem Yields.one_before (hs : f.subject = .text s) (hd : d.Yields f none)
    (hlt : f.pos < s.length) :
  (Pattern.difference (.anyChars 1) d).Yields f (some ⟨f.pos + 1, []⟩)
  := .difference hd (.pass (.anyChars hs hlt))

/-- What is before the delimiter ends where the delimiter matches for the first time, or at the end
of the text. -/
theorem upTo_yields (hs : f.subject = .text s) (hfj : f.pos ≤ j) (hj : j ≤ s.length)
    (hbefore : ∀ k, f.pos ≤ k → k < j → d.Yields (f.moveTo k) none)
    (hat : ∃ r, d.Yields (f.moveTo j) r ∧ (r = none → j = s.length)) :
  (upTo d).Yields f (some ⟨j, []⟩)
  := by
  obtain ⟨n, rfl⟩ := Nat.exists_eq_add_of_le hfj
  clear hfj
  induction n generalizing f with
  | zero =>
    obtain ⟨r, hd, hr⟩ := hat
    apply Yields.exhausted (Yields.not_before hs hd hr)
  | succ n ih =>
    have hd := hbefore f.pos (Nat.le_refl _) (by omega)
    have hone := Yields.one_before hs hd (by omega)
    have hnext : (f.moveTo (f.pos + 1)).pos + n = f.pos + (n + 1) := by
      simp only [Focus.moveTo]
      omega
    have hrest := ih (f := f.moveTo (f.pos + 1)) hs (by omega)
      (fun k hk hkj => hbefore k (Nat.le_of_succ_le hk) (by omega)) (hnext ▸ hat)
    rw [hnext] at hrest
    exact .again hone (Nat.succ_ne_self _) hrest

end Pattern

theorem startPosition_text {s : String} {i : Nat} (hi : i ≤ s.length) :
  startPosition (.text s) (.int i) = .ok i
  := by
  rw [startPosition, clampedStart, if_neg (Int.not_lt.2 (Int.natCast_nonneg i)), Int.toNat_natCast,
    Nat.min_eq_left hi]

/-- A repetition of characters which do not start a delimiter scans to the least position at which
the delimiter matches, or to the end of the text.  The delimiter must come to an outcome at all
positions until there. -/
theorem Constructor.scan_to_delimiter {o : Options} (hsteps : o.maxSteps = none)
    (hdepth : o.maxDepth = none) (d : Pattern) (outer : Option Grammar) (s : String) {i j : Nat}
    (hi : i ≤ s.length)
    (hj : IsLeast {k | i ≤ k ∧ ((∃ t, Matcher.EndsWith ⟨d, outer, o⟩ (.text s) k (.ok (some t)))
      ∨ k = s.length)} j)
    (hd : ∀ k, i ≤ k → k ≤ j → ∃ r, Matcher.EndsWith ⟨d, outer, o⟩ (.text s) k (.ok r)) :
  startPosition (.text s) (.int i) = .ok i
    ∧ Build.Gives
      (do
        let one ← pattern.apply [.int 1]
        let before ← difference.apply [one, .pattern d]
        repetition.apply [before])
      fun p => Matcher.EndsWith ⟨p, outer, o⟩ (.text s) i (.ok (some ⟨j, []⟩))
  := by
  obtain ⟨⟨hij, hat⟩, hleast⟩ := hj
  have hjs : j ≤ s.length := hleast ⟨hi, .inr rfl⟩
  have hplain : (Value.text s).hasPlainKeys = true := rfl
  have hyields : ∀ k r, Matcher.EndsWith ⟨d, outer, o⟩ (.text s) k (.ok r) →
      d.Yields (.start (.text s) k outer) r :=
    fun k r h => (Matcher.endsWith_ok_iff_yields (m := ⟨d, outer, o⟩) hsteps hdepth hplain).1 h
  have hscan : (Pattern.upTo d).Yields (.start (.text s) i outer) (some ⟨j, []⟩) := by
    apply Pattern.upTo_yields rfl hij hjs
    · intro k hik hkj
      obtain ⟨r, hr⟩ := hd k hik (Nat.le_of_lt hkj)
      cases r with
      | none => exact hyields k none hr
      | some t => exact absurd (hleast ⟨hik, .inl ⟨t, hr⟩⟩) (Nat.not_le_of_lt hkj)
    · obtain ⟨r, hr⟩ := hd j hij (Nat.le_refl j)
      refine ⟨r, hyields j r hr, ?_⟩
      rintro rfl
      obtain ⟨t, ht⟩ | hend := hat
      · cases hr.unique ht
      · exact hend
  refine ⟨startPosition_text hi, .upTo d, fun _ => rfl, ?_⟩
  exact (Matcher.endsWith_ok_iff_yields (m := ⟨.upTo d, outer, o⟩) hsteps hdepth hplain).2 hscan

/-- A delimiter that is given by a rule of the outer grammar. -/
def exclaimed : Matcher where
  pattern := .ruleRef "stop"
  outer := some ⟨0, [("stop", .literal "!")], .rule "stop"⟩

theorem exclaimed_endsWith {k : Nat} (hk : k ≤ 2) :
  exclaimed.EndsWith (.text "ab!c") k (.ok (if k = 2 then some ⟨3, []⟩ else none))
  := by
  apply (Matcher.endsWith_ok_iff rfl rfl).2
  apply Pattern.endsWith_of_record (n := 2)
  interval_cases k <;> rfl

/-- Two letters are passed over before the exclamation mark. -/
theorem Constructor.scan_to_delimiter_exclaimed :
  IsLeast {k | 0 ≤ k ∧ ((∃ t, exclaimed.EndsWith (.text "ab!c") k (.ok (some t)))
      ∨ k = "ab!c".length)} 2
    ∧ Build.Gives
      (do
        let one ← pattern.apply [.int 1]
        let before ← difference.apply [one, .pattern exclaimed.pattern]
        repetition.apply [before])
      fun p => Matcher.EndsWith ⟨p, exclaimed.outer, {}⟩ (.text "ab!c") 0 (.ok (some ⟨2, []⟩))
  := by
  have hleast : IsLeast {k | 0 ≤ k ∧ ((∃ t, exclaimed.EndsWith (.text "ab!c") k (.ok (some t)))
      ∨ k = "ab!c".length)} 2 := by
    use ⟨Nat.zero_le 2, .inl ⟨_, exclaimed_endsWith (Nat.le_refl 2)⟩⟩
    rintro k ⟨-, ⟨t, ht⟩ | hk⟩
    · by_contra hlt
      have hnone := exclaimed_endsWith (k := k) (by omega)
      rw [if_neg (by omega)] at hnone
      cases hnone.unique ht
    · rw [hk]
      decide
  refine ⟨hleast, (scan_to_delimiter rfl rfl _ _ _ (Nat.zero_le _) hleast ?_).2⟩
  exact fun k _ hk => ⟨_, exclaimed_endsWith hk⟩

end Peg
