import Peg.Proofs.Agreement
import Peg.Proofs.Asking
import Peg.Proofs.Parallel

/-!
# A pattern at two foci

Two foci are abreast when they are at the same position and the same lies ahead of them.  They may
differ in their paths and scopes, and in what an object holds.  A pattern goes the same way at such
foci and has outcomes that agree, by `Pattern.plan_abreast`, provided that its fields, references
and grammars do, and that what it captures agrees.

An `Alongside` is a relation of foci on the same subject, which is handed on to those inside the
subject.  Then fields go the same way too, and only captured positions can differ:
`Pattern.plan_alongside`.
-/

namespace Peg

/-- A relation of foci at the same position with the same ahead of them, which is handed on to those
further on. -/
structure Abreast where
  foci : Focus → Focus → Prop
  sameAhead {f g : Focus} : foci f g → f.SameAhead g
  pos {f g : Focus} : foci f g → f.pos = g.pos
  moveTo {f g : Focus} : foci f g → ∀ pos, foci (f.moveTo pos) (g.moveTo pos)

/-- A relation of foci on the same subject at the same position, which is handed on to those further
on, in fields and in the texts of keys. -/
structure Alongside where
  foci : Focus → Focus → Prop
  subject {f g : Focus} : foci f g → f.subject = g.subject
  pos {f g : Focus} : foci f g → f.pos = g.pos
  moveTo {f g : Focus} : foci f g → ∀ pos, foci (f.moveTo pos) (g.moveTo pos)
  inKey {f g : Focus} : foci f g → ∀ key, foci (f.inKey key) (g.inKey key)
  inField {f g : Focus} : foci f g → (¬ ∃ s, f.subject = .text s) →
    ∀ key value, foci (f.inField key value) (g.inField key value)

namespace Alongside

/-- Every focus is alongside itself only. -/
def identity : Alongside where
  foci := Eq
  subject h := congrArg Focus.subject h
  pos h := congrArg Focus.pos h
  moveTo h pos := congrArg (fun f => f.moveTo pos) h
  inKey h key := congrArg (fun f => f.inKey key) h
  inField h _ key value := congrArg (fun f => f.inField key value) h

variable {A : Alongside} {f g : Focus}

theorem spanned_eq (h : A.foci f g) (stop : Nat) :
  f.spanned stop = g.spanned stop
  := by
  rw [Focus.spanned, Focus.spanned, A.subject h, A.pos h]

/-- Foci on the same subject are abreast. -/
def abreast (A : Alongside) : Abreast where
  foci := A.foci
  sameAhead h := Focus.sameAhead_of_eq (A.subject h) (A.pos h)
  pos h := A.pos h
  moveTo h := A.moveTo h

/-- Questions that are related as given, with answers that agree. -/
def correspondence (c : Comparison) (Q : Question → Question → Prop) : Correspondence where
  questions := Q
  answers _ _ := Outcome.Agrees c

end Alongside

open Alongside (correspondence)

namespace Abreast

variable {A : Abreast} {c : Comparison} {Q : Question → Question → Prop} {f g : Focus}

/-- Related foci, with successes that agree. -/
def resemblance (A : Abreast) (c : Comparison) : Resemblance where
  foci := A.foci
  successes := Success.Agrees c
  stay h := ⟨A.pos h, .nil⟩
  moveTo h hs := hs.1 ▸ A.moveTo h _
  stop_iff h hs := by rw [A.pos h, hs.1]
  room h := (A.sameAhead h).room_eq
  after hs ht := hs.after ht
  back h hs := ⟨A.pos h, hs.2⟩

theorem capturing (h : A.foci f g) {v w : Value} (hv : v.agrees c w = true) :
  Outcome.Agrees c (some (f.capturing v)) (some (g.capturing w))
  := .some ⟨A.pos h, .cons ⟨rfl, hv⟩ .nil⟩

/-- Captures are made alike of successes that agree. -/
theorem evaluate_corresponds {p p' : Pattern} (hq : Q (.evaluate p f) (.evaluate p' g))
    {change change' : Success → Success}
    (h : ∀ s s', Success.Agrees c s s' → Success.Agrees c (change s) (change' s')) :
  (Plan.evaluate p f >>= fun r => pure (r.map change)).Corresponds (correspondence c Q)
    (Outcome.Agrees c) (Plan.evaluate p' g >>= fun r => pure (r.map change'))
  := ⟨hq, fun _ _ hr => hr.map h⟩

end Abreast

/-- A pattern goes the same way at foci that are abreast, and its outcomes agree, if it asks
corresponding questions about its parts, if fields, references and grammars go the same way, and if
what it captures of the subjects and the positions agrees. -/
theorem Pattern.plan_abreast {A : Abreast} {c : Comparison} {Q : Question → Question → Prop}
    {p : Pattern} {f g : Focus} (h : A.foci f g)
    (heval : ∀ q ∈ p.parts, ∀ f g, A.foci f g → Q (.evaluate q f) (.evaluate q g))
    (hspan : ∀ q, p = .span q → ∀ stop, (f.spanned stop).agrees c (g.spanned stop) = true)
    (hposition : p = .position → f.whereabouts.agrees c g.whereabouts = true)
    (hfield : ∀ k v, p = .field k v →
      (p.plan f).Corresponds (correspondence c Q) (Outcome.Agrees c) (p.plan g))
    (href : ∀ name, p = .ruleRef name →
      (p.plan f).Corresponds (correspondence c Q) (Outcome.Agrees c) (p.plan g))
    (hgrammar : ∀ grammar, p = .grammar grammar →
      (matchRoot grammar f).Corresponds (correspondence c Q) (Outcome.Agrees c)
        (matchRoot grammar g)) :
  (p.plan f).Corresponds (correspondence c Q) (Outcome.Agrees c) (p.plan g)
  := by
  have hparallel : p.Parallel (fun q q' => q = q' ∧ q ∈ p.parts) p →
      (p.plan f).Corresponds (correspondence c Q) (Outcome.Agrees c) (p.plan g) := by
    intro hp
    apply Resemblance.parallel_corresponds (R := A.resemblance c) _ hp h
    rintro q _ f g ⟨rfl, hq⟩ h
    apply heval q hq f g h
  have hfirst : ∀ q, p.parts = [q] → Q (.evaluate q f) (.evaluate q g) := by
    intro q hq
    apply heval q (by simp [hq]) f g h
  cases p with
  | literal | truth | anyChars | fewerThan | charSet | charRange =>
    apply Resemblance.primitive_corresponds (R := A.resemblance c) rfl (A.sameAhead h)
    intro n
    rw [A.pos h]
    apply Success.Agrees.refl
  | sequence p q => exact hparallel (.sequence (by simp [parts]) (by simp [parts]))
  | choice p q => exact hparallel (.choice (by simp [parts]) (by simp [parts]))
  | repetition p bound => exact hparallel (.repetition (by simp [parts]))
  | difference p q => exact hparallel (.difference (by simp [parts]) (by simp [parts]))
  | invert p => exact hparallel (.invert (by simp [parts]))
  | lookahead p => exact hparallel (.lookahead (by simp [parts]))
  | field k v => apply hfield k v rfl
  | ruleRef name => apply href name rfl
  | grammar grammar => apply hgrammar grammar rfl
  | span p =>
    apply Abreast.evaluate_corresponds (hfirst p rfl)
    intro s s' hs
    use hs.1
    apply List.Forall₂.cons _ hs.2
    rw [hs.1]
    exact ⟨rfl, hspan p rfl s'.stop⟩
  | const v => apply Abreast.capturing h (Value.agrees_refl v)
  | position => apply Abreast.capturing h (hposition rfl)
  | group p name =>
    apply Abreast.evaluate_corresponds (hfirst p rfl)
    exact fun s s' hs => ⟨hs.1, Capture.relabel_agrees _ hs.2⟩
  | collect p =>
    apply Abreast.evaluate_corresponds (hfirst p rfl)
    exact fun s s' hs => ⟨hs.1, .cons (Capture.collect_agrees hs.2) .nil⟩

/-- A pattern goes the same way at foci on the same subject, and its outcomes agree, if it asks
corresponding questions about its parts, if references and grammars go the same way, and if the
positions that it captures agree. -/
theorem Pattern.plan_alongside {A : Alongside} {c : Comparison} {Q : Question → Question → Prop}
    {p : Pattern} {f g : Focus} (h : A.foci f g)
    (heval : ∀ q ∈ p.parts, ∀ f g, A.foci f g → Q (.evaluate q f) (.evaluate q g))
    (hposition : p = .position → f.whereabouts.agrees c g.whereabouts = true)
    (href : ∀ name, p = .ruleRef name →
      (p.plan f).Corresponds (correspondence c Q) (Outcome.Agrees c) (p.plan g))
    (hgrammar : ∀ grammar, p = .grammar grammar →
      (matchRoot grammar f).Corresponds (correspondence c Q) (Outcome.Agrees c)
        (matchRoot grammar g)) :
  (p.plan f).Corresponds (correspondence c Q) (Outcome.Agrees c) (p.plan g)
  := by
  apply plan_abreast (A := A.abreast) h heval
  · rintro q - stop
    rw [A.spanned_eq h]
    apply Value.agrees_refl
  · apply hposition
  · rintro k v rfl
    have hk : k.Parallel (fun q q' => q = q' ∧ q ∈ (Pattern.field k v).parts) k := by
      cases k with
      | literal name => apply Selector.Parallel.literal
      | pattern q => exact .pattern (by simp [parts])
    apply Resemblance.field_corresponds (R := A.abreast.resemblance c) _ hk
      ⟨rfl, parts_field_value k v⟩ h (A.subject h)
    · intro hobject key
      exact ⟨A.inKey h key, fun value => A.inField h hobject key value⟩
    · rintro q _ f g ⟨rfl, hq⟩ h
      apply heval q hq f g h
  · apply href
  · apply hgrammar

/-- A pattern asks the same questions when the answers agree. -/
theorem Pattern.plan_same {c : Comparison} (p : Pattern) (f : Focus) :
  (p.plan f).Corresponds (correspondence c Eq) (Outcome.Agrees c) (p.plan f)
  := by
  apply plan_alongside (A := .identity) rfl
  · rintro q - f _ rfl
    rfl
  · exact fun _ => Value.agrees_refl _
  · rintro name rfl
    simp only [plan]
    split
    · rfl
    · exact ⟨rfl, fun _ _ hr => hr⟩
  · rintro g -
    simp only [matchRoot]
    split
    · exact ⟨rfl, fun _ _ hr => hr⟩
    · exact ⟨rfl, fun _ _ hr => hr⟩

end Peg
