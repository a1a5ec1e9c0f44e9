import Mathlib.Data.List.Forall2
import Mathlib.Data.Option.Basic
import Peg.Error
import Peg.Match.Focus
import Peg.Proofs.Likeness

/-!
# Agreement of outcomes

Two outcomes agree in a comparison of values when both are failures, or both are successes that
stop at the same position and have captures of the same names with values that agree.  Naming
captures and collecting them into tables keeps agreement.
-/

namespace Peg

variable {c : Comparison}

/-- Captures of the same name with values that agree. -/
def Capture.Agrees (c : Comparison) (x y : Capture) : Prop :=
  x.name = y.name ∧ x.value.agrees c y.value = true

/-- Successes with the same stop and captures that agree. -/
def Success.Agrees (c : Comparison) (r s : Success) : Prop :=
  r.stop = s.stop ∧ List.Forall₂ (Capture.Agrees c) r.captures s.captures

/-- Two failures, or two successes that agree. -/
def Outcome.Agrees (c : Comparison) (r s : Outcome) : Prop :=
  Option.Rel (Success.Agrees c) r s

/-- Two outcomes that agree, or twice the same fault. -/
inductive Verdict.Agrees (c : Comparison) :
    Except Fault Outcome → Except Fault Outcome → Prop where
  | ok {r s : Outcome} : Outcome.Agrees c r s → Agrees c (.ok r) (.ok s)
  | error (e : Fault) : Agrees c (.error e) (.error e)

/-! ### Captures -/

namespace Capture

variable {x y z : Capture} {xs ys zs : List Capture}

theorem Agrees.refl (x : Capture) :
  Agrees c x x
  := ⟨rfl, Value.agrees_refl _⟩

theorem Agrees.symm (h : Agrees c x y) :
  Agrees c y x
  := ⟨h.1.symm, Value.agrees_symm h.2⟩

theorem Agrees.trans (h : Agrees c x y) (h' : Agrees c y z) :
  Agrees c x z
  := ⟨h.1.trans h'.1, Value.agrees_trans h.2 h'.2⟩

theorem agrees_identical_iff :
  Agrees .identical x y ↔ x = y
  := by
  obtain ⟨v, m⟩ := x
  obtain ⟨w, n⟩ := y
  simp [Agrees, Value.agrees_identical, and_comm]

theorem forall₂_agrees_trans (h : List.Forall₂ (Agrees c) xs ys)
    (h' : List.Forall₂ (Agrees c) ys zs) :
  List.Forall₂ (Agrees c) xs zs
  := by
  induction h generalizing zs with
  | nil => apply h'
  | cons h _ ih =>
    obtain ⟨z, zs, hz, hzs, rfl⟩ := List.forall₂_cons_left_iff.1 h'
    apply List.Forall₂.cons (h.trans hz) (ih hzs)

theorem relabel_agrees (name : Option String) (h : List.Forall₂ (Agrees c) xs ys) :
  List.Forall₂ (Agrees c) (relabel name xs) (relabel name ys)
  := by
  induction h with
  | nil => apply List.Forall₂.nil
  | cons h _ ih => exact .cons ⟨rfl, h.2⟩ ih

/-! ### Tables -/

theorem items_agree (h : List.Forall₂ (Agrees c) xs ys) :
  Value.listAgrees c (items xs) (items ys) = true
  := by
  rw [Value.listAgrees_iff]
  induction h with
  | nil => apply List.Forall₂.nil
  | @cons x y xs ys h _ ih =>
    obtain ⟨v, m⟩ := x
    obtain ⟨w, n⟩ := y
    obtain ⟨rfl, hv⟩ := h
    cases m with
    | none => exact .cons hv ih
    | some m => apply ih

/-- Entries with the same key and values that agree. -/
def EntryAgrees (c : Comparison) (e f : Value × Value) : Prop :=
  e.1 = f.1 ∧ e.2.agrees c f.2 = true

theorem write_agrees {es fs : List (Value × Value)} {key v w : Value}
    (h : List.Forall₂ (EntryAgrees c) es fs) (hv : v.agrees c w = true) :
  List.Forall₂ (EntryAgrees c) (Entries.write key v es) (Entries.write key w fs)
  := by
  induction h with
  | nil => apply List.Forall₂.cons ⟨rfl, hv⟩ .nil
  | @cons e f es fs he hes ih =>
    simp only [Entries.write, he.1]
    split
    · exact .cons ⟨rfl, hv⟩ hes
    · apply List.Forall₂.cons he ih

theorem fields_agree (h : List.Forall₂ (Agrees c) xs ys) :
  List.Forall₂ (EntryAgrees c) (fields xs) (fields ys)
  := by
  have from_any : ∀ es fs, List.Forall₂ (EntryAgrees c) es fs →
      List.Forall₂ (EntryAgrees c) (xs.foldl writeField es) (ys.foldl writeField fs) := by
    induction h with
    | nil => exact fun _ _ h => h
    | @cons x y xs ys hx _ ih =>
      intro es fs hes
      obtain ⟨v, m⟩ := x
      obtain ⟨w, n⟩ := y
      obtain ⟨rfl, hv⟩ := hx
      apply ih
      cases m with
      | none => apply hes
      | some m => apply write_agrees hes hv
  apply from_any [] [] .nil

/-- Tables agree when their items do and their fields do, one after the other. -/
theorem table_agrees_of {xs ys : List Value} {es fs : List (Value × Value)}
    (hx : Value.listAgrees c xs ys = true) (he : List.Forall₂ (EntryAgrees c) es fs) :
  (Value.table xs es).agrees c (.table ys fs) = true
  := by
  cases c with
  | identical =>
    have : es = fs := by
      induction he with
      | nil => rfl
      | cons h _ ih => rw [ih, Prod.ext h.1 ((Value.agrees_identical _ _).1 h.2)]
    simp [Value.agrees, hx, Value.entriesMatch_iff, this]
  | alike =>
    apply Value.table_alike_iff.2
    use hx
    apply Value.entriesAlike_of_forall₂
    apply he.imp
    intro e f hef
    rw [hef.1]
    exact ⟨Value.agrees_refl _, hef.2⟩

theorem collect_agrees (h : List.Forall₂ (Agrees c) xs ys) :
  Agrees c (collect xs) (collect ys)
  := ⟨rfl, table_agrees_of (items_agree h) (fields_agree h)⟩

end Capture

/-! ### Outcomes -/

namespace Success

variable {r s t r' s' : Success}

theorem Agrees.refl (r : Success) :
  Agrees c r r
  := ⟨rfl, List.forall₂_same.2 fun x _ => Capture.Agrees.refl x⟩

theorem Agrees.symm (h : Agrees c r s) :
  Agrees c s r
  := ⟨h.1.symm, h.2.flip.imp fun _ _ h => Capture.Agrees.symm h⟩

theorem Agrees.trans (h : Agrees c r s) (h' : Agrees c s t) :
  Agrees c r t
  := ⟨h.1.trans h'.1, Capture.forall₂_agrees_trans h.2 h'.2⟩

theorem Agrees.after (h : Agrees c r s) (h' : Agrees c r' s') :
  Agrees c (r.after r') (s.after s')
  := ⟨h'.1, List.rel_append h.2 h'.2⟩

theorem agrees_identical_iff :
  Agrees .identical r s ↔ r = s
  := by
  obtain ⟨i, xs⟩ := r
  obtain ⟨j, ys⟩ := s
  have h : Capture.Agrees .identical = Eq := by
    funext x y
    apply propext Capture.agrees_identical_iff
  simp [Agrees, h]

end Success

namespace Outcome

variable {r s t : Outcome}

theorem Agrees.refl (r : Outcome) :
  Agrees c r r
  := by
  cases r with
  | none => apply Option.Rel.none
  | some r => apply Option.Rel.some (Success.Agrees.refl r)

theorem Agrees.symm (h : Agrees c r s) :
  Agrees c s r
  := by
  cases h with
  | none => apply Option.Rel.none
  | some h => apply Option.Rel.some h.symm

theorem Agrees.trans (h : Agrees c r s) (h' : Agrees c s t) :
  Agrees c r t
  := by
  cases h with
  | none => apply h'
  | some h =>
    cases h' with
    | some h' => apply Option.Rel.some (h.trans h')

theorem agrees_identical_iff :
  Agrees .identical r s ↔ r = s
  := by
  constructor
  · intro h
    cases h with
    | none => rfl
    | some h => rw [Success.agrees_identical_iff.1 h]
  · rintro rfl
    apply Agrees.refl r

/-- Outcomes still agree when their captures are changed in ways that agree. -/
theorem Agrees.map {g g' : Success → Success}
    (hg : ∀ r s, Success.Agrees c r s → Success.Agrees c (g r) (g' s)) (h : Agrees c r s) :
  Agrees c (r.map g) (s.map g')
  := by
  cases h with
  | none => apply Option.Rel.none
  | some h => apply Option.Rel.some (hg _ _ h)

end Outcome

theorem Verdict.Agrees.refl (x : Except Fault Outcome) :
  Agrees c x x
  := by
  cases x with
  | ok r => apply Verdict.Agrees.ok (Outcome.Agrees.refl r)
  | error e => apply Verdict.Agrees.error e

theorem Verdict.Agrees.symm {x y : Except Fault Outcome} (h : Agrees c x y) :
  Agrees c y x
  := by
  cases h with
  | ok h => apply Agrees.ok h.symm
  | error e => apply Agrees.error e

theorem Verdict.Agrees.trans {x y z : Except Fault Outcome} (h : Agrees c x y)
    (h' : Agrees c y z) :
  Agrees c x z
  := by
  cases h with
  | ok h =>
    cases h' with
    | ok h' => apply Agrees.ok (h.trans h')
  | error e => apply h'

theorem Verdict.agrees_identical_iff {x y : Except Fault Outcome} :
  Agrees .identical x y ↔ x = y
  := by
  constructor
  · intro h
    cases h with
    | ok h => rw [Outcome.agrees_identical_iff.1 h]
    | error e => rfl
  · rintro rfl
    apply Agrees.refl

end Peg
