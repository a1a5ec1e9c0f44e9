import Peg.Match.Plan
import Peg.Match.Progress

/-!
# Laws of plans

A plan is known by what it asks and how it ends, which two predicates state.  `Plan.Keeps` says
that a plan keeps to given `Terms`: as long as its questions are answered as the terms allow, it
asks only questions that they allow, stops only with faults that they allow, and has a result with
a given property.  `Plan.Corresponds` says that two plans go the same way: they ask corresponding
questions as long as the answers correspond, and end alike.

Both are closed under sequencing.  What a plan comes to when it is carried out follows by induction
over the plan, from what the answers are.
-/

namespace Peg

/-- The terms under which a plan is carried out. -/
structure Terms where
  /-- The questions that may be asked. -/
  asks : Question → Prop
  /-- The answers that may be given to a question. -/
  answers : Question → Outcome → Prop
  /-- The faults that may stop the plan. -/
  stops : Fault → Prop

/-- Which questions of two plans correspond, and which answers to them do. -/
structure Correspondence where
  questions : Question → Question → Prop
  answers : Question → Question → Outcome → Outcome → Prop

namespace Plan

variable {α β γ δ : Type}

/-! ### Sequencing -/

@[simp]
theorem pure_eq (a : α) :
  (pure a : Plan α) = done a
  := rfl

@[simp]
theorem done_bind (a : α) (k : α → Plan β) :
  (done a >>= k) = k a
  := rfl

@[simp]
theorem stop_bind (e : Fault) (k : α → Plan β) :
  (stop e >>= k) = stop e
  := rfl

@[simp]
theorem ask_bind (q : Question) (next : Outcome → Plan α) (k : α → Plan β) :
  (ask q next >>= k) = ask q fun r => next r >>= k
  := rfl

theorem bind_assoc (x : Plan α) (k : α → Plan β) (l : β → Plan γ) :
  (x >>= k) >>= l = x >>= fun a => k a >>= l
  := by
  induction x with
  | done a => rfl
  | stop e => rfl
  | ask q next ih => simp only [ask_bind, ih]

/-! ### Keeping to terms -/

/-- A plan keeps to terms, and its result has a property. -/
def Keeps (t : Terms) (result : α → Prop) : Plan α → Prop
  | done a => result a
  | stop e => t.stops e
  | ask q next => t.asks q ∧ ∀ r, t.answers q r → (next r).Keeps t result

theorem Keeps.bind {t : Terms} {P : α → Prop} {Q : β → Prop} {x : Plan α} {k : α → Plan β}
    (hx : x.Keeps t P) (hk : ∀ a, P a → (k a).Keeps t Q) :
  (x >>= k).Keeps t Q
  := by
  induction x with
  | done a => apply hk a hx
  | stop e => apply hx
  | ask q next ih => exact ⟨hx.1, fun r hr => ih r (hx.2 r hr)⟩

/-- What is known of the result of a plan can be weakened. -/
theorem Keeps.imp {t : Terms} {P Q : α → Prop} {x : Plan α} (hx : x.Keeps t P)
    (h : ∀ a, P a → Q a) :
  x.Keeps t Q
  := by
  induction x with
  | done a => apply h a hx
  | stop e => apply hx
  | ask q next ih => exact ⟨hx.1, fun r hr => ih r (hx.2 r hr)⟩

/-! ### Going the same way -/

/-- Two plans go the same way, and their results are related. -/
def Corresponds (c : Correspondence) (results : α → β → Prop) : Plan α → Plan β → Prop
  | done a, done b => results a b
  | stop e, stop e' => e = e'
  | ask q next, ask q' next' =>
    c.questions q q'
      ∧ ∀ r r', c.answers q q' r r' → (next r).Corresponds c results (next' r')
  | _, _ => False

/-- Induction on plans that go the same way: both have results, or both stop with the same fault, or
both ask, and go the same way after answers that correspond. -/
@[elab_as_elim]
theorem Corresponds.induction {c : Correspondence} {P : α → β → Prop}
    {motive : ∀ (x : Plan α) (y : Plan β), x.Corresponds c P y → Prop} {x : Plan α} {y : Plan β}
    (hxy : x.Corresponds c P y)
    (done : ∀ a b (hab : P a b), motive (.done a) (.done b) hab)
    (stop : ∀ e, motive (.stop e) (.stop e) rfl)
    (ask : ∀ q q' next next' (hq : c.questions q q')
      (hnext : ∀ r r', c.answers q q' r r' → (next r).Corresponds c P (next' r')),
      (∀ r r' hr, motive (next r) (next' r') (hnext r r' hr)) →
      motive (.ask q next) (.ask q' next') ⟨hq, hnext⟩) :
  motive x y hxy
  := by
  induction x generalizing y with
  | done a =>
    cases y with
    | done b => apply done a b hxy
    | stop e => cases hxy
    | ask q next => cases hxy
  | stop e =>
    cases y with
    | done b => cases hxy
    | stop e' =>
      obtain rfl : e = e' := hxy
      apply stop e
    | ask q next => cases hxy
  | ask q next ih =>
    cases y with
    | done b => cases hxy
    | stop e => cases hxy
    | ask q' next' =>
      apply ask q q' next next' hxy.1 hxy.2
      exact fun r r' hr => ih r (hxy.2 r r' hr)

/-- What goes the same way as a plan that has a result has a related result. -/
theorem Corresponds.exists_done {c : Correspondence} {P : α → β → Prop} {x : Plan α} {b : β}
    (hx : x.Corresponds c P (done b)) :
  ∃ a, x = done a ∧ P a b
  := by
  cases x with
  | done a => exact ⟨a, rfl, hx⟩
  | stop e => cases hx
  | ask q next => cases hx

/-- What goes the same way as a plan that asks does ask, and goes the same way after answers that
correspond. -/
theorem Corresponds.exists_ask {c : Correspondence} {P : α → β → Prop} {x : Plan α} {q' : Question}
    {next' : Outcome → Plan β} (hx : x.Corresponds c P (ask q' next')) :
  ∃ q next, x = ask q next ∧ c.questions q q'
    ∧ ∀ r r', c.answers q q' r r' → (next r).Corresponds c P (next' r')
  := by
  cases x with
  | done a => cases hx
  | stop e => cases hx
  | ask q next => exact ⟨q, next, rfl, hx.1, hx.2⟩

theorem Corresponds.bind {c : Correspondence} {P : α → β → Prop} {Q : γ → δ → Prop}
    {x : Plan α} {y : Plan β} {k : α → Plan γ} {l : β → Plan δ} (hx : x.Corresponds c P y)
    (hk : ∀ a b, P a b → (k a).Corresponds c Q (l b)) :
  (x >>= k).Corresponds c Q (y >>= l)
  := by
  induction hx using Corresponds.induction with
  | done a b hab => apply hk a b hab
  | stop e => rfl
  | ask q q' next next' hq _ ih => exact ⟨hq, ih⟩

/-- Plans go the same way when more questions correspond, and fewer answers to those that did. -/
theorem Corresponds.imp {c c' : Correspondence} {P : α → β → Prop} {x : Plan α} {y : Plan β}
    (hx : x.Corresponds c P y) (hquestions : ∀ q q', c.questions q q' → c'.questions q q')
    (hanswers : ∀ q q' r r', c.questions q q' → c'.answers q q' r r' → c.answers q q' r r') :
  x.Corresponds c' P y
  := by
  induction hx using Corresponds.induction with
  | done a b hab => apply hab
  | stop e => rfl
  | ask q q' next next' hq _ ih =>
    exact ⟨hquestions q q' hq, fun r r' hr => ih r r' (hanswers q q' r r' hq hr)⟩

/-! ### Carrying plans out -/

/-- A computation of a match, one plan after the other. -/
theorem run_ask (answer : Question → Run Outcome) (q : Question) (next : Outcome → Plan α)
    (st : Progress) :
  (ask q next).run answer st =
    match answer q st with
    | .ok r st' => (next r).run answer st'
    | .error e st' => .error e st'
  := by
  simp only [run, Bind.bind, EStateM.bind]
  cases answer q st <;> rfl

theorem run_bind (answer : Question → Run Outcome) (x : Plan α) (k : α → Plan β)
    (st : Progress) :
  (x >>= k).run answer st =
    match x.run answer st with
    | .ok a st' => (k a).run answer st'
    | .error e st' => .error e st'
  := by
  induction x generalizing st with
  | done a => rfl
  | stop e => rfl
  | ask q next ih =>
    rw [ask_bind, run_ask, run_ask]
    cases answer q st with
    | error e st' => rfl
    | ok r st' => exact ih r st'

theorem exists_run_of_bind {answer : Question → Run Outcome} {x : Plan α} {k : α → Plan β} {b : β}
    {st st' : Progress} (h : (x >>= k).run answer st = .ok b st') :
  ∃ a st₁, x.run answer st = .ok a st₁ ∧ (k a).run answer st₁ = .ok b st'
  := by
  rw [run_bind] at h
  cases hx : x.run answer st with
  | error e st₁ =>
    rw [hx] at h
    cases h
  | ok a st₁ =>
    rw [hx] at h
    exact ⟨a, st₁, rfl, h⟩

theorem run_evaluate_eq_ok_iff {answer : Question → Run Outcome} {p : Pattern} {f : Focus}
    {r : Outcome} {st st' : Progress} :
  (evaluate p f).run answer st = .ok r st' ↔ answer (.evaluate p f) st = .ok r st'
  := by
  rw [evaluate, run_ask]
  cases answer (.evaluate p f) st <;> rfl

variable {answer answer' : Question → Except Fault Outcome}

theorem run_ask_except (q : Question) (next : Outcome → Plan α) :
  (ask q next).run answer =
    match answer q with
    | .ok r => (next r).run answer
    | .error e => .error e
  := by
  simp only [run, Bind.bind, Except.bind]
  cases answer q <;> rfl

/-- A plan with a result has the same one when the answers given on the way are the same. -/
theorem run_mono {x : Plan α} {a : α} (h : x.run answer = .ok a)
    (hanswer : ∀ q r, answer q = .ok r → answer' q = .ok r) :
  x.run answer' = .ok a
  := by
  induction x with
  | done b => apply h
  | stop e => cases h
  | ask q next ih =>
    rw [run_ask_except] at h ⊢
    cases hq : answer q with
    | error e => simp [hq] at h
    | ok r =>
      rw [hq] at h
      rw [hanswer q r hq]
      apply ih r h

/-- The result of a plan that keeps to terms has its property when the answers are allowed. -/
theorem Keeps.of_run {t : Terms} {P : α → Prop} {x : Plan α} {a : α} (hx : x.Keeps t P)
    (hanswer : ∀ q r, t.asks q → answer q = .ok r → t.answers q r) (h : x.run answer = .ok a) :
  P a
  := by
  induction x with
  | done b =>
    cases h
    apply hx
  | stop e => cases h
  | ask q next ih =>
    rw [run_ask_except] at h
    cases hq : answer q with
    | error e => simp [hq] at h
    | ok r =>
      rw [hq] at h
      exact ih r (hx.2 r (hanswer q r hx.1 hq)) h

/-- Plans that go the same way have related results when corresponding questions have
corresponding answers. -/
theorem Corresponds.of_run {c : Correspondence} {P : α → β → Prop} {x : Plan α} {y : Plan β}
    {a : α} (hx : x.Corresponds c P y)
    (hanswer : ∀ q q' r, c.questions q q' → answer q = .ok r →
      ∃ r', answer' q' = .ok r' ∧ c.answers q q' r r')
    (h : x.run answer = .ok a) :
  ∃ b, y.run answer' = .ok b ∧ P a b
  := by
  induction hx using Corresponds.induction with
  | done a' b hab =>
    cases h
    exact ⟨b, rfl, hab⟩
  | stop e => cases h
  | ask q q' next next' hq _ ih =>
    rw [run_ask_except] at h ⊢
    cases hr : answer q with
    | error e => simp [hr] at h
    | ok r =>
      rw [hr] at h
      obtain ⟨r', hr', hrr'⟩ := hanswer q q' r hq hr
      rw [hr']
      apply ih r r' hrr' h

end Plan

end Peg
