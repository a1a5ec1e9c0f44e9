import Peg.Proofs.Endings
import Peg.Proofs.Repetition

/-!
# Groups

A group names all captures of its body, and does nothing else.  `Pattern.Names` says of two patterns
that the second one comes to what the first one comes to, with all captures under one name.  The
operations on patterns keep this: where they go on depends on what has matched and where it has
stopped, and captures are only put one after the other.

So a group of a composed pattern can be exchanged for a composition of groups.  What a pattern
excludes captures nothing and is left as it is, and of nested groups the outermost one names the
captures.
-/

namespace Peg

variable {m : Bool} {s t : View m} {f : Focus} {name : String} {p p' q q' : Pattern}

/-! ### Captures under one name -/

theorem Capture.relabel_append (name : Option String) (cs ds : List Capture) :
  relabel name (cs ++ ds) = relabel name cs ++ relabel name ds
  := List.map_append

/-- The last name that captures are given is the one they have. -/
theorem Capture.relabel_relabel (name other : Option String) (cs : List Capture) :
  relabel name (relabel other cs) = relabel name cs
  := by
  simp [relabel]

namespace Success

/-- A success with all captures under one name. -/
def named (name : String) (r : Success) : Success :=
  ⟨r.stop, Capture.relabel (some name) r.captures⟩

theorem named_after (name : String) (r r' : Success) :
  (r.after r').named name = (r.named name).after (r'.named name)
  := by
  rw [named, after, Capture.relabel_append]
  rfl

theorem named_named (name other : String) (r : Success) :
  (r.named other).named name = r.named name
  := by
  rw [named, named, Capture.relabel_relabel]
  rfl

end Success

/-- What something comes to, with all captures under one name. -/
def Outcome.named (name : String) (v : Except Fault (Outcome × View m)) :
    Except Fault (Outcome × View m) :=
  v.map (Prod.map (Option.map (Success.named name)) id)

theorem Outcome.named_after (name : String) (r : Success) (v : Except Fault (Outcome × View m)) :
  named name (v.map (Prod.map (Option.map r.after) id))
    = (named name v).map (Prod.map (Option.map (r.named name).after) id)
  := by
  obtain e | ⟨_ | x, t⟩ := v
  · rfl
  · rfl
  · simp [named, Except.map, Success.named_after]

theorem Outcome.named_named (name other : String) (v : Except Fault (Outcome × View m)) :
  named name (named other v) = named name v
  := by
  obtain e | ⟨_ | x, t⟩ := v
  · rfl
  · rfl
  · simp [named, Except.map, Success.named_named]

/-! ### Plans and patterns that name captures -/

/-- The second plan comes to whatever the first one comes to, with all captures under a name. -/
def Plan.Names (name : String) (x x' : Plan Outcome) : Prop :=
  ∀ (m : Bool) (s : View m) (v : Except Fault (Outcome × View m)), s.Acceptable →
    x.ComesTo s v → x'.ComesTo s (Outcome.named name v)

namespace Plan.Names

variable {x x' : Plan Outcome}

theorem done (name : String) (r : Outcome) :
  Names name (done r) (done (r.map (Success.named name)))
  := by
  intro m s v _ h
  obtain rfl := comesTo_done_iff.1 h
  exact comesTo_done_iff.2 rfl

/-- A plan that goes on after a success still names its captures. -/
theorem after (h : Names name x x') (r : Success) :
  Names name (x >>= fun rest => Plan.done (rest.map r.after))
    (x' >>= fun rest => Plan.done (rest.map (r.named name).after))
  := by
  intro m s v hs hv
  obtain ⟨w, hw, rfl⟩ := comesTo_bind_done_iff.1 hv
  apply comesTo_bind_done_iff.2
  use Outcome.named name w, h m s w hs hw
  apply Outcome.named_after

end Plan.Names

namespace Pattern

variable {v : Except Fault (Outcome × View m)}

/-- A group comes to what its body comes to, with all captures under its name. -/
theorem comesTo_group_iff :
  (group p name).ComesTo f s v ↔ ∃ w, p.ComesTo f s w ∧ v = Outcome.named name w
  := Plan.comesTo_evaluate_bind_done_iff

/-- The second pattern comes to whatever the first one comes to, with all captures under a name. -/
def Names (name : String) (p p' : Pattern) : Prop :=
  ∀ f, Plan.Names name (p.plan f) (p'.plan f)

namespace Names

theorem group (name : String) (p : Pattern) :
  Names name p (group p name)
  := fun _ _ _ v _ h => comesTo_group_iff.2 ⟨v, h, rfl⟩

/-- A group inside another one has no say in the names. -/
theorem of_group (h : Names name p p') (other : String) :
  Names name (Pattern.group p other) p'
  := by
  intro f m s v hs hv
  obtain ⟨w, hw, rfl⟩ := comesTo_group_iff.1 hv
  rw [Outcome.named_named]
  apply h f m s w hs hw

/-- A group can be exchanged for a pattern that names the captures of its body in the same way. -/
theorem interchangeable (h : Names name p p') :
  Interchangeable (Pattern.group p name) p'
  := by
  intro subject
  apply endsLikeOn_of_acceptable
  intro m f s v hs _ hv
  obtain ⟨w, hw, rfl⟩ := comesTo_group_iff.1 hv
  apply h f m s w hs hw

theorem evaluate (h : Names name p p') (f : Focus) :
  Plan.Names name (Plan.evaluate p f) (Plan.evaluate p' f)
  := by
  intro m s v hs hv
  apply Plan.comesTo_evaluate_iff.2
  apply h f m s v hs (Plan.comesTo_evaluate_iff.1 hv)

/-- What is done with the outcome of a pattern names its captures when it does so with the outcome
of a pattern that names them. -/
theorem bind (h : Names name p p') {k k' : Outcome → Plan Outcome} (f : Focus)
    (hk : ∀ r, Plan.Names name (k r) (k' (r.map (Success.named name)))) :
  Plan.Names name (Plan.evaluate p f >>= k) (Plan.evaluate p' f >>= k')
  := by
  intro m s v hs hv
  apply Plan.comesTo_bind_iff.2
  obtain ⟨r, s', hr, hv⟩ | ⟨e, hr, rfl⟩ := Plan.comesTo_bind_iff.1 hv
  · have hs' := ((Plan.comesTo_evaluate_iff.1 hr).accepts hs).2
    exact .inl ⟨_, s', h.evaluate f m s _ hs hr, hk r m s' v hs' hv⟩
  · exact .inr ⟨e, h.evaluate f m s _ hs hr, rfl⟩

/-! ### Operations on patterns -/

theorem sequence (hp : Names name p p') (hq : Names name q q') :
  Names name (sequence p q) (sequence p' q')
  := by
  intro f
  apply hp.bind f
  rintro (_ | r)
  · exact .done name none
  · exact (hq.evaluate _).after r

theorem choice (hp : Names name p p') (hq : Names name q q') :
  Names name (choice p q) (choice p' q')
  := by
  intro f
  apply hp.bind f
  rintro (_ | r)
  · apply hq.evaluate
  · exact .done name (some r)

/-- What the excluded pattern captures is dropped. -/
theorem difference (hp : Names name p p') (q : Pattern) :
  Names name (difference p q) (difference p' q)
  := by
  intro f m s v hs hv
  apply comesTo_difference_iff.2
  obtain ⟨r, s', hr, rfl⟩ | ⟨s', hr, hw⟩ | ⟨e, hr, rfl⟩ := comesTo_difference_iff.1 hv
  · left
    exact ⟨r, s', hr, rfl⟩
  · right; left
    exact ⟨s', hr, hp f m s' v (hr.accepts hs).2 hw⟩
  · right; right
    exact ⟨e, hr, rfl⟩

/-! ### Repetitions -/

/-- A greedy repetition goes on as long when captures are named on the way. -/
theorem greedily (hp : Names name p p') {w : Except Fault (Success × View m)} (hs : s.Acceptable)
    (h : p.Greedily f s w) :
  p'.Greedily f s (w.map (Prod.map (Success.named name) id))
  := by
  induction h with
  | @again f s s' r w hr hstop _ ih =>
    have hr' := hp f m s _ hs hr
    have hagain := Greedily.again hr' hstop (ih (hr.accepts hs).2)
    obtain e | ⟨r', t⟩ := w
    · exact hagain
    · simpa [Except.map, Success.named_after] using hagain
  | idle hr hstop => exact .idle (hp _ m _ _ hs hr) hstop
  | exhausted hr => exact .exhausted (hp _ m _ _ hs hr)
  | stopped hr => exact .stopped (hp _ m _ _ hs hr)

theorem atLeast (hp : Names name p p') (n : Nat) :
  Names name (repetition p (.atLeast n)) (repetition p' (.atLeast n))
  := by
  induction n with
  | zero =>
    intro f m s v hs hv
    obtain ⟨w, hw, rfl⟩ := (comesTo_atLeast_zero_iff hs).1 hv
    apply (comesTo_atLeast_zero_iff hs).2
    use w.map (Prod.map (Success.named name) id), hp.greedily hs hw
    obtain e | ⟨r, t⟩ := w <;> rfl
  | succ n ih =>
    intro f m s v hs hv
    apply comesTo_atLeast_succ_iff.2
    apply hp.sequence ih f m s v hs (comesTo_atLeast_succ_iff.1 hv)

theorem atMost (hp : Names name p p') (n : Nat) :
  Names name (repetition p (.atMost n)) (repetition p' (.atMost n))
  := by
  induction n with
  | zero => exact fun f => .done name (some f.stay)
  | succ n ih =>
    intro f
    rw [plan_atMost_succ, plan_atMost_succ]
    apply hp.bind f
    rintro (_ | r)
    · exact .done name (some f.stay)
    · exact (ih _).after r

theorem repetition (hp : Names name p p') (bound : Bound) :
  Names name (repetition p bound) (repetition p' bound)
  := by
  cases bound with
  | atLeast n => apply hp.atLeast
  | atMost n => apply hp.atMost

/-! ### Fields -/

/-- The same field is found when the captures of its key and of its value are named on the way. -/
theorem scanFields (hp : Names name p p') (hq : Names name q q') (f : Focus)
    (fields : List (Value × Value)) :
  Plan.Names name (scanFields p q f fields) (Peg.scanFields p' q' f fields)
  := by
  induction fields with
  | nil => exact .done name none
  | cons field fields ih =>
    obtain ⟨key, value⟩ := field
    apply hp.bind
    rintro (_ | r)
    · exact ih
    · simp only [matchField, Plan.bind_assoc, Option.map_some]
      apply hq.bind
      rintro (_ | r')
      · exact ih
      · have hdone := Plan.Names.done name (some (r.after ⟨f.pos, r'.captures⟩))
        rw [Option.map_some, Success.named_after] at hdone
        exact hdone

theorem field (hp : Names name p p') (hq : Names name q q') :
  Names name (field (.pattern p) q) (field (.pattern p') q')
  := by
  intro f
  simp only [plan, matchSelected]
  cases f.subject.fields? with
  | none => exact .done name none
  | some fields => apply hp.scanFields hq

end Names

end Pattern

/-! ### Constructions -/

namespace Constructor

theorem group_apply (p : Pattern) (hname : name ≠ "") (i : Nat) :
  group.apply [.pattern p, .text name] i = .ok (.pattern (.group p name)) i
  := by
  simp only [apply, asValue, Pattern.ofGroup, if_neg hname]
  rfl

/-- The bound of a repetition is the one that an integer stands for. -/
theorem exists_repetition_apply (k : Int) :
  ∃ bound, ∀ p i, repetition.apply [.pattern p, .int k] i = .ok (.pattern (.repetition p bound)) i
  := by
  cases k with
  | ofNat n => exact ⟨.atLeast n, fun _ _ => rfl⟩
  | negSucc n => exact ⟨.atMost (n + 1), fun _ _ => rfl⟩

/-- Grouping distributes over the operations.  A group of a sequence, of a choice, of a repetition
or of a field with a pattern for its key is made of groups, a group of a pattern without another one
is a group without that one, and a group of a group is the outer one. -/
theorem groups_distribute (p q t : Pattern) {inner name : String} (hinner : inner ≠ "")
    (hname : name ≠ "") (k : Int) :
  Build.Pairs [.pattern p, .pattern q] Pattern.Interchangeable
      (do
        let a ← sequence.apply [.pattern p, .pattern q]
        group.apply [a, .text name])
      (do
        let a ← group.apply [.pattern p, .text name]
        let b ← group.apply [.pattern q, .text name]
        sequence.apply [a, b])
    ∧ Build.Pairs [.pattern p, .pattern q] Pattern.Interchangeable
      (do
        let a ← choice.apply [.pattern p, .pattern q]
        group.apply [a, .text name])
      (do
        let a ← group.apply [.pattern p, .text name]
        let b ← group.apply [.pattern q, .text name]
        choice.apply [a, b])
    ∧ Build.Pairs [.pattern p] Pattern.Interchangeable
      (do
        let a ← repetition.apply [.pattern p, .int k]
        group.apply [a, .text name])
      (do
        let a ← group.apply [.pattern p, .text name]
        repetition.apply [a, .int k])
    ∧ Build.Pairs [.pattern p, .pattern q] Pattern.Interchangeable
      (do
        let a ← difference.apply [.pattern p, .pattern q]
        group.apply [a, .text name])
      (do
        let a ← group.apply [.pattern p, .text name]
        difference.apply [a, .pattern q])
    ∧ Build.Pairs [.pattern t, .pattern p] Pattern.Interchangeable
      (do
        let a ← field.apply [.pattern t, .pattern p]
        group.apply [a, .text name])
      (do
        let a ← group.apply [.pattern t, .text name]
        let b ← group.apply [.pattern p, .text name]
        field.apply [a, b])
    ∧ Build.Pairs [.pattern p] Pattern.Interchangeable
      (do
        let a ← group.apply [.pattern p, .text inner]
        group.apply [a, .text name])
      (group.apply [.pattern p, .text name])
  := by
  have hgroup : ∀ p : Pattern, Pattern.Names name p (.group p name) := Pattern.Names.group name
  have hmade : ∀ p i, group.apply [.pattern p, .text name] i = .ok (.pattern (.group p name)) i :=
    fun p => group_apply p hname
  refine ⟨?_, ?_, ?_, ?_, ?_, ?_⟩
  · refine fun i => ⟨_, _, hmade _ i, ?_, ((hgroup p).sequence (hgroup q)).interchangeable⟩
    simp only [Bind.bind, EStateM.bind, hmade]
    rfl
  · refine fun i => ⟨_, _, hmade _ i, ?_, ((hgroup p).choice (hgroup q)).interchangeable⟩
    simp only [Bind.bind, EStateM.bind, hmade]
    rfl
  · obtain ⟨bound, hrepeated⟩ := exists_repetition_apply k
    intro i
    refine ⟨_, _, ?_, ?_, ((hgroup p).repetition bound).interchangeable⟩
    · simp only [Bind.bind, EStateM.bind, hrepeated, hmade]
    · simp only [Bind.bind, EStateM.bind, hrepeated, hmade]
  · refine fun i => ⟨_, _, hmade _ i, ?_, ((hgroup p).difference q).interchangeable⟩
    simp only [Bind.bind, EStateM.bind, hmade]
    rfl
  · refine fun i => ⟨_, _, hmade _ i, ?_, ((hgroup t).field (hgroup p)).interchangeable⟩
    simp only [Bind.bind, EStateM.bind, hmade]
    rfl
  · intro i
    refine ⟨_, _, ?_, hmade p i, ((hgroup p).of_group inner).interchangeable⟩
    simp only [Bind.bind, EStateM.bind, group_apply p hinner, hmade]

/-- One letter, or a place between letters; either is captured under a name. -/
def letterOrGap : Pattern :=
  .group (.choice (.span (.charRange [('a', 'z')])) (.span (.truth true))) "letter"

/-- The letters of a word are captured one by one under the outer name.  The capture of the place
after them is dropped with the repetition that ends the word. -/
theorem groups_distribute_letterOrGap :
  "letter" ≠ "" ∧ "word" ≠ ""
    ∧ Build.Pairs [.pattern letterOrGap] Pattern.Interchangeable
      (do
        let a ← repetition.apply [.pattern letterOrGap, .int 0]
        group.apply [a, .text "word"])
      (do
        let a ← group.apply [.pattern letterOrGap, .text "word"]
        repetition.apply [a, .int 0])
    ∧ (Pattern.repetition (.group letterOrGap "word") (.atLeast 0)).EndsWith {}
      (.start (.text "ab1") 0 none)
      (some ⟨2, [⟨.text "a", some "word"⟩, ⟨.text "b", some "word"⟩]⟩)
  := by
  have hinner : "letter" ≠ "" := by decide
  have hname : "word" ≠ "" := by decide
  obtain ⟨-, -, hrepetition, -⟩ :=
    groups_distribute letterOrGap letterOrGap letterOrGap hinner hname 0
  refine ⟨hinner, hname, hrepetition, Pattern.endsWith_of_record (n := 6) ?_⟩
  decide +kernel

end Constructor

end Peg
