import Peg.Proofs.Inheriting
import Peg.Session

/-!
# Values bound in sessions

Whatever a session is asked for, the numbers that it draws go up, also when an operation fails.  So
what values inherit is kept from request to request, and holds of all values bound in a session:
`Session.after_inherits`.
-/

namespace Peg

open Build (Advances)

/-! ### Operations -/

/-- A construction draws numbers upwards, whichever number it starts with. -/
def Build.Rises {α : Type} (x : Build α) : Prop :=
  ∀ n, Advances (fun _ _ => True) n x

namespace Build.Rises

variable {α β : Type} {x : Build α}

theorem pure (a : α) :
  Rises (Pure.pure a)
  := fun _ => Advances.pure trivial

theorem ofExcept (x : Except Error α) :
  Rises (Build.ofExcept x)
  := fun _ => Advances.ofExcept fun _ _ => trivial

theorem bind {k : α → Build β} (hx : Rises x) (hk : ∀ a, Rises (k a)) :
  Rises (x >>= k)
  := fun n => (hx n).bind fun m a _ _ => hk a m

theorem mapM {f : α → Build β} (h : ∀ a, Rises (f a)) (xs : List α) :
  Rises (xs.mapM f)
  := by
  intro n
  apply (Advances.mapM fun a _ n => h a n).imp
  exact fun _ _ _ _ => trivial

end Build.Rises

open Build (Rises)

theorem Value.inherited_true :
  Inherited 0 fun _ _ => True
  := by
  constructor <;> simp

theorem Value.toPattern_rises (v : Value) :
  Rises v.toPattern
  := fun _ => v.toPattern_inherits inherited_true (Nat.zero_le _) trivial

section Operations

variable (env : Env)

theorem Expr.eval_rises (e : Expr) :
  Rises (e.eval env)
  := fun _ => e.eval_inherits Value.inherited_true (Nat.zero_le _) fun _ _ => trivial

theorem Expr.evalAll_rises (xs : List Expr) :
  Rises (Expr.evalAll env xs)
  := by
  intro n
  apply (Expr.evalAll_inherit Value.inherited_true xs (Nat.zero_le n) fun _ _ => trivial).imp
  exact fun _ _ _ _ => trivial

theorem Expr.evalEntries_rises (es : List (Expr × Expr)) :
  Rises (Expr.evalEntries env es [])
  := by
  intro n
  apply (Expr.evalEntries_inherit Value.inherited_true es (Nat.zero_le n) (fun _ _ => trivial)
    .nil).imp
  exact fun _ _ _ _ => trivial

theorem OptionExprs.eval_rises (o : OptionExprs) :
  Rises (o.eval env)
  := by
  apply (o.maxDepth.eval_rises env).bind fun _ => ?_
  apply (o.maxSteps.eval_rises env).bind fun _ => ?_
  apply (o.memoize.eval_rises env).bind fun _ => ?_
  exact (o.debug.eval_rises env).bind fun _ => .pure _

theorem OptionExprs.checked_rises (o : OptionExprs) :
  Rises (o.checked env)
  := (o.eval_rises env).bind fun _ => .ofExcept _

theorem TableQuery.eval_rises (q : TableQuery Expr) :
  Rises (q.eval env)
  := by
  cases q with
  | subscript k => exact (k.eval_rises env).bind fun _ => .pure _
  | get k d =>
    apply (k.eval_rises env).bind fun _ => ?_
    exact (d.eval_rises env).bind fun _ => .pure _
  | length => apply Rises.pure
  | items => apply Rises.pure
  | contains v => exact (v.eval_rises env).bind fun _ => .pure _
  | hasField k => exact (k.eval_rises env).bind fun _ => .pure _
  | equals v => exact (v.eval_rises env).bind fun _ => .pure _
  | hash => apply Rises.pure

theorem CaptureEdit.apply_rises (cs : List Capture) (e : CaptureEdit) :
  Rises (e.apply env cs)
  := by
  cases e with
  | push v name => exact (v.eval_rises env).bind fun _ => .pure _
  | relabel name => apply Rises.pure
  | collect => apply Rises.pure

theorem CaptureEdit.states_rises (cs : List Capture) (es : List CaptureEdit) :
  Rises (CaptureEdit.states env cs es)
  := by
  induction es generalizing cs with
  | nil => apply Rises.pure
  | cons e es ih =>
    apply (e.apply_rises env cs).bind fun _ => ?_
    exact (ih _).bind fun _ => .pure _

theorem Matcher.ofValues_rises (v w : Value) (o : Options) :
  Rises (Matcher.ofValues v w o)
  := by
  apply v.toPattern_rises.bind fun _ => ?_
  exact (Rises.ofExcept _).bind fun _ => .pure _

theorem Matcher.ofExprs_rises (pattern outer : Expr) (o : OptionExprs) :
  Rises (Matcher.ofExprs env pattern outer o)
  := by
  apply (pattern.eval_rises env).bind fun _ => ?_
  apply (outer.eval_rises env).bind fun _ => ?_
  exact (o.checked_rises env).bind fun _ => Matcher.ofValues_rises _ _ _

theorem Matcher.answerTo_rises (m : Matcher) (run : Expr × Expr) :
  Rises (m.answerTo env run)
  := by
  apply (run.1.eval_rises env).bind fun _ => ?_
  exact (run.2.eval_rises env).bind fun _ => .pure _

theorem Grammar.ofValues_rises (rules root : Value) :
  Rises (Grammar.ofValues rules root)
  := by
  intro n
  apply (Grammar.ofValues_inherits Value.inherited_true (Nat.zero_le n) trivial trivial).imp
  exact fun _ _ _ _ => trivial

/-- Whatever a session is asked for, numbers are drawn upwards. -/
theorem Operation.perform_rises (op : Operation) :
  Rises (op.perform env)
  := by
  cases op with
  | matchOnce pattern subject outer start options =>
    apply (pattern.eval_rises env).bind fun _ => ?_
    apply (subject.eval_rises env).bind fun _ => ?_
    apply (outer.eval_rises env).bind fun _ => ?_
    apply (start.eval_rises env).bind fun _ => ?_
    apply (options.checked_rises env).bind fun _ => ?_
    exact (Matcher.ofValues_rises _ _ _).bind fun _ => .pure _
  | matchEach pattern outer options runs =>
    apply (Matcher.ofExprs_rises env pattern outer options).bind fun m => ?_
    exact (Rises.mapM (m.answerTo_rises env) runs).bind fun _ => .pure _
  | scan pattern outer options text =>
    exact (Matcher.ofExprs_rises env pattern outer options).bind fun _ => .pure _
  | build expr => exact (expr.eval_rises env).bind fun _ => .pure _
  | compare left right =>
    apply (left.eval_rises env).bind fun _ => ?_
    exact (right.eval_rises env).bind fun _ => .pure _
  | defineGrammar rules root required =>
    apply (rules.eval_rises env).bind fun _ => ?_
    apply (root.eval_rises env).bind fun _ => ?_
    exact (Grammar.ofValues_rises _ _).bind fun _ => .pure _
  | references pattern =>
    apply (pattern.eval_rises env).bind fun v => ?_
    exact v.toPattern_rises.bind fun _ => .pure _
  | queryTable items fields queries =>
    apply (Expr.evalAll_rises env items).bind fun _ => ?_
    apply (Expr.evalEntries_rises env fields).bind fun _ => ?_
    exact (Rises.mapM (TableQuery.eval_rises env) queries).bind fun _ => .pure _
  | editCaptures edits => exact (CaptureEdit.states_rises env [] edits).bind fun _ => .pure _
  | checkOptions options =>
    apply (options.eval_rises env).bind fun _ => ?_
    exact (Rises.ofExcept _).bind fun _ => .pure _
  | makeError kind args => exact (Expr.evalAll_rises env args).bind fun _ => .pure _

end Operations

/-! ### Sessions -/

namespace Session

/-- What is inherited holds of all values bound in a session. -/
def Inherits (V : Nat → Value → Prop) (s : Session) : Prop :=
  ∀ b ∈ s.env, V s.next b.2

/-- A session after it has answered some requests. -/
def after (requests : List Request) : Session :=
  requests.foldl (fun s r => (s.respond r).2) {}

variable {low : Nat} {V : Nat → Value → Prop} {s : Session}

theorem carryOut_inherits (hV : Value.Inherited low V) (h : s.Inherits V) {α : Type} {x : Build α}
    (hx : Rises x) :
  (s.carryOut x).2.Inherits V
  := by
  unfold carryOut
  cases hn : x s.next with
  | ok a n => exact fun b hb => hV.later ((hx s.next).made n a hn).1 (h b hb)
  | error e n => exact fun b hb => hV.later ((hx s.next).failed n e hn) (h b hb)

theorem define_inherits (hV : Value.Inherited 0 V) (h : s.Inherits V) (name : String)
    (expr : Expr) :
  (s.define name expr).2.Inherits V
  := by
  have hvalue := expr.eval_inherits hV (Nat.zero_le s.next) h
  unfold define carryOut
  cases hn : expr.eval s.env s.next with
  | ok v n =>
    obtain ⟨hle, hv⟩ := hvalue.made n v hn
    exact List.forall_mem_cons.2 ⟨hv, fun b hb => hV.later hle (h b hb)⟩
  | error e n => exact fun b hb => hV.later (hvalue.failed n e hn) (h b hb)

theorem defineAll_inherits (hV : Value.Inherited 0 V) (h : s.Inherits V)
    (bs : List (String × Expr)) :
  (s.defineAll bs).2.Inherits V
  := by
  induction bs generalizing s with
  | nil => apply h
  | cons b bs ih =>
    obtain ⟨name, expr⟩ := b
    have hs := define_inherits hV h name expr
    rw [defineAll]
    split
    · next heq =>
      rw [heq] at hs
      apply ih hs
    · next heq =>
      rw [heq] at hs
      apply hs

theorem carryOutTask_inherits (hV : Value.Inherited 0 V) (h : s.Inherits V) (t : Task) :
  (s.carryOutTask t).2.Inherits V
  := by
  cases t with
  | perform op => apply carryOut_inherits hV h (op.perform_rises s.env)
  | define name expr =>
    have hs := define_inherits hV h name expr
    rw [carryOutTask]
    split
    · next heq =>
      rw [heq] at hs
      apply hs
    · next heq =>
      rw [heq] at hs
      apply hs

theorem respond_inherits (hV : Value.Inherited 0 V) (h : s.Inherits V) (r : Request) :
  (s.respond r).2.Inherits V
  := by
  have hs := defineAll_inherits hV h r.bindings
  rw [respond]
  split
  · next heq =>
    rw [heq] at hs
    apply carryOutTask_inherits hV hs
  · next heq =>
    rw [heq] at hs
    apply hs

/-- Whatever a session was asked, what values inherit holds of all values bound in it. -/
theorem after_inherits (hV : Value.Inherited 0 V) (requests : List Request) :
  (after requests).Inherits V
  := by
  apply List.foldlRecOn (motive := Inherits V)
  · apply List.forall_mem_nil
  · exact fun s h r _ => respond_inherits hV h r

end Session

end Peg
