import Peg.Expression
import Peg.Proofs.Path
import Peg.Proofs.WellFormed

/-!
# Properties that building passes on

Building draws numbers upwards, and passes on any property that values inherit: that what is put
together has when the values that it is put together of have it, and that patterns and grammars have
when those that they are made of have it.  `Value.Inherited` lists what is owed for such a property,
which may depend on the number to be drawn next.

`Build.Advances` follows a property through a construction that starts with a given number.  Step by
step, from scalars to grammars, all constructions pass on what values inherit.  So whatever an
expression builds has it, by `Expr.eval_inherits`, if the values bound to names have it.
-/

namespace Peg

/-! ### Constructions from a number on -/

namespace Build

variable {α β : Type} {x : Build α} {k : α → Build β} {n m : Nat}

/-- A step of a construction that succeeds is followed by another one that does. -/
theorem bind_eq_ok {b : β} (h : (x >>= k) n = .ok b m) :
  ∃ a l, x n = .ok a l ∧ k a l = .ok b m
  := by
  simp only [Bind.bind, EStateM.bind] at h
  cases hx : x n with
  | ok a l =>
    rw [hx] at h
    exact ⟨a, l, rfl, h⟩
  | error e l => simp [hx] at h

/-- A construction fails in its first step, or else after it. -/
theorem bind_eq_error {e : Error} (h : (x >>= k) n = .error e m) :
  x n = .error e m ∨ ∃ a l, x n = .ok a l ∧ k a l = .error e m
  := by
  simp only [Bind.bind, EStateM.bind] at h
  cases hx : x n with
  | ok a l =>
    rw [hx] at h
    exact .inr ⟨a, l, rfl, h⟩
  | error e' l =>
    rw [hx] at h
    cases h
    exact .inl rfl

end Build

/-- From a number on, a construction draws numbers upwards, also when it fails, and what it makes
has a property, together with the number to be drawn next. -/
structure Build.Advances {α : Type} (P : Nat → α → Prop) (n : Nat) (x : Build α) : Prop where
  made : ∀ m a, x n = .ok a m → n ≤ m ∧ P m a
  failed : ∀ m e, x n = .error e m → n ≤ m

namespace Build.Advances

variable {α β : Type} {P Q : Nat → α → Prop} {R : Nat → β → Prop} {x : Build α} {n : Nat}

theorem pure {a : α} (h : P n a) :
  Advances P n (Pure.pure a)
  := by
  constructor
  · intro m b hb
    cases hb
    exact ⟨Nat.le_refl _, h⟩
  · intro m e he
    cases he

theorem throw (e : Error) :
  Advances P n (MonadExcept.throw e)
  := by
  constructor
  · intro m b hb
    cases hb
  · intro m e he
    cases he
    apply Nat.le_refl

theorem bind {k : α → Build β} (hx : Advances P n x)
    (hk : ∀ m a, n ≤ m → P m a → Advances R m (k a)) :
  Advances R n (x >>= k)
  := by
  constructor
  · intro m b h
    obtain ⟨a, l, ha, hb⟩ := Build.bind_eq_ok h
    obtain ⟨hl, hP⟩ := hx.made l a ha
    obtain ⟨hm, hR⟩ := (hk l a hl hP).made m b hb
    exact ⟨Nat.le_trans hl hm, hR⟩
  · intro m e h
    rcases Build.bind_eq_error h with he | ⟨a, l, ha, he⟩
    · apply hx.failed m e he
    · obtain ⟨hl, hP⟩ := hx.made l a ha
      exact Nat.le_trans hl ((hk l a hl hP).failed m e he)

theorem imp (h : ∀ m a, n ≤ m → P m a → Q m a) (hx : Advances P n x) :
  Advances Q n x
  := by
  constructor
  · intro m a ha
    obtain ⟨hm, hP⟩ := hx.made m a ha
    exact ⟨hm, h m a hm hP⟩
  · exact hx.failed

theorem mapError (f : Error → Error) (hx : Advances P n x) :
  Advances P n (x.mapError f)
  := by
  constructor
  · intro m a h
    simp only [Build.mapError] at h
    cases hn : x n with
    | ok b l =>
      rw [hn] at h
      cases h
      apply hx.made m a hn
    | error e l => simp [hn] at h
  · intro m e h
    simp only [Build.mapError] at h
    cases hn : x n with
    | ok b l => simp [hn] at h
    | error e' l =>
      rw [hn] at h
      cases h
      apply hx.failed m e' hn

theorem ofExcept {x : Except Error α} (h : ∀ a, x = .ok a → P n a) :
  Advances P n (Build.ofExcept x)
  := by
  cases x with
  | ok a => apply pure (h a rfl)
  | error e => apply throw

theorem fresh :
  Advances (fun m ident => ident = n ∧ m = n + 1) n Build.fresh
  := by
  constructor
  · intro m ident h
    cases h
    exact ⟨Nat.le_succ _, rfl, rfl⟩
  · intro m e he
    cases he

/-- What is made of the members of a list, one of each. -/
theorem mapM {S : β → Prop} {f : α → Build β} {xs : List α}
    (h : ∀ a ∈ xs, ∀ n, Advances (fun _ b => S b) n (f a)) :
  Advances (fun _ bs => bs.length = xs.length ∧ ∀ b ∈ bs, S b) n (xs.mapM f)
  := by
  induction xs generalizing n with
  | nil => apply pure (by simp)
  | cons a xs ih =>
    rw [List.mapM_cons]
    apply (h a List.mem_cons_self n).bind
    intro m b hm hb
    apply (ih fun a ha => h a (List.mem_cons_of_mem _ ha)).bind
    rintro l bs hl ⟨hlen, hbs⟩
    apply pure
    constructor
    · simp [hlen]
    · exact List.forall_mem_cons.2 ⟨hb, hbs⟩

end Build.Advances

open Build (Advances)

/-! ### What values inherit -/

/-- A pattern is made of its parts alone: it holds no value and no grammar. -/
def Pattern.Composed : Pattern → Prop
  | .const _ => False
  | .grammar _ => False
  | _ => True

/-- A property of values, together with the number to be drawn next, that building passes on.
Grammars are made with numbers from `low` on. -/
structure Value.Inherited (low : Nat) (V : Nat → Value → Prop) : Prop where
  later {n m : Nat} {v : Value} : n ≤ m → V n v → V m v
  scalar {n : Nat} (s : Scalar) : V n (.scalar s)
  list {n : Nat} {vs : List Value} : (∀ v ∈ vs, V n v) → V n (.list vs)
  tuple {n : Nat} {vs : List Value} : (∀ v ∈ vs, V n v) → V n (.tuple vs)
  dict {n : Nat} {es : List (Value × Value)} :
    Entries.haveDistinctKeys es = true → (∀ e ∈ es, V n e.1 ∧ V n e.2) → V n (.dict es)
  table {n : Nat} {vs : List Value} {es : List (Value × Value)} :
    (∀ v ∈ vs, V n v) → Entries.haveDistinctKeys es = true → (∀ e ∈ es, V n e.1 ∧ V n e.2) →
      V n (.table vs es)
  entry {n : Nat} {es : List (Value × Value)} {e : Value × Value} :
    V n (.dict es) → e ∈ es → V n e.2
  const {n : Nat} {v : Value} : V n v → V n (.pattern (.const v))
  pattern {n : Nat} {p : Pattern} :
    p.Proper → p.Composed → (∀ q ∈ p.parts, V n (.pattern q)) → V n (.pattern p)
  grammar {g : Grammar} : g.Sound → low ≤ g.ident → (∀ r ∈ g.rules, V g.ident (.pattern r.2)) →
    (∀ p, g.root = .inline p → V g.ident (.pattern p)) →
      V (g.ident + 1) (.grammar g) ∧ V (g.ident + 1) (.pattern (.grammar g))

variable {low n : Nat} {V : Nat → Value → Prop}

/-! ### Grammars -/

/-- A text that is the name of a rule is taken as such, and no other key is. -/
theorem Offer.ruleName_cases (o : Offer) :
  (∃ name, o.key = .text name ∧ RuleName name ∧ o.ruleName = pure name)
    ∨ ∃ fault, o.ruleName = throw (.grammar fault)
  := by
  unfold ruleName
  split
  · next name hkey =>
    split
    · exact .inr ⟨_, rfl⟩
    · next hempty =>
      split
      · exact .inr ⟨_, rfl⟩
      · next hroot => exact .inl ⟨name, hkey, ⟨hempty, hroot⟩, rfl⟩
  · exact .inr ⟨_, rfl⟩

theorem Offer.ruleName_advances (o : Offer) :
  Advances (fun _ name => RuleName name) n o.ruleName
  := by
  obtain ⟨name, -, hname, h⟩ | ⟨fault, h⟩ := o.ruleName_cases
  · rw [h]
    apply Advances.pure hname
  · rw [h]
    apply Advances.throw

/-- From a number on, an offer makes a pattern with a property, if it makes one at all. -/
def Offer.Passes (V : Nat → Value → Prop) (n : Nat) (o : Offer) : Prop :=
  ∀ m, n ≤ m → Advances (fun l p => V l (.pattern p)) m o.pattern

theorem Offer.Passes.later {o : Offer} {m : Nat} (h : o.Passes V n) (hm : n ≤ m) :
  o.Passes V m
  := fun l hl => h l (Nat.le_trans hm hl)

namespace Grammar

variable {rules : List (String × Pattern)} {offers : List Offer} {root : Option Offer}

theorem rulesOf_inherits (hV : Value.Inherited low V) (h : ∀ o ∈ offers, o.Passes V n) :
  Advances (fun m rules => ∀ r ∈ rules, RuleName r.1 ∧ V m (.pattern r.2)) n (rulesOf offers)
  := by
  induction offers generalizing n with
  | nil => apply Advances.pure (by simp)
  | cons o offers ih =>
    apply o.ruleName_advances.bind
    intro m name hm hname
    apply ((h o List.mem_cons_self m hm).mapError _).bind
    intro l body hl hbody
    apply (ih fun o ho => (h o (List.mem_cons_of_mem _ ho)).later (Nat.le_trans hm hl)).bind
    intro k rules hk hrules
    exact Advances.pure (List.forall_mem_cons.2 ⟨⟨hname, hV.later hk hbody⟩, hrules⟩)

/-- If the root names a rule then there is one of that name; without rules there is none. -/
theorem rootOf_inherits (h : ∀ o ∈ root, o.Passes V n) :
  Advances (fun m r => rules ≠ [] ∧ (∀ p, r = .inline p → V m (.pattern p))
    ∧ ∀ name, r = .rule name → (rules.lookup name).isSome = true) n (rootOf rules root)
  := by
  unfold rootOf
  split
  · apply Advances.throw
  · exact Advances.pure ⟨by simp, by simp, by simp⟩
  · next o hrules =>
    split
    · next name _ =>
      split
      · next hname => exact Advances.pure ⟨hrules, by simp, by simpa using hname⟩
      · apply Advances.throw
    · apply ((h o rfl n (Nat.le_refl _)).mapError _).bind
      intro m p hm hp
      exact Advances.pure ⟨hrules, by simpa using hp, by simp⟩

theorem undefinedIn?_eq_none_iff {p : Pattern} :
  undefinedIn? rules p = none ↔ ∀ name ∈ p.references, (rules.lookup name).isSome = true
  := by
  simp [undefinedIn?, Option.isSome_iff_ne_none]

/-- No reference is undefined when none is in a rule, nor in a root that is a pattern. -/
theorem undefined?_eq_none_iff {root : Root} :
  undefined? rules root = none
    ↔ (∀ r ∈ rules, undefinedIn? rules r.2 = none)
      ∧ ∀ p, root = .inline p → undefinedIn? rules p = none
  := by
  simp only [undefined?, List.findSome?_eq_none_iff, Option.map_eq_none_iff, bodies,
    List.forall_mem_append, List.forall_mem_map]
  cases root with
  | rule name => simp
  | inline p => simp

/-- In a grammar without undefined references all references resolve. -/
theorem resolves_of_undefined? {ident : Nat} {root : Root} (h : undefined? rules root = none)
    (hroot : ∀ name, root = .rule name → (rules.lookup name).isSome = true) :
  Grammar.Resolves ⟨ident, rules, root⟩
  := by
  have hresolves : ∀ p, undefinedIn? rules p = none →
      p.ResolvesIn (some ⟨ident, rules, root⟩) := by
    intro p hp name hname
    exact ⟨_, rfl, undefinedIn?_eq_none_iff.1 hp name hname⟩
  obtain ⟨hrules, hinline⟩ := undefined?_eq_none_iff.1 h
  constructor
  · exact hroot
  · exact fun p hp => hresolves p (hinline p hp)
  · exact fun r hr => hresolves r.2 (hrules r hr)

/-- What is inherited holds of a grammar that is defined, and of the pattern for it. -/
theorem define_inherits (hV : Value.Inherited low V) (hn : low ≤ n)
    (hoffers : ∀ o ∈ offers, o.Passes V n) (hroot : ∀ o ∈ root, o.Passes V n) :
  Advances (fun m g => V m (.grammar g) ∧ V m (.pattern (.grammar g))) n (define offers root)
  := by
  apply (rulesOf_inherits hV hoffers).bind
  intro m rules hm hrules
  apply (rootOf_inherits fun o ho => (hroot o ho).later hm).bind
  rintro l root hl ⟨hnonempty, hroot, hname⟩
  split
  · apply Advances.throw
  · next hundefined =>
    apply Advances.fresh.bind
    rintro k ident - ⟨rfl, rfl⟩
    apply Advances.pure
    have hsound : Grammar.Sound ⟨ident, rules, root⟩ :=
      ⟨hnonempty, fun r hr => (hrules r hr).1, resolves_of_undefined? hundefined hname⟩
    -- the number is drawn last, when the bodies and the root are there
    exact hV.grammar hsound (Nat.le_trans hn (Nat.le_trans hm hl))
      (fun r hr => hV.later hl (hrules r hr).2) hroot

theorem mem_rootOffer? {o o' : Offer} (h : o' ∈ rootOffer? o) :
  o' = o
  := by
  rw [rootOffer?] at h
  split at h
  · cases h
  · cases h
    rfl

theorem ofOffers_inherits (hV : Value.Inherited low V) (hn : low ≤ n)
    (h : ∀ o ∈ offers, o.Passes V n) :
  Advances (fun m g => V m (.grammar g) ∧ V m (.pattern (.grammar g))) n (ofOffers offers)
  := by
  apply define_inherits hV hn
  · intro o ho
    apply h o (List.mem_of_mem_filter ho)
  · intro o ho
    obtain ⟨o', ho', hroot⟩ := Option.bind_eq_some_iff.1 ho
    rw [mem_rootOffer? hroot]
    apply h o' (List.mem_of_mem_filter (List.mem_of_getLast? ho'))

end Grammar

/-! ### Patterns from values -/

namespace Value

theorem Inherited.leaf (hV : Inherited low V) {p : Pattern} (hp : p.Proper) (hcomposed : p.Composed)
    (hparts : p.parts = []) :
  V n (.pattern p)
  := by
  apply hV.pattern hp hcomposed
  rw [hparts]
  apply List.forall_mem_nil

theorem Inherited.around (hV : Inherited low V) {p q : Pattern} (hp : p.Proper)
    (hcomposed : p.Composed) (hparts : p.parts = [q]) (hq : V n (.pattern q)) :
  V n (.pattern p)
  := by
  apply hV.pattern hp hcomposed
  simpa [hparts] using hq

theorem Inherited.pair (hV : Inherited low V) {p q r : Pattern} (hp : p.Proper)
    (hcomposed : p.Composed) (hparts : p.parts = [q, r]) (hq : V n (.pattern q))
    (hr : V n (.pattern r)) :
  V n (.pattern p)
  := by
  apply hV.pattern hp hcomposed
  simpa [hparts] using ⟨hq, hr⟩

end Value

theorem Scalar.toPattern_inherits (hV : Value.Inherited low V) (s : Scalar) :
  Advances (fun m p => V m (.pattern p)) n s.toPattern
  := by
  unfold toPattern
  split
  · exact Advances.pure (hV.leaf trivial trivial rfl)
  · exact Advances.pure (hV.leaf trivial trivial rfl)
  · exact Advances.pure (hV.leaf (Nat.succ_pos _) trivial rfl)
  · exact Advances.pure (hV.leaf trivial trivial rfl)
  · apply Advances.throw

mutual

/-- The pattern for which a value stands inherits from it. -/
theorem Value.toPattern_inherits (hV : Value.Inherited low V) :
    ∀ (v : Value) {n : Nat}, low ≤ n → V n v →
      Advances (fun m p => V m (.pattern p)) n v.toPattern
  | .pattern _, _, _, h => Advances.pure h
  | .scalar s, _, _, _ => s.toPattern_inherits hV
  | .dict es, _, hn, h => by
    apply (Grammar.ofOffers_inherits hV hn
      (Value.offers_inherit hV es hn fun e he => hV.entry h he)).bind
    exact fun m g hm hg => Advances.pure hg.2
  | .list _, _, _, _ => Advances.throw _
  | .tuple _, _, _, _ => Advances.throw _
  | .table _ _, _, _, _ => Advances.throw _
  | .grammar _, _, _, _ => Advances.throw _

theorem Value.offers_inherit (hV : Value.Inherited low V) :
    ∀ (es : List (Value × Value)) {n : Nat}, low ≤ n → (∀ e ∈ es, V n e.2) →
      ∀ o ∈ Value.offers es, o.Passes V n
  | [], _, _, _ => by simp [Value.offers]
  | (_, v) :: es, _, hn, h => by
    obtain ⟨hv, hes⟩ := List.forall_mem_cons.1 h
    apply List.forall_mem_cons.2 ⟨?_, Value.offers_inherit hV es hn hes⟩
    exact fun m hm => Value.toPattern_inherits hV v (Nat.le_trans hn hm) (hV.later hm hv)

end

theorem Value.toPatterns_inherit (hV : Value.Inherited low V) {vs : List Value} (hn : low ≤ n)
    (h : ∀ v ∈ vs, V n v) :
  Advances (fun m ps => ∀ p ∈ ps, V m (.pattern p)) n (toPatterns vs)
  := by
  induction vs generalizing n with
  | nil => apply Advances.pure (by simp)
  | cons v vs ih =>
    obtain ⟨hv, hvs⟩ := List.forall_mem_cons.1 h
    apply (toPattern_inherits hV v hn hv).bind
    intro m p hm hp
    apply (ih (Nat.le_trans hn hm) fun v hv => hV.later hm (hvs v hv)).bind
    intro l ps hl hps
    exact Advances.pure (List.forall_mem_cons.2 ⟨hV.later hl hp, hps⟩)

namespace Pattern

variable {v w : Value}

/-- Combining passes on what the operation passes on. -/
theorem combine_inherits {op : Pattern → Pattern → Pattern}
    (hop : ∀ p q, V n (.pattern p) → V n (.pattern q) → V n (.pattern (op p q))) {p : Pattern}
    {ps : List Pattern} (h : ∀ q ∈ p :: ps, V n (.pattern q)) :
  V n (.pattern (combine op p ps))
  := by
  induction ps generalizing p with
  | nil => apply h p List.mem_cons_self
  | cons q qs ih =>
    obtain ⟨hp, hqs⟩ := List.forall_mem_cons.1 h
    exact hop p _ hp (ih hqs)

theorem combination_inherits (hV : Value.Inherited low V) {op : Pattern → Pattern → Pattern}
    (hop : ∀ n p q, V n (.pattern p) → V n (.pattern q) → V n (.pattern (op p q))) (name : String)
    {args : List Value} (hn : low ≤ n) (h : ∀ v ∈ args, V n v) :
  Advances (fun m p => V m (.pattern p)) n (combination name op args)
  := by
  apply (Value.toPatterns_inherit hV hn h).bind
  intro m ps hm hps
  cases ps with
  | nil => apply Advances.throw
  | cons p ps => exact Advances.pure (combine_inherits (hop m) hps)

theorem setMember_advances (v : Value) :
  Advances (fun _ _ => True) n (setMember v)
  := by
  unfold setMember
  split
  · split
    · apply Advances.pure trivial
    · apply Advances.throw
  · apply Advances.throw

theorem ofSet_inherits (hV : Value.Inherited low V) (v : Value) :
  Advances (fun m p => V m (.pattern p)) n (ofSet v)
  := by
  unfold ofSet
  split
  · exact Advances.pure (hV.leaf trivial trivial rfl)
  · apply (Advances.mapM fun e _ _ => setMember_advances e.1).bind
    exact fun m cs hm _ => Advances.pure (hV.leaf trivial trivial rfl)
  · apply Advances.throw

theorem range_advances (v : Value) :
  Advances (fun _ r => r.1.toNat ≤ r.2.toNat) n (range v)
  := by
  unfold range
  split
  · split
    · split
      · next h => exact Advances.pure h
      · apply Advances.throw
    · apply Advances.throw
  · apply Advances.throw

theorem ofRanges_inherits (hV : Value.Inherited low V) (args : List Value) :
  Advances (fun m p => V m (.pattern p)) n (ofRanges args)
  := by
  unfold ofRanges
  split
  · apply Advances.throw
  · next texts hempty =>
    apply (Advances.mapM fun v _ _ => range_advances v).bind
    rintro m rs hm ⟨hlen, hrs⟩
    apply Advances.pure
    have hne : rs ≠ [] := by
      rintro rfl
      apply hempty (List.length_eq_zero_iff.1 hlen.symm)
    exact hV.leaf ⟨hne, hrs⟩ trivial rfl

theorem selector_inherits (h : V n v) :
  Advances (fun m k => ∀ p, k = .pattern p → V m (.pattern p)) n (selector v)
  := by
  unfold selector
  split
  · apply Advances.pure
    rintro p ⟨⟩
    apply h
  · apply Advances.pure (by simp)
  · apply Advances.pure (by simp)
  · apply Advances.throw

theorem ofField_inherits (hV : Value.Inherited low V) (hn : low ≤ n) (hv : V n v) (hw : V n w) :
  Advances (fun m p => V m (.pattern p)) n (ofField v w)
  := by
  apply (selector_inherits hv).bind
  intro m k hm hk
  apply (Value.toPattern_inherits hV w (Nat.le_trans hn hm) (hV.later hm hw)).bind
  intro l p hl hp
  apply Advances.pure
  cases k with
  | literal name => exact hV.around trivial trivial rfl hp
  | pattern q => exact hV.pair trivial trivial rfl (hV.later hl (hk q rfl)) hp

theorem ofRuleName_inherits (hV : Value.Inherited low V) (v : Value) :
  Advances (fun m p => V m (.pattern p)) n (ofRuleName v)
  := by
  unfold ofRuleName
  split
  · split
    · apply Advances.throw
    · next h => exact Advances.pure (hV.leaf h trivial rfl)
  · apply Advances.throw

theorem bound_advances (v : Value) :
  Advances (fun _ b => b.WellFormed) n (bound v)
  := by
  unfold bound
  split
  · apply Advances.pure trivial
  · exact Advances.pure (Nat.succ_pos _)
  · apply Advances.throw

theorem ofRepetition_inherits (hV : Value.Inherited low V) (hn : low ≤ n) (hv : V n v) (w : Value) :
  Advances (fun m p => V m (.pattern p)) n (ofRepetition v w)
  := by
  apply (bound_advances w).bind
  intro m b hm hb
  apply (Value.toPattern_inherits hV v (Nat.le_trans hn hm) (hV.later hm hv)).bind
  exact fun l p hl hp => Advances.pure (hV.around hb trivial rfl hp)

theorem ofGroup_inherits (hV : Value.Inherited low V) (hn : low ≤ n) (hv : V n v) (w : Value) :
  Advances (fun m p => V m (.pattern p)) n (ofGroup v w)
  := by
  unfold ofGroup
  split
  · split
    · apply Advances.throw
    · next h =>
      apply (Value.toPattern_inherits hV v hn hv).bind
      exact fun m p hm hp => Advances.pure (hV.around h trivial rfl hp)
  · apply Advances.throw

end Pattern

theorem Grammar.ofValues_inherits (hV : Value.Inherited low V) {rules root : Value} (hn : low ≤ n)
    (hrules : V n rules) (hroot : V n root) :
  Advances (fun m g => V m (.grammar g) ∧ V m (.pattern (.grammar g))) n (ofValues rules root)
  := by
  unfold ofValues
  split
  · next es =>
    apply define_inherits hV hn (Value.offers_inherit hV es hn fun e he => hV.entry hrules he)
    intro o ho m hm
    rw [mem_rootOffer? ho]
    exact Value.toPattern_inherits hV root (Nat.le_trans hn hm) (hV.later hm hroot)
  · apply Advances.throw

/-! ### Constructors -/

namespace Constructor

theorem asValue_inherits {x : Build Pattern} (h : Advances (fun m p => V m (.pattern p)) n x) :
  Advances V n (asValue x)
  := by
  apply h.bind
  exact fun m p hm hp => Advances.pure hp

theorem wrap_inherits (hV : Value.Inherited low V) {f : Pattern → Pattern}
    (hf : ∀ n p, V n (.pattern p) → V n (.pattern (f p))) {v : Value} (hn : low ≤ n) (hv : V n v) :
  Advances V n (wrap f v)
  := by
  apply (Value.toPattern_inherits hV v hn hv).bind
  exact fun m p hm hp => Advances.pure (hf m p hp)

/-- What a constructor makes inherits from its arguments. -/
theorem apply_inherits (hV : Value.Inherited low V) (c : Constructor) {vs : List Value}
    (hn : low ≤ n) (h : ∀ v ∈ vs, V n v) :
  Advances V n (c.apply vs)
  := by
  unfold apply
  split
  · apply asValue_inherits (Value.toPattern_inherits hV _ hn (h _ (by simp)))
  · apply asValue_inherits (Pattern.ofSet_inherits hV _)
  · apply asValue_inherits (Pattern.ofRanges_inherits hV _)
  · apply asValue_inherits (Pattern.ofField_inherits hV hn (h _ (by simp)) (hV.scalar _))
  · apply asValue_inherits (Pattern.ofField_inherits hV hn (h _ (by simp)) (h _ (by simp)))
  · apply asValue_inherits (Pattern.ofRuleName_inherits hV _)
  · apply asValue_inherits (Pattern.combination_inherits hV _ _ hn h)
    exact fun m p q hp hq => hV.pair trivial trivial rfl hp hq
  · apply asValue_inherits (Pattern.combination_inherits hV _ _ hn h)
    exact fun m p q hp hq => hV.pair trivial trivial rfl hp hq
  · apply asValue_inherits (Pattern.ofRepetition_inherits hV hn (h _ (by simp)) _)
  · apply asValue_inherits (Pattern.ofRepetition_inherits hV hn (h _ (by simp)) _)
  · next v w =>
    apply asValue_inherits
    apply (Value.toPattern_inherits hV v hn (h v (by simp))).bind
    intro m p hm hp
    apply (Value.toPattern_inherits hV w (Nat.le_trans hn hm) (hV.later hm (h w (by simp)))).bind
    intro l q hl hq
    exact Advances.pure (hV.pair trivial trivial rfl (hV.later hl hp) hq)
  · apply wrap_inherits hV _ hn (h _ (by simp))
    exact fun m p hp => hV.around trivial trivial rfl hp
  · apply wrap_inherits hV _ hn (h _ (by simp))
    exact fun m p hp => hV.around trivial trivial rfl hp
  · apply wrap_inherits hV _ hn (h _ (by simp))
    exact fun m p hp => hV.around trivial trivial rfl hp
  · exact Advances.pure (hV.const (h _ (by simp)))
  · exact Advances.pure (hV.leaf trivial trivial rfl)
  · apply asValue_inherits (Pattern.ofGroup_inherits hV hn (h _ (by simp)) _)
  · apply wrap_inherits hV _ hn (h _ (by simp))
    exact fun m p hp => hV.around trivial trivial rfl hp
  · apply (Grammar.ofValues_inherits hV hn (h _ (by simp)) (hV.scalar _)).bind
    exact fun m g hm hg => Advances.pure hg.1
  · apply (Grammar.ofValues_inherits hV hn (h _ (by simp)) (h _ (by simp))).bind
    exact fun m g hm hg => Advances.pure hg.1
  · apply Advances.throw

end Constructor

/-! ### Expressions -/

theorem Env.value_inherits {env : Env} (h : ∀ b ∈ env, V n b.2) (name : String) :
  Advances V n (env.value name)
  := by
  unfold Env.value
  split
  · next v hv =>
    obtain ⟨before, after, rfl, -⟩ := List.lookup_eq_some_iff.1 hv
    apply Advances.pure (h (name, v) (by simp))
  · apply Advances.throw

/-- No two keys of some entries are alike, and what is inherited holds of all keys and values. -/
structure Entries.Inherit (V : Nat → Value → Prop) (n : Nat) (es : List (Value × Value)) :
    Prop where
  distinct : haveDistinctKeys es = true
  each : ∀ e ∈ es, V n e.1 ∧ V n e.2

theorem Entries.Inherit.nil :
  Inherit V n []
  := ⟨rfl, by simp⟩

theorem Entries.Inherit.later {es : List (Value × Value)} {m : Nat} (hV : Value.Inherited low V)
    (h : Inherit V n es) (hm : n ≤ m) :
  Inherit V m es
  := ⟨h.distinct, fun e he => ⟨hV.later hm (h.each e he).1, hV.later hm (h.each e he).2⟩⟩

theorem Entries.Inherit.write {es : List (Value × Value)} {key value : Value} (h : Inherit V n es)
    (hkey : V n key) (hvalue : V n value) :
  Inherit V n (write key value es)
  := by
  use haveDistinctKeys_write h.distinct key value
  intro e he
  rcases mem_write he with he | ⟨hv, hk | ⟨d, hd, hk⟩⟩
  · apply h.each e he
  · rw [hk, hv]
    exact ⟨hkey, hvalue⟩
  · rw [hk, hv]
    exact ⟨(h.each d hd).1, hvalue⟩

theorem Entries.Inherit.writeChecked {es : List (Value × Value)} {key value : Value}
    (h : Inherit V n es) (hkey : V n key) (hvalue : V n value) :
  Advances (Inherit V) n (writeChecked key value es)
  := by
  unfold Entries.writeChecked
  split
  · apply Advances.throw
  · apply Advances.pure (h.write hkey hvalue)

mutual

/-- What an expression builds inherits from the values bound to names. -/
theorem Expr.eval_inherits (hV : Value.Inherited low V) {env : Env} :
    ∀ (e : Expr) {n : Nat}, low ≤ n → (∀ b ∈ env, V n b.2) → Advances V n (e.eval env)
  | .scalar s, _, _, _ => Advances.pure (hV.scalar s)
  | .list xs, _, hn, henv => by
    apply (Expr.evalAll_inherit hV xs hn henv).bind
    exact fun m vs hm hvs => Advances.pure (hV.list hvs)
  | .tuple xs, _, hn, henv => by
    apply (Expr.evalAll_inherit hV xs hn henv).bind
    exact fun m vs hm hvs => Advances.pure (hV.tuple hvs)
  | .dict es, _, hn, henv => by
    apply (Expr.evalEntries_inherit hV es hn henv .nil).bind
    exact fun m fs hm hfs => Advances.pure (hV.dict hfs.distinct hfs.each)
  | .table xs es, _, hn, henv => by
    apply (Expr.evalAll_inherit hV xs hn henv).bind
    intro m vs hm hvs
    apply (Expr.evalEntries_inherit hV es (Nat.le_trans hn hm)
      (fun b hb => hV.later hm (henv b hb)) .nil).bind
    intro l fs hl hfs
    exact Advances.pure
      (hV.table (fun v hv => hV.later hl (hvs v hv)) hfs.distinct hfs.each)
  | .ref name, _, _, henv => Env.value_inherits henv name
  | .call c xs, _, hn, henv => by
    apply (Expr.evalAll_inherit hV xs hn henv).bind
    exact fun m vs hm hvs => c.apply_inherits hV (Nat.le_trans hn hm) hvs

theorem Expr.evalAll_inherit (hV : Value.Inherited low V) {env : Env} :
    ∀ (xs : List Expr) {n : Nat}, low ≤ n → (∀ b ∈ env, V n b.2) →
      Advances (fun m vs => ∀ v ∈ vs, V m v) n (Expr.evalAll env xs)
  | [], _, _, _ => Advances.pure (by simp)
  | x :: xs, _, hn, henv => by
    apply (Expr.eval_inherits hV x hn henv).bind
    intro m v hm hv
    apply (Expr.evalAll_inherit hV xs (Nat.le_trans hn hm)
      fun b hb => hV.later hm (henv b hb)).bind
    intro l vs hl hvs
    exact Advances.pure (List.forall_mem_cons.2 ⟨hV.later hl hv, hvs⟩)

theorem Expr.evalEntries_inherit (hV : Value.Inherited low V) {env : Env} :
    ∀ (es : List (Expr × Expr)) {n : Nat} {fs : List (Value × Value)}, low ≤ n →
      (∀ b ∈ env, V n b.2) → Entries.Inherit V n fs →
        Advances (Entries.Inherit V) n (Expr.evalEntries env es fs)
  | [], _, _, _, _, hfs => Advances.pure hfs
  | (k, v) :: es, _, _, hn, henv, hfs => by
    apply (Expr.eval_inherits hV k hn henv).bind
    intro m key hm hkey
    have henv' := fun b hb => hV.later hm (henv b hb)
    apply (Expr.eval_inherits hV v (Nat.le_trans hn hm) henv').bind
    intro l value hl hvalue
    have hml := Nat.le_trans hm hl
    apply ((hfs.later hV hml).writeChecked (hV.later hl hkey) hvalue).bind
    intro j fs hj hfs
    have hlow := Nat.le_trans hn (Nat.le_trans hml hj)
    apply Expr.evalEntries_inherit hV es hlow _ hfs
    exact fun b hb => hV.later hj (hV.later hl (henv' b hb))

end

end Peg
