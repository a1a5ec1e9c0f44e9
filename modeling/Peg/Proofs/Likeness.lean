import Mathlib.Data.List.Forall2
import Peg.Value.Comparison

/-!
# Likeness is an equivalence

Both comparisons of values are equivalences.  For plain equality this is clear.  For likeness it
goes by induction over values and patterns: `EquivalentAt` states the three laws at a value, and
`EquivalentAt.unary` and `EquivalentAt.binary` carry them from the parts of a value to the value.
-/

namespace Peg

variable {α β γ : Type}

/-- The laws of an equivalence for a comparison, as far as they start at `a`. -/
structure EquivalentAt (r : α → α → Bool) (a : α) : Prop where
  refl : r a a = true
  symm : ∀ b, r a b = true → r b a = true
  trans : ∀ b c, r a b = true → r b c = true → r a c = true

namespace EquivalentAt

theorem beq [BEq α] [LawfulBEq α] (a : α) :
  EquivalentAt (fun a b => a == b) a
  := by
  constructor
  · simp
  · intro b h
    rw [beq_iff_eq] at h ⊢
    rw [h]
  · intro b c h h'
    rw [beq_iff_eq] at h h' ⊢
    rw [h, h']

/-- The laws hold for things with one part when they hold for the part. -/
theorem unary {f : α → β} {r : α → α → Bool} {s : β → β → Bool} {a : α}
    (h : ∀ a b', s (f a) b' = true ↔ ∃ b, b' = f b ∧ r a b = true) (ha : EquivalentAt r a) :
  EquivalentAt s (f a)
  := by
  constructor
  · apply (h a _).2 ⟨a, rfl, ha.refl⟩
  · intro b' hb'
    obtain ⟨b, rfl, hb⟩ := (h a b').1 hb'
    apply (h b _).2 ⟨a, rfl, ha.symm b hb⟩
  · intro b' c' hb' hc'
    obtain ⟨b, rfl, hb⟩ := (h a b').1 hb'
    obtain ⟨c, rfl, hc⟩ := (h b c').1 hc'
    apply (h a _).2 ⟨c, rfl, ha.trans b c hb hc⟩

/-- The laws hold for things with two parts when they hold for both parts. -/
theorem binary {f : α → β → γ} {r : α → α → Bool} {s : β → β → Bool} {t : γ → γ → Bool}
    {a : α} {b : β}
    (h : ∀ a b c', t (f a b) c' = true
      ↔ ∃ a' b', c' = f a' b' ∧ r a a' = true ∧ s b b' = true)
    (ha : EquivalentAt r a) (hb : EquivalentAt s b) :
  EquivalentAt t (f a b)
  := by
  constructor
  · apply (h a b _).2 ⟨a, b, rfl, ha.refl, hb.refl⟩
  · intro c' hc
    obtain ⟨a', b', rfl, h₁, h₂⟩ := (h a b c').1 hc
    apply (h a' b' _).2 ⟨a, b, rfl, ha.symm a' h₁, hb.symm b' h₂⟩
  · intro c' d' hc hd
    obtain ⟨a', b', rfl, h₁, h₂⟩ := (h a b c').1 hc
    obtain ⟨a'', b'', rfl, h₁', h₂'⟩ := (h a' b' d').1 hd
    apply (h a b _).2 ⟨a'', b'', rfl, ha.trans a' a'' h₁ h₁', hb.trans b' b'' h₂ h₂'⟩

end EquivalentAt

/-- Of lists that are related one by one, each member of one is related to one of the other. -/
theorem exists_mem_of_forall₂ {r : α → β → Prop} {xs : List α} {ys : List β}
    (h : List.Forall₂ r xs ys) :
  (∀ x ∈ xs, ∃ y ∈ ys, r x y) ∧ ∀ y ∈ ys, ∃ x ∈ xs, r x y
  := by
  induction h with
  | nil => simp
  | @cons x y xs ys hxy _ ih =>
    constructor
    · intro x' hx
      rcases List.mem_cons.1 hx with rfl | hx
      · exact ⟨y, List.mem_cons_self, hxy⟩
      · obtain ⟨y', hy, hxy⟩ := ih.1 x' hx
        exact ⟨y', List.mem_cons_of_mem _ hy, hxy⟩
    · intro y' hy
      rcases List.mem_cons.1 hy with rfl | hy
      · exact ⟨x, List.mem_cons_self, hxy⟩
      · obtain ⟨x', hx, hxy⟩ := ih.2 y' hy
        exact ⟨x', List.mem_cons_of_mem _ hx, hxy⟩

/-! ### Entries of dictionaries -/

theorem Value.entriesWithin_iff {es fs : List (Value × Value)} :
  Value.entriesWithin es fs = true
    ↔ ∀ e ∈ es, ∃ f ∈ fs, e.1.alike f.1 = true ∧ e.2.alike f.2 = true
  := by
  induction es with
  | nil => simp [Value.entriesWithin]
  | cons e es ih => simp [Value.entriesWithin, ih, Value.alike]

theorem Value.entryAmong_iff {es : List (Value × Value)} {f : Value × Value} :
  Value.entryAmong es f = true
    ↔ ∃ e ∈ es, e.1.alike f.1 = true ∧ e.2.alike f.2 = true
  := by
  induction es with
  | nil => simp [Value.entryAmong]
  | cons e es ih => simp [Value.entryAmong, ih, Value.alike]

/-- Whether two lists of entries are alike, whatever their order. -/
def Value.entriesAlike (es fs : List (Value × Value)) : Bool :=
  Value.entriesWithin es fs && fs.all fun f => Value.entryAmong es f

/-- Lists of entries are alike when each entry of one has an entry alike to it in the other. -/
theorem Value.entriesAlike_iff {es fs : List (Value × Value)} :
  Value.entriesAlike es fs = true
    ↔ (∀ e ∈ es, ∃ f ∈ fs, e.1.alike f.1 = true ∧ e.2.alike f.2 = true)
      ∧ ∀ f ∈ fs, ∃ e ∈ es, e.1.alike f.1 = true ∧ e.2.alike f.2 = true
  := by
  simp only [Value.entriesAlike, Bool.and_eq_true, Value.entriesWithin_iff, List.all_eq_true,
    Value.entryAmong_iff]

/-- The laws hold for lists of entries when they hold for all keys and values in them. -/
theorem Value.entriesAlike_equivalentAt {es : List (Value × Value)}
    (h : ∀ e ∈ es, EquivalentAt Value.alike e.1 ∧ EquivalentAt Value.alike e.2) :
  EquivalentAt Value.entriesAlike es
  := by
  constructor
  · apply Value.entriesAlike_iff.2
    constructor
    · exact fun e he => ⟨e, he, (h e he).1.refl, (h e he).2.refl⟩
    · exact fun e he => ⟨e, he, (h e he).1.refl, (h e he).2.refl⟩
  · intro fs hf
    obtain ⟨h₁, h₂⟩ := Value.entriesAlike_iff.1 hf
    apply Value.entriesAlike_iff.2
    constructor
    · intro f hf
      obtain ⟨e, he, hk, hv⟩ := h₂ f hf
      use e, he, (h e he).1.symm _ hk, (h e he).2.symm _ hv
    · intro e he
      obtain ⟨f, hf, hk, hv⟩ := h₁ e he
      use f, hf, (h e he).1.symm _ hk, (h e he).2.symm _ hv
  · intro fs gs hf hg
    obtain ⟨h₁, h₂⟩ := Value.entriesAlike_iff.1 hf
    obtain ⟨h₁', h₂'⟩ := Value.entriesAlike_iff.1 hg
    apply Value.entriesAlike_iff.2
    constructor
    · intro e he
      obtain ⟨f, hf, hk, hv⟩ := h₁ e he
      obtain ⟨g, hg, hk', hv'⟩ := h₁' f hf
      use g, hg, (h e he).1.trans _ _ hk hk', (h e he).2.trans _ _ hv hv'
    · intro g hg
      obtain ⟨f, hf, hk', hv'⟩ := h₂' g hg
      obtain ⟨e, he, hk, hv⟩ := h₂ f hf
      use e, he, (h e he).1.trans _ _ hk hk', (h e he).2.trans _ _ hv hv'

/-! ### What is alike to something with parts -/

theorem Value.scalar_agrees_iff {s : Scalar} {v : Value} :
  (Value.scalar s).agrees .alike v = true ↔ ∃ t, v = .scalar t ∧ s.alike t = true
  := by
  cases v <;> simp [agrees, Comparison.scalars]

theorem Value.list_agrees_iff {xs : List Value} {v : Value} :
  (Value.list xs).agrees .alike v = true
    ↔ ∃ ys, v = .list ys ∧ Value.listAgrees .alike xs ys = true
  := by
  cases v <;> simp [agrees]

theorem Value.tuple_agrees_iff {xs : List Value} {v : Value} :
  (Value.tuple xs).agrees .alike v = true
    ↔ ∃ ys, v = .tuple ys ∧ Value.listAgrees .alike xs ys = true
  := by
  cases v <;> simp [agrees]

theorem Value.dict_agrees_iff {es : List (Value × Value)} {v : Value} :
  (Value.dict es).agrees .alike v = true
    ↔ ∃ fs, v = .dict fs ∧ Value.entriesAlike es fs = true
  := by
  cases v <;> simp [agrees, entriesAlike]

theorem Value.table_agrees_iff {xs : List Value} {es : List (Value × Value)} {v : Value} :
  (Value.table xs es).agrees .alike v = true
    ↔ ∃ ys fs, v = .table ys fs ∧ Value.listAgrees .alike xs ys = true
      ∧ Value.entriesAlike es fs = true
  := by
  cases v <;> simp [agrees, entriesAlike]

theorem Value.pattern_agrees_iff {p : Pattern} {v : Value} :
  (Value.pattern p).agrees .alike v = true ↔ ∃ q, v = .pattern q ∧ p.agrees .alike q = true
  := by
  cases v <;> simp [agrees]

theorem Value.grammar_agrees_iff {g : Grammar} {v : Value} :
  (Value.grammar g).agrees .alike v = true ↔ ∃ h, v = .grammar h ∧ g.agrees h = true
  := by
  cases v <;> simp [agrees]

theorem Selector.literal_agrees_iff {key : FieldName} {k : Selector} :
  (Selector.literal key).agrees .alike k = true ↔ ∃ l, k = .literal l ∧ (key == l) = true
  := by
  cases k <;> simp [agrees]

theorem Selector.pattern_agrees_iff {p : Pattern} {k : Selector} :
  (Selector.pattern p).agrees .alike k = true ↔ ∃ q, k = .pattern q ∧ p.agrees .alike q = true
  := by
  cases k <;> simp [agrees]

theorem Pattern.field_agrees_iff {k : Selector} {p r : Pattern} :
  (field k p).agrees .alike r = true
    ↔ ∃ l q, r = field l q ∧ k.agrees .alike l = true ∧ p.agrees .alike q = true
  := by
  cases r <;> simp [agrees]

theorem Pattern.sequence_agrees_iff {p q r : Pattern} :
  (sequence p q).agrees .alike r = true
    ↔ ∃ p' q', r = sequence p' q' ∧ p.agrees .alike p' = true ∧ q.agrees .alike q' = true
  := by
  cases r <;> simp [agrees]

theorem Pattern.choice_agrees_iff {p q r : Pattern} :
  (choice p q).agrees .alike r = true
    ↔ ∃ p' q', r = choice p' q' ∧ p.agrees .alike p' = true ∧ q.agrees .alike q' = true
  := by
  cases r <;> simp [agrees]

theorem Pattern.difference_agrees_iff {p q r : Pattern} :
  (difference p q).agrees .alike r = true
    ↔ ∃ p' q', r = difference p' q' ∧ p.agrees .alike p' = true ∧ q.agrees .alike q' = true
  := by
  cases r <;> simp [agrees]

theorem Pattern.repetition_agrees_iff {p r : Pattern} {bound : Bound} :
  (repetition p bound).agrees .alike r = true
    ↔ ∃ q bound', r = repetition q bound' ∧ p.agrees .alike q = true ∧ (bound == bound') = true
  := by
  cases r <;> simp [agrees]
  grind

theorem Pattern.group_agrees_iff {p r : Pattern} {name : String} :
  (group p name).agrees .alike r = true
    ↔ ∃ q name', r = group q name' ∧ p.agrees .alike q = true ∧ (name == name') = true
  := by
  cases r <;> simp [agrees]
  grind

theorem Pattern.invert_agrees_iff {p r : Pattern} :
  (invert p).agrees .alike r = true ↔ ∃ q, r = invert q ∧ p.agrees .alike q = true
  := by
  cases r <;> simp [agrees]

theorem Pattern.lookahead_agrees_iff {p r : Pattern} :
  (lookahead p).agrees .alike r = true ↔ ∃ q, r = lookahead q ∧ p.agrees .alike q = true
  := by
  cases r <;> simp [agrees]

theorem Pattern.span_agrees_iff {p r : Pattern} :
  (span p).agrees .alike r = true ↔ ∃ q, r = span q ∧ p.agrees .alike q = true
  := by
  cases r <;> simp [agrees]

theorem Pattern.collect_agrees_iff {p r : Pattern} :
  (collect p).agrees .alike r = true ↔ ∃ q, r = collect q ∧ p.agrees .alike q = true
  := by
  cases r <;> simp [agrees]

theorem Pattern.const_agrees_iff {v : Value} {r : Pattern} :
  (const v).agrees .alike r = true ↔ ∃ w, r = const w ∧ v.agrees .alike w = true
  := by
  cases r <;> simp [agrees]

/-! ### Values and patterns -/

theorem Scalar.equivalentAt (s : Scalar) :
  EquivalentAt Scalar.alike s
  := by
  constructor
  · rw [Scalar.alike_iff]
  · intro t h
    rw [Scalar.alike_iff] at h ⊢
    rw [h]
  · intro t u h h'
    rw [Scalar.alike_iff] at h h' ⊢
    rw [h, h']

theorem Grammar.equivalentAt (g : Grammar) :
  EquivalentAt Grammar.agrees g
  := by
  constructor
  · rw [Grammar.agrees_iff]
  · intro h e
    rw [Grammar.agrees_iff] at e ⊢
    rw [e]
  · intro h i e e'
    rw [Grammar.agrees_iff] at e e' ⊢
    rw [e, e']

mutual

theorem Value.equivalentAt : ∀ v : Value, EquivalentAt (Value.agrees .alike) v
  | .scalar s => .unary (fun _ _ => Value.scalar_agrees_iff) (Scalar.equivalentAt s)
  | .list xs => .unary (fun _ _ => Value.list_agrees_iff) (Value.list_equivalentAt xs)
  | .tuple xs => .unary (fun _ _ => Value.tuple_agrees_iff) (Value.list_equivalentAt xs)
  | .dict es => .unary (fun _ _ => Value.dict_agrees_iff)
      (Value.entriesAlike_equivalentAt (Value.entries_equivalentAt es))
  | .table xs es => .binary (fun _ _ _ => Value.table_agrees_iff) (Value.list_equivalentAt xs)
      (Value.entriesAlike_equivalentAt (Value.entries_equivalentAt es))
  | .pattern p => .unary (fun _ _ => Value.pattern_agrees_iff) (Pattern.equivalentAt p)
  | .grammar g => .unary (fun _ _ => Value.grammar_agrees_iff) (Grammar.equivalentAt g)

theorem Value.list_equivalentAt :
    ∀ xs : List Value, EquivalentAt (Value.listAgrees .alike) xs
  | [] => by
    constructor
    · rfl
    · intro ys h
      cases ys <;> simp_all [Value.listAgrees]
    · intro ys zs h h'
      cases ys <;> simp_all [Value.listAgrees]
  | x :: xs => .binary (fun _ _ ys => by cases ys <;> simp [Value.listAgrees])
      (Value.equivalentAt x) (Value.list_equivalentAt xs)

theorem Value.entries_equivalentAt :
    ∀ es : List (Value × Value),
      ∀ e ∈ es, EquivalentAt Value.alike e.1 ∧ EquivalentAt Value.alike e.2
  | [] => by simp
  | (k, v) :: es => by
    intro e he
    rcases List.mem_cons.1 he with rfl | he
    · exact ⟨Value.equivalentAt k, Value.equivalentAt v⟩
    · apply Value.entries_equivalentAt es e he

theorem Selector.equivalentAt : ∀ k : Selector, EquivalentAt (Selector.agrees .alike) k
  | .literal key => .unary (fun _ _ => Selector.literal_agrees_iff) (.beq key)
  | .pattern p => .unary (fun _ _ => Selector.pattern_agrees_iff) (Pattern.equivalentAt p)

theorem Pattern.equivalentAt : ∀ p : Pattern, EquivalentAt (Pattern.agrees .alike) p
  | .literal t => .unary (fun _ q => by cases q <;> simp [Pattern.agrees]) (.beq t)
  | .truth b => .unary (fun _ q => by cases q <;> simp [Pattern.agrees]) (.beq b)
  | .anyChars n => .unary (fun _ q => by cases q <;> simp [Pattern.agrees]) (.beq n)
  | .fewerThan n => .unary (fun _ q => by cases q <;> simp [Pattern.agrees]) (.beq n)
  | .charSet s => .unary (fun _ q => by cases q <;> simp [Pattern.agrees]) (.beq s)
  | .charRange rs => .unary (fun _ q => by cases q <;> simp [Pattern.agrees]) (.beq rs)
  | .field k v => .binary (fun _ _ _ => Pattern.field_agrees_iff) (Selector.equivalentAt k)
      (Pattern.equivalentAt v)
  | .sequence p q => .binary (fun _ _ _ => Pattern.sequence_agrees_iff) (Pattern.equivalentAt p)
      (Pattern.equivalentAt q)
  | .choice p q => .binary (fun _ _ _ => Pattern.choice_agrees_iff) (Pattern.equivalentAt p)
      (Pattern.equivalentAt q)
  | .repetition p bound => .binary (fun _ _ _ => Pattern.repetition_agrees_iff)
      (Pattern.equivalentAt p) (.beq bound)
  | .difference p q => .binary (fun _ _ _ => Pattern.difference_agrees_iff) (Pattern.equivalentAt p)
      (Pattern.equivalentAt q)
  | .invert p => .unary (fun _ _ => Pattern.invert_agrees_iff) (Pattern.equivalentAt p)
  | .lookahead p => .unary (fun _ _ => Pattern.lookahead_agrees_iff) (Pattern.equivalentAt p)
  | .ruleRef name => .unary (fun _ q => by cases q <;> simp [Pattern.agrees]) (.beq name)
  | .grammar g => .unary (fun _ q => by cases q <;> simp [Pattern.agrees])
      (Grammar.equivalentAt g)
  | .span p => .unary (fun _ _ => Pattern.span_agrees_iff) (Pattern.equivalentAt p)
  | .const v => .unary (fun _ _ => Pattern.const_agrees_iff) (Value.equivalentAt v)
  | .position => by
    constructor
    · rfl
    · intro q h
      cases q <;> simp_all [Pattern.agrees]
    · intro q r h h'
      cases q <;> simp_all [Pattern.agrees]
  | .group p name => .binary (fun _ _ _ => Pattern.group_agrees_iff) (Pattern.equivalentAt p)
      (.beq name)
  | .collect p => .unary (fun _ _ => Pattern.collect_agrees_iff) (Pattern.equivalentAt p)

end

/-! ### Both comparisons -/

namespace Value

variable {c : Comparison}

@[simp]
theorem agrees_refl (v : Value) :
  v.agrees c v = true
  := by
  cases c with
  | identical => apply (agrees_identical v v).2 rfl
  | alike => apply (equivalentAt v).refl

theorem agrees_symm {v w : Value} (h : v.agrees c w = true) :
  w.agrees c v = true
  := by
  cases c with
  | identical =>
    rw [agrees_identical] at h ⊢
    rw [h]
  | alike => apply (equivalentAt v).symm w h

theorem agrees_trans {u v w : Value} (h : u.agrees c v = true) (h' : v.agrees c w = true) :
  u.agrees c w = true
  := by
  cases c with
  | identical =>
    rw [agrees_identical] at h h' ⊢
    rw [h, h']
  | alike => apply (equivalentAt u).trans v w h h'

/-- Values that agree in a comparison are alike. -/
theorem alike_of_agrees {v w : Value} (h : v.agrees c w = true) :
  v.alike w = true
  := by
  cases c with
  | identical =>
    rw [agrees_identical] at h
    rw [h]
    apply agrees_refl w
  | alike => apply h

theorem alike_comm (v w : Value) :
  v.alike w = w.alike v
  := by
  rw [Bool.eq_iff_iff]
  exact ⟨fun h => agrees_symm h, fun h => agrees_symm h⟩

/-- Values alike to each other are alike to the same values. -/
theorem alike_congr {v w : Value} (h : v.alike w = true) (u : Value) :
  u.alike v = u.alike w
  := by
  rw [Bool.eq_iff_iff]
  use fun hu => agrees_trans hu h, fun hu => agrees_trans hu (agrees_symm h)

/-! ### Lists -/

theorem listAgrees_iff {xs ys : List Value} :
  listAgrees c xs ys = true ↔ List.Forall₂ (fun x y => x.agrees c y = true) xs ys
  := by
  induction xs generalizing ys with
  | nil => cases ys <;> simp [listAgrees]
  | cons x xs ih => cases ys <;> simp [listAgrees, ih]

theorem listAgrees_refl (xs : List Value) :
  listAgrees c xs xs = true
  := by
  rw [listAgrees_iff]
  apply List.forall₂_same.2
  exact fun x _ => agrees_refl x

theorem listAgrees_symm {xs ys : List Value} (h : listAgrees c xs ys = true) :
  listAgrees c ys xs = true
  := by
  rw [listAgrees_iff] at h ⊢
  apply h.flip.imp
  exact fun _ _ h => agrees_symm h

theorem listAgrees_trans {xs ys zs : List Value} (h : listAgrees c xs ys = true)
    (h' : listAgrees c ys zs = true) :
  listAgrees c xs zs = true
  := by
  rw [listAgrees_iff] at h h' ⊢
  induction h generalizing zs with
  | nil => apply h'
  | cons h _ ih =>
    obtain ⟨z, zs, hz, hzs, rfl⟩ := List.forall₂_cons_left_iff.1 h'
    exact .cons (agrees_trans h hz) (ih hzs)

/-- Lists with a last member each agree when the lists before and the last members do. -/
theorem listAgrees_concat {xs ys : List Value} {x y : Value} :
  listAgrees c (xs ++ [x]) (ys ++ [y]) = true
    ↔ listAgrees c xs ys = true ∧ x.agrees c y = true
  := by
  rw [listAgrees_iff, listAgrees_iff, ← List.forall₂_reverse_iff, List.reverse_concat,
    List.reverse_concat, List.forall₂_cons, List.forall₂_reverse_iff, and_comm]

/-! ### Entries and tables -/

variable {es fs : List (Value × Value)}

/-- Lists of entries with alike keys and values, one after the other, are alike. -/
theorem entriesAlike_of_forall₂
    (h : List.Forall₂ (fun e f => e.1.alike f.1 = true ∧ e.2.alike f.2 = true) es fs) :
  entriesAlike es fs = true
  := by
  rw [entriesAlike_iff]
  apply exists_mem_of_forall₂ h

theorem entriesAlike_of_perm (h : es.Perm fs) :
  entriesAlike es fs = true
  := by
  rw [entriesAlike_iff]
  constructor
  · exact fun e he => ⟨e, h.mem_iff.1 he, agrees_refl _, agrees_refl _⟩
  · exact fun f hf => ⟨f, h.mem_iff.2 hf, agrees_refl _, agrees_refl _⟩

theorem dict_alike_iff :
  (Value.dict es).alike (.dict fs) = true ↔ entriesAlike es fs = true
  := by
  simp [alike, agrees, entriesAlike]

theorem table_alike_iff {xs ys : List Value} :
  (Value.table xs es).alike (.table ys fs) = true
    ↔ listAgrees .alike xs ys = true ∧ entriesAlike es fs = true
  := by
  simp [alike, agrees, entriesAlike]

end Value

end Peg
