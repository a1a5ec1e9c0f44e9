import Mathlib.Data.List.Induction
import Peg.Proofs.Reordering
import Peg.Table

/-!
# Tables as keys

A table can be a key when all its items and fields can.  So equality of tables has to be sound: it
is an equivalence, which does not see the order in which fields were written, in the table or in
dictionaries in it, and of two tables that are equal both can be keys, or neither.

Entries are compared as a dictionary compares them, by their number and by what is found under each
key: that is `Value.entriesAlike_iff_length`.  Of the values written under keys that are alike only
the last one is found, by `Entries.lookup?_written`.  And what is alike to a value has a part that
keeps it from being a key only if the value has one, which goes by induction over values: `PassesOn`
states it at a value, and `PassesOn.unary` and `PassesOn.binary` carry it from the parts of a value
to the value.
-/

namespace Peg

/-! ### Entries as maps -/

namespace Entries

variable {es fs : List (Value × Value)} {e : Value × Value} {key k v : Value}

/-- The entries that are there after some writes, one after the other. -/
def written (es : List (Value × Value)) : List (Value × Value) :=
  es.foldl (fun fs e => write e.1 e.2 fs) []

/-- The value that the last of some writes under a key alike to `key` wrote. -/
def lastWritten? (es : List (Value × Value)) (key : Value) : Option Value :=
  lookup? es.reverse key

theorem lookup?_cons (e : Value × Value) (es : List (Value × Value)) (key : Value) :
  lookup? (e :: es) key = if e.1.alike key = true then some e.2 else lookup? es key
  := by
  simp only [lookup?, List.find?_cons]
  split
  · next h => rw [if_pos h, Option.map_some]
  · next h => rw [if_neg (by simp [h])]

/-- A write changes what is found under keys alike to the one that is written, and nothing else. -/
theorem lookup?_write (k v : Value) (es : List (Value × Value)) (key : Value) :
  lookup? (write k v es) key = if k.alike key = true then some v else lookup? es key
  := by
  induction es with
  | nil => rw [write, lookup?_cons]
  | cons e es ih =>
    rw [write]
    split
    · next he =>
      have hkey : e.1.alike key = k.alike key := by
        rw [Value.alike_comm, Value.alike_congr he, Value.alike_comm]
      rw [lookup?_cons, lookup?_cons, hkey]
      split <;> rfl
    · next he =>
      rw [lookup?_cons, lookup?_cons, ih]
      -- a key cannot be alike to both keys, which are not alike to each other
      split
      · next hkey =>
        rw [if_neg]
        exact fun hk => he (Value.agrees_trans hkey (Value.agrees_symm hk))
      · rfl

theorem written_concat (es : List (Value × Value)) (e : Value × Value) :
  written (es ++ [e]) = write e.1 e.2 (written es)
  := by
  rw [written, List.foldl_concat, written]

theorem haveDistinctKeys_written (es : List (Value × Value)) :
  haveDistinctKeys (written es) = true
  := by
  induction es using List.reverseRecOn with
  | nil => rfl
  | append_singleton es e ih =>
    rw [written_concat]
    apply haveDistinctKeys_write ih

/-- What is found after some writes is what was written last. -/
theorem lookup?_written (es : List (Value × Value)) (key : Value) :
  lookup? (written es) key = lastWritten? es key
  := by
  induction es using List.reverseRecOn with
  | nil => rfl
  | append_singleton es e ih =>
    rw [written_concat, lookup?_write, ih, lastWritten?, lastWritten?, List.reverse_concat,
      lookup?_cons]

/-- What is found in entries with distinct keys does not depend on their order. -/
theorem lookup?_perm (h : haveDistinctKeys es = true) (hperm : es.Perm fs) (key : Value) :
  lookup? es key = lookup? fs key
  := by
  cases hv : lookup? es key with
  | some v =>
    obtain ⟨e, he, hkey, rfl⟩ := exists_mem_of_lookup? hv
    rw [lookup?_of_mem (Value.haveDistinctKeys_perm hperm ▸ h) (hperm.mem_iff.1 he) hkey]
  | none =>
    cases hw : lookup? fs key with
    | none => rfl
    | some w =>
      obtain ⟨f, hf, hkey, rfl⟩ := exists_mem_of_lookup? hw
      rw [lookup?_of_mem h (hperm.mem_iff.2 hf) hkey] at hv
      cases hv

theorem lookup?_congr (h : k.alike key = true) :
  lookup? es k = lookup? es key
  := by
  simp only [lookup?, Value.alike_congr h]

/-- In entries with distinct keys an entry with an alike key and value is what is found. -/
theorem exists_mem_alike_iff (h : haveDistinctKeys es = true) {k v : Value} :
  (∃ e ∈ es, k.alike e.1 = true ∧ v.alike e.2 = true)
    ↔ ∃ w, lookup? es k = some w ∧ v.alike w = true
  := by
  constructor
  · rintro ⟨e, he, hkey, hvalue⟩
    exact ⟨e.2, lookup?_of_mem h he (Value.agrees_symm hkey), hvalue⟩
  · rintro ⟨w, hw, hvalue⟩
    obtain ⟨e, he, hkey, rfl⟩ := exists_mem_of_lookup? hw
    exact ⟨e, he, Value.agrees_symm hkey, hvalue⟩

theorem exists_mem_of_found (h : ∃ w, lookup? es k = some w ∧ v.alike w = true) :
  ∃ e ∈ es, k.alike e.1 = true
  := by
  obtain ⟨w, hw, -⟩ := h
  obtain ⟨e, he, hkey, -⟩ := exists_mem_of_lookup? hw
  exact ⟨e, he, Value.agrees_symm hkey⟩

end Entries

namespace Value

variable {v w : Value} {es fs : List (Value × Value)}

/-- Entries with distinct keys are alike when each value of either is alike to what is found under
its key in the other. -/
theorem entriesAlike_iff_found (hes : Entries.haveDistinctKeys es = true)
    (hfs : Entries.haveDistinctKeys fs = true) :
  entriesAlike es fs = true
    ↔ (∀ e ∈ es, ∃ v, Entries.lookup? fs e.1 = some v ∧ e.2.alike v = true)
      ∧ ∀ f ∈ fs, ∃ v, Entries.lookup? es f.1 = some v ∧ f.2.alike v = true
  := by
  have hback : ∀ f : Value × Value, (∃ e ∈ es, e.1.alike f.1 = true ∧ e.2.alike f.2 = true)
      ↔ ∃ v, Entries.lookup? es f.1 = some v ∧ f.2.alike v = true := by
    intro f
    rw [← Entries.exists_mem_alike_iff hes]
    simp only [alike_comm]
  simp only [entriesAlike_iff, hback, Entries.exists_mem_alike_iff hfs]

/-- Entries with distinct keys are alike when what is found under each key is. -/
theorem entriesAlike_iff_lookup? (hes : Entries.haveDistinctKeys es = true)
    (hfs : Entries.haveDistinctKeys fs = true) :
  entriesAlike es fs = true
    ↔ ∀ key, Option.Rel (fun v w => v.alike w = true) (Entries.lookup? es key)
        (Entries.lookup? fs key)
  := by
  rw [entriesAlike_iff_found hes hfs]
  constructor
  · rintro ⟨hforth, hback⟩ key
    cases hv : Entries.lookup? es key with
    | some v =>
      obtain ⟨e, he, hkey, rfl⟩ := Entries.exists_mem_of_lookup? hv
      obtain ⟨w, hw, hvalues⟩ := hforth e he
      rw [← Entries.lookup?_congr hkey, hw]
      exact .some hvalues
    | none =>
      cases hw : Entries.lookup? fs key with
      | none => exact .none
      | some w =>
        obtain ⟨f, hf, hkey, rfl⟩ := Entries.exists_mem_of_lookup? hw
        obtain ⟨v, hv', -⟩ := hback f hf
        rw [Entries.lookup?_congr hkey, hv] at hv'
        cases hv'
  · intro h
    constructor
    · intro e he
      have hrel := h e.1
      rw [Entries.lookup?_of_mem hes he (agrees_refl e.1)] at hrel
      generalize Entries.lookup? fs e.1 = found at hrel ⊢
      cases hrel with
      | some hvalues => exact ⟨_, rfl, hvalues⟩
    · intro f hf
      have hrel := h f.1
      rw [Entries.lookup?_of_mem hfs hf (agrees_refl f.1)] at hrel
      generalize Entries.lookup? es f.1 = found at hrel ⊢
      cases hrel with
      | some hvalues => exact ⟨_, rfl, agrees_symm hvalues⟩

/-- Entries with distinct keys are not more than those they can be matched with by their keys. -/
theorem length_le_of_keys (hes : Entries.haveDistinctKeys es = true)
    (h : ∀ e ∈ es, ∃ f ∈ fs, e.1.alike f.1 = true) :
  es.length ≤ fs.length
  := by
  simp only [Entries.haveDistinctKeys, decide_eq_true_eq] at hes
  induction es generalizing fs with
  | nil => apply Nat.zero_le
  | cons e es ih =>
    obtain ⟨he, hes⟩ := List.pairwise_cons.1 hes
    obtain ⟨⟨f, hf, hef⟩, h⟩ := List.forall_mem_cons.1 h
    obtain ⟨before, after, rfl⟩ := List.append_of_mem hf
    -- the match of `e` can be left out, since the other keys are not alike to that of `e`
    have hrest : es.length ≤ (before ++ after).length := by
      refine ih ?_ hes
      intro d hd
      obtain ⟨f', hf', hdf⟩ := h d hd
      rcases List.mem_append.1 hf' with hf' | hf'
      · exact ⟨f', List.mem_append_left _ hf', hdf⟩
      · rcases List.mem_cons.1 hf' with rfl | hf'
        · have hne := he d hd
          cases hne.symm.trans (agrees_trans hef (agrees_symm hdf))
        · exact ⟨f', List.mem_append_right _ hf', hdf⟩
    simp only [List.length_append, List.length_cons] at hrest ⊢
    omega

/-- Entries with distinct keys are alike when they are as many and each value of some is alike to
what is found under its key in the others. -/
theorem entriesAlike_iff_length (hes : Entries.haveDistinctKeys es = true)
    (hfs : Entries.haveDistinctKeys fs = true) :
  entriesAlike es fs = true
    ↔ es.length = fs.length
      ∧ ∀ e ∈ es, ∃ v, Entries.lookup? fs e.1 = some v ∧ e.2.alike v = true
  := by
  rw [entriesAlike_iff_found hes hfs]
  constructor
  · rintro ⟨hforth, hback⟩
    have hle : es.length ≤ fs.length := length_le_of_keys hes fun e he =>
      Entries.exists_mem_of_found (hforth e he)
    have hge : fs.length ≤ es.length := length_le_of_keys hfs fun f hf =>
      Entries.exists_mem_of_found (hback f hf)
    exact ⟨Nat.le_antisymm hle hge, hforth⟩
  · rintro ⟨hlength, hforth⟩
    use hforth
    intro f hf
    by_contra hnone
    -- an entry that has no match would be one more with a key of its own
    have hdistinct : Entries.haveDistinctKeys (f :: es) = true := by
      have hpairwise := hes
      simp only [Entries.haveDistinctKeys, decide_eq_true_eq] at hpairwise ⊢
      apply List.Pairwise.cons _ hpairwise
      intro e he
      rw [← Bool.not_eq_true]
      intro hkeys
      obtain ⟨v, hv, hvalues⟩ := hforth e he
      rw [← Entries.lookup?_congr hkeys, Entries.lookup?_of_mem hfs hf (agrees_refl f.1)] at hv
      cases hv
      exact hnone ⟨e.2, Entries.lookup?_of_mem hes he (agrees_symm hkeys), agrees_symm hvalues⟩
    have hle : (f :: es).length ≤ fs.length := by
      apply length_le_of_keys hdistinct
      refine List.forall_mem_cons.2 ⟨⟨f, hf, agrees_refl f.1⟩, ?_⟩
      exact fun e he => Entries.exists_mem_of_found (hforth e he)
    rw [List.length_cons] at hle
    omega

end Value

/-! ### Values that are alike can be keys at the same time -/

section PassesOn

variable {α β γ : Type}

/-- Nothing that a comparison relates to `a` has an obstacle, unless `a` has one. -/
def PassesOn (r : α → α → Bool) (obstacle? : α → Option String) (a : α) : Prop :=
  ∀ b, r a b = true → obstacle? a = none → obstacle? b = none

namespace PassesOn

variable {r : α → α → Bool} {o₁ : α → Option String} {a : α}
  {s : β → β → Bool} {o₂ : β → Option String} {b : β} {t : γ → γ → Bool} {o : γ → Option String}

theorem unobstructed (a : α) :
  PassesOn r (fun _ => none) a
  := fun _ _ _ => rfl

/-- The obstacles of things with one part are those of the part. -/
theorem unary {f : α → γ} (h : ∀ a c, t (f a) c = true ↔ ∃ a', c = f a' ∧ r a a' = true)
    (ho : ∀ a, o (f a) = o₁ a) (ha : PassesOn r o₁ a) :
  PassesOn t o (f a)
  := by
  intro c hc hf
  obtain ⟨a', rfl, haa'⟩ := (h a c).1 hc
  rw [ho] at hf ⊢
  apply ha a' haa' hf

/-- The obstacles of things with two parts are those of both parts. -/
theorem binary {f : α → β → γ}
    (h : ∀ a b c, t (f a b) c = true ↔ ∃ a' b', c = f a' b' ∧ r a a' = true ∧ s b b' = true)
    (ho : ∀ a b, o (f a b) = none ↔ o₁ a = none ∧ o₂ b = none)
    (ha : PassesOn r o₁ a) (hb : PassesOn s o₂ b) :
  PassesOn t o (f a b)
  := by
  intro c hc hf
  obtain ⟨a', b', rfl, haa', hbb'⟩ := (h a b c).1 hc
  rw [ho] at hf ⊢
  exact ⟨ha a' haa' hf.1, hb b' hbb' hf.2⟩

end PassesOn

end PassesOn

theorem Value.firstUnhashable?_eq_none_iff {xs : List Value} :
  Value.firstUnhashable? xs = none ↔ ∀ x ∈ xs, x.unhashable? = none
  := by
  induction xs with
  | nil => simp [Value.firstUnhashable?]
  | cons x xs ih => simp [Value.firstUnhashable?, ih]

theorem Value.unhashableEntry?_eq_none_iff {es : List (Value × Value)} :
  Value.unhashableEntry? es = none ↔ ∀ e ∈ es, e.1.unhashable? = none ∧ e.2.unhashable? = none
  := by
  induction es with
  | nil => simp [Value.unhashableEntry?]
  | cons e es ih => simp [Value.unhashableEntry?, ih]

/-- Lists of values that are alike can be parts of keys at the same time. -/
theorem Value.firstUnhashable?_passesOn {xs : List Value}
    (h : ∀ x ∈ xs, PassesOn Value.alike Value.unhashable? x) :
  PassesOn (Value.listAgrees .alike) Value.firstUnhashable? xs
  := by
  intro ys hxy hx
  rw [Value.firstUnhashable?_eq_none_iff] at hx ⊢
  intro y hy
  obtain ⟨x, hmem, halike⟩ := (exists_mem_of_forall₂ (Value.listAgrees_iff.1 hxy)).2 y hy
  apply h x hmem y halike (hx x hmem)

/-- Entries that are alike can be parts of keys at the same time. -/
theorem Value.unhashableEntry?_passesOn {es : List (Value × Value)}
    (h : ∀ e ∈ es, PassesOn Value.alike Value.unhashable? e.1
      ∧ PassesOn Value.alike Value.unhashable? e.2) :
  PassesOn Value.entriesAlike Value.unhashableEntry? es
  := by
  intro fs hef he
  rw [Value.unhashableEntry?_eq_none_iff] at he ⊢
  intro f hf
  obtain ⟨e, hmem, hkeys, hvalues⟩ := (Value.entriesAlike_iff.1 hef).2 f hf
  constructor
  · apply (h e hmem).1 f.1 hkeys (he e hmem).1
  · apply (h e hmem).2 f.2 hvalues (he e hmem).2

mutual

theorem Value.unhashable?_passesOn : ∀ v : Value, PassesOn Value.alike Value.unhashable? v
  | .scalar s => .unary (fun _ _ => Value.scalar_agrees_iff) (fun _ => rfl) (.unobstructed s)
  | .list _ => fun _ _ h => by cases h
  | .tuple xs => .unary (fun _ _ => Value.tuple_agrees_iff) (fun _ => rfl)
      (Value.firstUnhashable?_passesOn (Value.list_unhashable?_passesOn xs))
  | .dict _ => fun _ _ h => by cases h
  | .table xs es => .binary (fun _ _ _ => Value.table_agrees_iff)
      (fun _ _ => by simp [Value.unhashable?, and_comm])
      (Value.firstUnhashable?_passesOn (Value.list_unhashable?_passesOn xs))
      (Value.unhashableEntry?_passesOn (Value.entries_unhashable?_passesOn es))
  | .pattern p => .unary (fun _ _ => Value.pattern_agrees_iff) (fun _ => rfl)
      (Pattern.unhashable?_passesOn p)
  | .grammar g => .unary (fun _ _ => Value.grammar_agrees_iff) (fun _ => rfl) (.unobstructed g)

theorem Value.list_unhashable?_passesOn :
    ∀ xs : List Value, ∀ x ∈ xs, PassesOn Value.alike Value.unhashable? x
  | [] => by simp
  | x :: xs => List.forall_mem_cons.2
      ⟨Value.unhashable?_passesOn x, Value.list_unhashable?_passesOn xs⟩

theorem Value.entries_unhashable?_passesOn :
    ∀ es : List (Value × Value), ∀ e ∈ es, PassesOn Value.alike Value.unhashable? e.1
      ∧ PassesOn Value.alike Value.unhashable? e.2
  | [] => by simp
  | (k, v) :: es => List.forall_mem_cons.2
      ⟨⟨Value.unhashable?_passesOn k, Value.unhashable?_passesOn v⟩,
        Value.entries_unhashable?_passesOn es⟩

theorem Selector.unhashable?_passesOn :
    ∀ k : Selector, PassesOn (Selector.agrees .alike) Selector.unhashable? k
  | .literal key => .unary (fun _ _ => Selector.literal_agrees_iff) (fun _ => rfl)
      (.unobstructed key)
  | .pattern p => .unary (fun _ _ => Selector.pattern_agrees_iff) (fun _ => rfl)
      (Pattern.unhashable?_passesOn p)

theorem Pattern.unhashable?_passesOn :
    ∀ p : Pattern, PassesOn (Pattern.agrees .alike) Pattern.unhashable? p
  | .field k v => .binary (fun _ _ _ => Pattern.field_agrees_iff)
      (fun _ _ => Option.or_eq_none_iff) (Selector.unhashable?_passesOn k)
      (Pattern.unhashable?_passesOn v)
  | .sequence p q => .binary (fun _ _ _ => Pattern.sequence_agrees_iff)
      (fun _ _ => Option.or_eq_none_iff) (Pattern.unhashable?_passesOn p)
      (Pattern.unhashable?_passesOn q)
  | .choice p q => .binary (fun _ _ _ => Pattern.choice_agrees_iff)
      (fun _ _ => Option.or_eq_none_iff) (Pattern.unhashable?_passesOn p)
      (Pattern.unhashable?_passesOn q)
  | .repetition p n => .binary (fun _ _ _ => Pattern.repetition_agrees_iff)
      (fun _ _ => by simp [Pattern.unhashable?]) (Pattern.unhashable?_passesOn p)
      (.unobstructed n)
  | .difference p q => .binary (fun _ _ _ => Pattern.difference_agrees_iff)
      (fun _ _ => Option.or_eq_none_iff) (Pattern.unhashable?_passesOn p)
      (Pattern.unhashable?_passesOn q)
  | .invert p => .unary (fun _ _ => Pattern.invert_agrees_iff) (fun _ => rfl)
      (Pattern.unhashable?_passesOn p)
  | .lookahead p => .unary (fun _ _ => Pattern.lookahead_agrees_iff) (fun _ => rfl)
      (Pattern.unhashable?_passesOn p)
  | .span p => .unary (fun _ _ => Pattern.span_agrees_iff) (fun _ => rfl)
      (Pattern.unhashable?_passesOn p)
  | .const v => .unary (fun _ _ => Pattern.const_agrees_iff) (fun _ => rfl)
      (Value.unhashable?_passesOn v)
  | .group p name => .binary (fun _ _ _ => Pattern.group_agrees_iff)
      (fun _ _ => by simp [Pattern.unhashable?]) (Pattern.unhashable?_passesOn p)
      (.unobstructed name)
  | .collect p => .unary (fun _ _ => Pattern.collect_agrees_iff) (fun _ => rfl)
      (Pattern.unhashable?_passesOn p)
  | .literal _ | .truth _ | .anyChars _ | .fewerThan _ | .charSet _ | .charRange _
  | .ruleRef _ | .position | .grammar _ => fun q h _ => by
    cases q <;> simp_all [Pattern.agrees, Pattern.unhashable?]

end

/-- Values that are alike can be keys at the same time. -/
theorem Value.unhashable?_eq_none_congr {v w : Value} (h : v.alike w = true) :
  v.unhashable? = none ↔ w.unhashable? = none
  := by
  constructor
  · apply Value.unhashable?_passesOn v w h
  · apply Value.unhashable?_passesOn w v (Value.agrees_symm h)

/-! ### Tables -/

namespace Table

variable {t u w : Table}

/-- A table answers that it equals another one. -/
def Equals (t u : Table) : Prop :=
  t.answer (.equals u.value) = .ok (.bool true)

/-- A table answers that it can be a key. -/
def IsKey (t : Table) : Prop :=
  t.answer .hash = .ok (.bool true)

theorem equals_iff :
  t.Equals u ↔ t.value.alike u.value = true
  := by
  simp [Equals, answer]

theorem isKey_iff :
  t.IsKey ↔ t.value.unhashable? = none
  := by
  simp only [IsKey, answer, checkHashable]
  cases t.value.unhashable? <;> simp

/-- Tables equal the same tables when they are alike. -/
theorem equals_congr (h : t.value.alike u.value = true) (w : Table) :
  (t.Equals w ↔ u.Equals w) ∧ (w.Equals t ↔ w.Equals u)
  := by
  simp only [equals_iff]
  rw [Value.alike_comm t.value, Value.alike_comm u.value, Value.alike_congr h]
  exact ⟨Iff.rfl, Iff.rfl⟩

/-- The table of some items, with fields written one after the other. -/
def ofWritten (xs : List Value) (es : List (Value × Value)) : Table :=
  ⟨xs, Entries.written es⟩

/-- Tables with written fields are equal when their items are alike and the values written last
under each key are. -/
theorem ofWritten_equals_iff {xs ys : List Value} {es fs : List (Value × Value)} :
  (ofWritten xs es).Equals (ofWritten ys fs)
    ↔ Value.listAgrees .alike xs ys = true
      ∧ ∀ key, Option.Rel (fun v w => v.alike w = true) (Entries.lastWritten? es key)
          (Entries.lastWritten? fs key)
  := by
  rw [equals_iff, ofWritten, ofWritten, value, value, Value.table_alike_iff,
    Value.entriesAlike_iff_lookup? (Entries.haveDistinctKeys_written es)
      (Entries.haveDistinctKeys_written fs)]
  simp only [Entries.lookup?_written]

/-- Fields with distinct keys are written in any order. -/
theorem ofWritten_equals_of_perm {es fs : List (Value × Value)} (xs : List Value)
    (hkeys : Entries.haveDistinctKeys es = true) (h : es.Perm fs) :
  (ofWritten xs es).Equals (ofWritten xs fs)
  := by
  have hperm : es.reverse.Perm fs.reverse :=
    (List.reverse_perm es).trans (h.trans (List.reverse_perm fs).symm)
  have hreverse : Entries.haveDistinctKeys es.reverse = true := by
    rw [Value.haveDistinctKeys_perm (List.reverse_perm es), hkeys]
  apply ofWritten_equals_iff.2 ⟨Value.listAgrees_refl xs, ?_⟩
  intro key
  rw [Entries.lastWritten?, Entries.lastWritten?, Entries.lookup?_perm hreverse hperm]
  cases Entries.lookup? fs.reverse key with
  | none => exact .none
  | some v => exact .some (Value.agrees_refl v)

/-- Tables with distinct keys are equal when their items are alike, they have as many fields, and
each field has a value alike to that of the field with its key in the other table. -/
theorem equals_iff_length (ht : Entries.haveDistinctKeys t.fields = true)
    (hu : Entries.haveDistinctKeys u.fields = true) :
  t.Equals u
    ↔ Value.listAgrees .alike t.items u.items = true
      ∧ t.fields.length = u.fields.length
      ∧ ∀ e ∈ t.fields, ∃ v, u.field? e.1 = some v ∧ e.2.alike v = true
  := by
  rw [equals_iff, value, value, Value.table_alike_iff, Value.entriesAlike_iff_length ht hu]
  rfl

/-- Equality of tables, which compares items one by one and fields by their keys, is an equivalence.
It does not see the order of fields, nor of the entries of dictionaries at any depth; fields may be
written in any order, as long as the last value for each key is the same.  And it holds only between
tables that both can be keys, or that both cannot. -/
theorem equality_sound (t u w : Table) :
  (Entries.haveDistinctKeys t.fields = true → Entries.haveDistinctKeys u.fields = true →
      (t.Equals u
        ↔ Value.listAgrees .alike t.items u.items = true
          ∧ t.fields.length = u.fields.length
          ∧ ∀ e ∈ t.fields, ∃ v, u.field? e.1 = some v ∧ e.2.alike v = true))
    ∧ t.Equals t
    ∧ (t.Equals u → u.Equals t)
    ∧ (t.Equals u → u.Equals w → t.Equals w)
    ∧ (t.value.Reordered u.value →
      t.Equals u ∧ (t.Equals w ↔ u.Equals w) ∧ (w.Equals t ↔ w.Equals u))
    ∧ (∀ xs ys es fs, (ofWritten xs es).Equals (ofWritten ys fs)
      ↔ Value.listAgrees .alike xs ys = true
        ∧ ∀ key, Option.Rel (fun v w => v.alike w = true) (Entries.lastWritten? es key)
          (Entries.lastWritten? fs key))
    ∧ (∀ xs es fs, Entries.haveDistinctKeys es = true → es.Perm fs →
      (ofWritten xs es).Equals (ofWritten xs fs))
    ∧ (t.Equals u → (t.IsKey ↔ u.IsKey))
  := by
  refine ⟨equals_iff_length, ?_, ?_, ?_, ?_, ?_, ?_, ?_⟩
  · exact equals_iff.2 (Value.agrees_refl t.value)
  · simp only [equals_iff]
    exact Value.agrees_symm
  · simp only [equals_iff]
    exact Value.agrees_trans
  · intro h
    exact ⟨equals_iff.2 h.alike, equals_congr h.alike w⟩
  · exact fun xs ys es fs => ofWritten_equals_iff
  · exact fun xs es fs hkeys h => ofWritten_equals_of_perm xs hkeys h
  · intro h
    rw [isKey_iff, isKey_iff]
    apply Value.unhashable?_eq_none_congr (equals_iff.1 h)

/-- A table with an item, a text under a key, and a dictionary under another one. -/
def ranked : Table :=
  ⟨[.int 1], [(.text "ranks", .dict [(.int 1, .text "x"), (.text "none", .null)]),
    (.text "by", .tuple [.text "y"])]⟩

/-- The same table with its fields and the entries of the dictionary the other way round. -/
def byRank : Table :=
  ⟨[.int 1], [(.text "by", .tuple [.text "y"]),
    (.text "ranks", .dict [(.text "none", .null), (.int 1, .text "x")])]⟩

/-- A table like it with the truth value instead of the number one, as an item and as a key. -/
def byTruth : Table :=
  ⟨[.bool true], [(.text "by", .tuple [.text "y"]),
    (.text "ranks", .dict [(.text "none", .null), (.bool true, .text "x")])]⟩

/-- The tables are equal, and none of them can be a key. -/
theorem equality_sound_ranked :
  ranked.value.Reordered byRank.value
    ∧ ranked.Equals byRank ∧ byRank.Equals byTruth ∧ ranked.Equals byTruth ∧ byTruth.Equals byRank
    ∧ ¬ ranked.IsKey ∧ ¬ byRank.IsKey
    ∧ (ofWritten [.int 1] [(.text "k", .int 1), (.text "j", .int 2)]).Equals
      (ofWritten [.int 1] [(.text "j", .int 2), (.text "k", .int 1)])
    ∧ ∃ v, byRank.field? (.text "ranks") = some v
      ∧ (Value.dict [(.int 1, .text "x"), (.text "none", .null)]).alike v = true
  := by
  have hreordered : ranked.value.Reordered byRank.value := by
    apply Value.Reordered.trans (.tableFields (.swap _ _ _))
    apply @Value.Reordered.tableField _ [_] [] _ _ _ _ (.refl _) (.entries (.swap _ _ _))
  obtain ⟨hlength, -, -, -, horder, -, hperm, hkeys⟩ := equality_sound ranked byRank byTruth
  have hequal := (horder hreordered).1
  have htruth : byRank.Equals byTruth := equals_iff.2 (by decide +kernel)
  have hkey : ¬ ranked.IsKey := by
    rw [isKey_iff]
    decide
  obtain ⟨-, -, hsymm, -⟩ := equality_sound byRank byTruth ranked
  obtain ⟨-, -, -, htrans, -⟩ := equality_sound ranked byRank byTruth
  refine ⟨hreordered, hequal, htruth, htrans hequal htruth, hsymm htruth, hkey, ?_, ?_, ?_⟩
  · rwa [← hkeys hequal]
  · apply hperm _ _ _ (by decide) (.swap _ _ _)
  · apply ((hlength (by decide) (by decide)).1 hequal).2.2 _ List.mem_cons_self

end Table

end Peg
