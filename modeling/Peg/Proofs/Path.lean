import Peg.Proofs.Likeness
import Peg.Value.Fields

/-!
# Paths into objects

`Value.Leads` says that the keys of a path lead from an object to a value inside it.  A key may be
given by a pattern, or it may be one of the keys that the object has itself; these are alike but
need not be the same.  Paths that are alike lead to the same value, by `Leads.eq_of_alike`.  They
are even the same path when no dictionary on the way has a truth value or a floating-point number
as a key, by `Leads.path_eq_of_alike`.

Entries have distinct keys when no two of their keys are alike.  They do when they are written one
after the other, by `Entries.haveDistinctKeys_write`, and so do the fields of every object.
-/

namespace Peg

/-! ### Looking up fields -/

/-- An entry that counts as a field is the first one with a key alike to its own. -/
theorem Entries.find?_of_mem_unshadowed {es : List (Value × Value)} {e : Value × Value}
    (h : e ∈ Entries.unshadowed es) :
  es.find? (fun f => f.1.alike e.1) = some e
  := by
  induction es with
  | nil => cases h
  | cons d es ih =>
    rcases List.mem_cons.1 h with rfl | h
    · simp [Value.alike]
    · obtain ⟨h, hd⟩ := List.mem_filter.1 h
      have hd : d.1.alike e.1 = false := by simpa using hd
      rw [List.find?_cons_of_neg (by simp [hd])]
      apply ih h

/-- The first entry with a key alike to a given one counts as a field. -/
theorem Entries.mem_unshadowed_of_find? {es : List (Value × Value)} {e : Value × Value}
    {key : Value} (h : es.find? (fun f => f.1.alike key) = some e) :
  e ∈ Entries.unshadowed es
  := by
  induction es with
  | nil => cases h
  | cons d es ih =>
    cases hd : d.1.alike key with
    | true =>
      rw [List.find?_cons_of_pos (by simp [hd])] at h
      cases h
      apply List.mem_cons_self
    | false =>
      rw [List.find?_cons_of_neg (by simp [hd])] at h
      apply List.mem_cons_of_mem
      apply List.mem_filter.2
      use ih h
      have he : e.1.alike key = true := by simpa using List.find?_some h
      have hother : d.1.alike e.1 = false := by
        rw [Value.alike_congr he, hd]
      simp [hother]

namespace Value

theorem mem_indexed {start : Nat} {xs : List Value} {key value : Value}
    (h : (key, value) ∈ indexed start xs) :
  ∃ i, key = .int ((start + i : Nat) : Int) ∧ xs[i]? = some value
  := by
  induction xs generalizing start with
  | nil => cases h
  | cons x xs ih =>
    rcases List.mem_cons.1 h with h | h
    · obtain ⟨rfl, rfl⟩ := Prod.mk.inj h
      use 0
      simp
    · obtain ⟨i, hk, hi⟩ := ih h
      use i + 1
      constructor
      · rw [hk, Nat.add_assoc, Nat.add_comm 1]
      · simpa using hi

theorem mem_indexed_of_getElem? {start i : Nat} {xs : List Value} {value : Value}
    (h : xs[i]? = some value) :
  (.int ((start + i : Nat) : Int), value) ∈ indexed start xs
  := by
  induction xs generalizing start i with
  | nil => cases h
  | cons x xs ih =>
    cases i with
    | zero =>
      cases h
      apply List.mem_cons_self
    | succ i =>
      apply List.mem_cons_of_mem
      rw [← Nat.add_assoc, Nat.add_right_comm]
      apply ih h

/-- Looking up the key of a field finds its value. -/
theorem fieldAt?_of_mem {v : Value} {fields : List (Value × Value)} {key value : Value}
    (hf : v.fields? = some fields) (h : (key, value) ∈ fields) :
  v.fieldAt? key = some value
  := by
  have hmember : ∀ xs, (key, value) ∈ indexed 0 xs → memberAt? xs key = some value := by
    intro xs hx
    obtain ⟨i, rfl, hi⟩ := mem_indexed hx
    simpa [memberAt?] using hi
  cases v <;> simp only [fields?, Option.some.injEq, reduceCtorEq] at hf
  case dict es =>
    subst hf
    simp [fieldAt?, Entries.lookup?, Entries.find?_of_mem_unshadowed h]
  case list xs => apply hmember xs (hf ▸ h)
  case tuple xs => apply hmember xs (hf ▸ h)

/-- A value that is looked up is that of a field with a key alike to the one given. -/
theorem exists_mem_fields_of_fieldAt? {v key value : Value} (h : v.fieldAt? key = some value) :
  ∃ fields key', v.fields? = some fields ∧ (key', value) ∈ fields ∧ key'.alike key = true
  := by
  have hmember : ∀ xs, memberAt? xs key = some value → (key, value) ∈ indexed 0 xs := by
    intro xs hx
    simp only [memberAt?] at hx
    split at hx
    · have hm : (.int ((0 + _ : Nat) : Int), value) ∈ indexed 0 xs := mem_indexed_of_getElem? hx
      simpa using hm
    · cases hx
  cases v <;> simp only [fieldAt?, reduceCtorEq] at h
  case dict es =>
    obtain ⟨e, he, rfl⟩ := Option.map_eq_some_iff.1 h
    have hkey : e.1.alike key = true := by simpa using List.find?_some he
    exact ⟨_, e.1, rfl, Entries.mem_unshadowed_of_find? he, hkey⟩
  case list xs => exact ⟨_, key, rfl, hmember xs h, agrees_refl key⟩
  case tuple xs => exact ⟨_, key, rfl, hmember xs h, agrees_refl key⟩

/-- Members of a list have integers as keys, and so alike keys are the same. -/
theorem memberAt?_congr {xs : List Value} {key key' w w' : Value} (hk : key.alike key' = true)
    (h : memberAt? xs key = some w) (h' : memberAt? xs key' = some w') :
  w = w'
  := by
  simp only [memberAt?] at h h'
  split at h
  · next i =>
    split at h'
    · next j =>
      have hij : (i : Int) = j := by
        simpa [alike, agrees, Comparison.scalars, Scalar.alike, Scalar.canonical,
          Scalar.integer?] using hk
      rw [Int.ofNat_inj.1 hij, h'] at h
      apply (Option.some.inj h).symm
    · cases h'
  · cases h

/-- Alike keys find the same value. -/
theorem fieldAt?_congr {v key key' w w' : Value} (hk : key.alike key' = true)
    (h : v.fieldAt? key = some w) (h' : v.fieldAt? key' = some w') :
  w = w'
  := by
  cases v <;> simp only [fieldAt?, reduceCtorEq] at h h'
  case dict es =>
    rw [Entries.lookup?] at h h'
    simp only [alike_congr hk, h', Option.some.injEq] at h
    apply h.symm
  case list xs => apply memberAt?_congr hk h h'
  case tuple xs => apply memberAt?_congr hk h h'

/-! ### Paths -/

/-- The keys of a path lead from one value to another.  Each key is that of a field which a
pattern can look up, or one of the keys of the fields. -/
inductive Leads (top : Value) : List Value → Value → Prop where
  | here : Leads top [] top
  | literal {path : List Value} {v w : Value} {name : FieldName} :
    Leads top path v → v.fieldAt? name.value = some w → Leads top (path ++ [name.value]) w
  | field {path : List Value} {v w key : Value} {fields : List (Value × Value)} :
    Leads top path v → v.fields? = some fields → (key, w) ∈ fields →
      Leads top (path ++ [key]) w

namespace Leads

variable {top : Value} {path path' : List Value} {v v' : Value}

/-- A path is empty, or its last key leads from the value that those before it lead to. -/
theorem cases_last (h : Leads top path v) :
  (path = [] ∧ v = top)
    ∨ ∃ init key u, path = init ++ [key] ∧ Leads top init u ∧ u.fieldAt? key = some v
  := by
  cases h with
  | here =>
    left
    exact ⟨rfl, rfl⟩
  | literal h hw =>
    right
    exact ⟨_, _, _, rfl, h, hw⟩
  | field h hf hm =>
    right
    exact ⟨_, _, _, rfl, h, fieldAt?_of_mem hf hm⟩

/-- If alike paths lead to the same value `u`, then they still do with one more key each. -/
theorem eq_of_alike_last {u w key : Value}
    (ih : ∀ {p' u'}, Leads top p' u' → listAgrees .alike path p' = true → u = u')
    (hw : u.fieldAt? key = some w) (h : Leads top path' v)
    (hp : listAgrees .alike (path ++ [key]) path' = true) :
  w = v
  := by
  rcases h.cases_last with ⟨rfl, -⟩ | ⟨init, key', u', rfl, hu, hv⟩
  · cases path <;> cases hp
  · obtain ⟨hp, hk⟩ := listAgrees_concat.1 hp
    obtain rfl := ih hu hp
    apply fieldAt?_congr hk hw hv

/-- Alike paths lead to the same value. -/
theorem eq_of_alike (h : Leads top path v) (h' : Leads top path' v')
    (hp : listAgrees .alike path path' = true) :
  v = v'
  := by
  induction h generalizing path' v' with
  | here =>
    rcases h'.cases_last with ⟨-, rfl⟩ | ⟨init, key', u', rfl, -, -⟩
    · rfl
    · cases init <;> cases hp
  | literal _ hw ih => apply eq_of_alike_last ih hw h' hp
  | field _ hf hm ih => apply eq_of_alike_last ih (fieldAt?_of_mem hf hm) h' hp

end Leads

/-! ### Keys that are alike only to themselves -/

/-- Whether a value is neither a truth value nor a floating-point number. -/
def isPlainKey : Value → Bool
  | .scalar (.bool _) => false
  | .scalar (.float _) => false
  | _ => true

mutual

/-- Whether no dictionary that paths can lead to has a truth value or a floating-point number as
a key. -/
def hasPlainKeys : Value → Bool
  | .list xs => allHavePlainKeys xs
  | .tuple xs => allHavePlainKeys xs
  | .dict es => entriesHavePlainKeys es
  | _ => true
termination_by structural v => v

/-- Whether all values of a list have plain keys. -/
def allHavePlainKeys : List Value → Bool
  | [] => true
  | x :: xs => x.hasPlainKeys && allHavePlainKeys xs
termination_by structural xs => xs

/-- Whether the keys of some entries are plain, and their values have plain keys. -/
def entriesHavePlainKeys : List (Value × Value) → Bool
  | [] => true
  | (k, v) :: es => k.isPlainKey && v.hasPlainKeys && entriesHavePlainKeys es
termination_by structural es => es

end

theorem isPlainKey_fieldName (name : FieldName) :
  name.value.isPlainKey = true
  := by
  cases name <;> rfl

theorem allHavePlainKeys_iff {xs : List Value} :
  allHavePlainKeys xs = true ↔ ∀ x ∈ xs, x.hasPlainKeys = true
  := by
  induction xs with
  | nil => simp [allHavePlainKeys]
  | cons x xs ih => simp [allHavePlainKeys, ih]

theorem entriesHavePlainKeys_iff {es : List (Value × Value)} :
  entriesHavePlainKeys es = true
    ↔ ∀ e ∈ es, e.1.isPlainKey = true ∧ e.2.hasPlainKeys = true
  := by
  induction es with
  | nil => simp [entriesHavePlainKeys]
  | cons e es ih => simp [entriesHavePlainKeys, ih]

theorem mem_of_mem_unshadowed {es : List (Value × Value)} {e : Value × Value}
    (h : e ∈ Entries.unshadowed es) :
  e ∈ es
  := List.mem_of_find?_eq_some (Entries.find?_of_mem_unshadowed h)

/-- The fields of an object with plain keys have plain keys, and values with plain keys. -/
theorem plain_of_mem_fields {v : Value} {fields : List (Value × Value)} {key value : Value}
    (hv : v.hasPlainKeys = true) (hf : v.fields? = some fields) (h : (key, value) ∈ fields) :
  key.isPlainKey = true ∧ value.hasPlainKeys = true
  := by
  have hindexed : ∀ xs, allHavePlainKeys xs = true → (key, value) ∈ indexed 0 xs →
      key.isPlainKey = true ∧ value.hasPlainKeys = true := by
    intro xs hxs hx
    obtain ⟨i, rfl, hi⟩ := mem_indexed hx
    use rfl, allHavePlainKeys_iff.1 hxs _ (List.mem_of_getElem? hi)
  cases v <;> simp only [fields?, Option.some.injEq, reduceCtorEq] at hf
  case dict es =>
    subst hf
    apply entriesHavePlainKeys_iff.1 hv _ (mem_of_mem_unshadowed h)
  case list xs => apply hindexed xs hv (hf ▸ h)
  case tuple xs => apply hindexed xs hv (hf ▸ h)

/-- A field that a pattern looks up in an object with plain keys has a value with plain keys. -/
theorem plain_of_fieldAt? {v key w : Value} (hv : v.hasPlainKeys = true)
    (h : v.fieldAt? key = some w) :
  w.hasPlainKeys = true
  := by
  have hmember : ∀ xs, allHavePlainKeys xs = true → memberAt? xs key = some w →
      w.hasPlainKeys = true := by
    intro xs hxs hx
    simp only [memberAt?] at hx
    split at hx
    · apply allHavePlainKeys_iff.1 hxs w (List.mem_of_getElem? hx)
    · cases hx
  cases v <;> simp only [fieldAt?, reduceCtorEq] at h
  case dict es =>
    obtain ⟨e, he, rfl⟩ := Option.map_eq_some_iff.1 h
    apply (entriesHavePlainKeys_iff.1 hv e (List.mem_of_find?_eq_some he)).2
  case list xs => apply hmember xs hv h
  case tuple xs => apply hmember xs hv h

/-- Among plain keys only the name of a field itself is alike to it. -/
theorem eq_of_alike_fieldName {name : FieldName} {key : Value} (hk : key.isPlainKey = true)
    (h : name.value.alike key = true) :
  name.value = key
  := by
  cases name <;> cases key <;>
    simp only [FieldName.value, alike, agrees, Comparison.scalars, reduceCtorEq] at h
  all_goals
    next s =>
      cases s <;>
        simp_all [isPlainKey, FieldName.value, Scalar.alike, Scalar.canonical,
          Scalar.integer?]

/-- The keys of two fields of one object are alike only if they are the same. -/
theorem eq_of_alike_fields {v : Value} {fields : List (Value × Value)} {key key' w w' : Value}
    (hf : v.fields? = some fields) (h : (key, w) ∈ fields) (h' : (key', w') ∈ fields)
    (hk : key.alike key' = true) :
  key = key'
  := by
  have hindexed : ∀ xs, (key, w) ∈ indexed 0 xs → (key', w') ∈ indexed 0 xs → key = key' := by
    intro xs hx hx'
    obtain ⟨i, rfl, -⟩ := mem_indexed hx
    obtain ⟨i', rfl, -⟩ := mem_indexed hx'
    simpa [alike, agrees, Comparison.scalars, Scalar.alike, Scalar.canonical,
      Scalar.integer?] using hk
  cases v <;> simp only [fields?, Option.some.injEq, reduceCtorEq] at hf
  case dict es =>
    subst hf
    have he := Entries.find?_of_mem_unshadowed h
    have he' := Entries.find?_of_mem_unshadowed h'
    simp only [alike_congr hk, he', Option.some.injEq] at he
    apply (Prod.mk.inj he).1.symm
  case list xs => apply hindexed xs (hf ▸ h) (hf ▸ h')
  case tuple xs => apply hindexed xs (hf ▸ h) (hf ▸ h')

namespace Leads

variable {top : Value} {path path' : List Value} {v v' : Value}

/-- Paths from a value with plain keys lead to values with plain keys. -/
theorem hasPlainKeys (h : Leads top path v) (ht : top.hasPlainKeys = true) :
  v.hasPlainKeys = true
  := by
  induction h with
  | here => apply ht
  | literal _ hw ih => apply plain_of_fieldAt? ih hw
  | field _ hf hm ih => apply (plain_of_mem_fields ih hf hm).2

/-- From a value with plain keys, alike paths are the same path. -/
theorem path_eq_of_alike (ht : top.hasPlainKeys = true) (h : Leads top path v)
    (h' : Leads top path' v') (hp : listAgrees .alike path path' = true) :
  path = path'
  := by
  induction h generalizing path' v' with
  | here =>
    rcases h'.cases_last with ⟨rfl, -⟩ | ⟨init, key', u', rfl, -, -⟩
    · rfl
    · cases init <;> cases hp
  | literal h hw ih =>
    cases h' with
    | here => cases ‹List Value› <;> cases hp
    | literal h' _ =>
      obtain ⟨hp, hk⟩ := listAgrees_concat.1 hp
      rw [ih h' hp, eq_of_alike_fieldName (isPlainKey_fieldName _) hk]
    | field h' hf' hm' =>
      obtain ⟨hp, hk⟩ := listAgrees_concat.1 hp
      have hk' := (plain_of_mem_fields (h'.hasPlainKeys ht) hf' hm').1
      rw [ih h' hp, eq_of_alike_fieldName hk' hk]
  | field h hf hm ih =>
    cases h' with
    | here => cases ‹List Value› <;> cases hp
    | literal h' _ =>
      obtain ⟨hp, hk⟩ := listAgrees_concat.1 hp
      have hk' := (plain_of_mem_fields (h.hasPlainKeys ht) hf hm).1
      rw [ih h' hp, eq_of_alike_fieldName hk' (agrees_symm hk)]
    | field h' hf' hm' =>
      obtain ⟨hp, hk⟩ := listAgrees_concat.1 hp
      obtain rfl := h.eq_of_alike h' hp
      rw [hf] at hf'
      cases hf'
      rw [ih h' hp, eq_of_alike_fields hf hm hm' hk]

end Leads

end Value

/-! ### Distinct keys -/

/-- Whether no key of some entries is alike to another one. -/
def Entries.haveDistinctKeys (es : List (Value × Value)) : Bool :=
  decide (es.Pairwise fun e f => e.1.alike f.1 = false)

namespace Value

mutual

/-- Whether no dictionary that paths can lead to has two keys that are alike. -/
def hasDistinctKeys : Value → Bool
  | .list xs => allHaveDistinctKeys xs
  | .tuple xs => allHaveDistinctKeys xs
  | .dict es => Entries.haveDistinctKeys es && entriesHaveDistinctKeys es
  | _ => true
termination_by structural v => v

/-- Whether all values of a list have distinct keys. -/
def allHaveDistinctKeys : List Value → Bool
  | [] => true
  | x :: xs => x.hasDistinctKeys && allHaveDistinctKeys xs
termination_by structural xs => xs

/-- Whether the values of some entries have distinct keys. -/
def entriesHaveDistinctKeys : List (Value × Value) → Bool
  | [] => true
  | (_, v) :: es => v.hasDistinctKeys && entriesHaveDistinctKeys es
termination_by structural es => es

end

theorem allHaveDistinctKeys_iff {xs : List Value} :
  allHaveDistinctKeys xs = true ↔ ∀ x ∈ xs, x.hasDistinctKeys = true
  := by
  induction xs with
  | nil => simp [allHaveDistinctKeys]
  | cons x xs ih => simp [allHaveDistinctKeys, ih]

theorem entriesHaveDistinctKeys_iff {es : List (Value × Value)} :
  entriesHaveDistinctKeys es = true ↔ ∀ e ∈ es, e.2.hasDistinctKeys = true
  := by
  induction es with
  | nil => simp [entriesHaveDistinctKeys]
  | cons e es ih => simp [entriesHaveDistinctKeys, ih]

end Value

namespace Entries

variable {es : List (Value × Value)} {e : Value × Value} {key v : Value}

/-- An entry is found by every key that is alike to its own, if no two keys are alike. -/
theorem lookup?_of_mem (h : haveDistinctKeys es = true) (he : e ∈ es)
    (hkey : e.1.alike key = true) :
  lookup? es key = some e.2
  := by
  simp only [haveDistinctKeys, decide_eq_true_eq] at h
  rw [lookup?]
  induction es with
  | nil => cases he
  | cons d es ih =>
    obtain ⟨hd, hes⟩ := List.pairwise_cons.1 h
    rcases List.mem_cons.1 he with rfl | he
    · rw [List.find?_cons_of_pos (by simpa using hkey), Option.map_some]
    · have hne : d.1.alike key = false := by
        rw [← hd e he]
        symm
        apply Value.alike_congr hkey
      rw [List.find?_cons_of_neg (by simp [hne])]
      apply ih he hes

theorem exists_mem_of_lookup? (h : lookup? es key = some v) :
  ∃ e ∈ es, e.1.alike key = true ∧ e.2 = v
  := by
  obtain ⟨e, he, rfl⟩ := Option.map_eq_some_iff.1 h
  have hkey := List.find?_some he
  exact ⟨e, List.mem_of_find?_eq_some he, by simpa using hkey, rfl⟩

/-- An entry was there before another one is written, or it has the value that is written, under
the key that is written or one that was there before. -/
theorem mem_write (h : e ∈ write key v es) :
  e ∈ es ∨ (e.2 = v ∧ (e.1 = key ∨ ∃ d ∈ es, e.1 = d.1))
  := by
  induction es with
  | nil =>
    rw [List.mem_singleton.1 h]
    exact .inr ⟨rfl, .inl rfl⟩
  | cons d es ih =>
    rw [write] at h
    split at h
    · rcases List.mem_cons.1 h with rfl | h
      · exact .inr ⟨rfl, .inr ⟨d, List.mem_cons_self, rfl⟩⟩
      · exact .inl (List.mem_cons_of_mem _ h)
    · rcases List.mem_cons.1 h with rfl | h
      · exact .inl List.mem_cons_self
      · rcases ih h with h | ⟨hv, hkey | ⟨d', hd', hkey⟩⟩
        · exact .inl (List.mem_cons_of_mem _ h)
        · exact .inr ⟨hv, .inl hkey⟩
        · exact .inr ⟨hv, .inr ⟨d', List.mem_cons_of_mem _ hd', hkey⟩⟩

/-- Keys stay distinct when an entry is written. -/
theorem haveDistinctKeys_write (h : haveDistinctKeys es = true) (key v : Value) :
  haveDistinctKeys (write key v es) = true
  := by
  simp only [haveDistinctKeys, decide_eq_true_eq] at h ⊢
  induction es with
  | nil => simp [write]
  | cons d es ih =>
    obtain ⟨hd, hes⟩ := List.pairwise_cons.1 h
    rw [write]
    split
    · exact List.pairwise_cons.2 ⟨hd, hes⟩
    · next hkey =>
      apply List.pairwise_cons.2 ⟨?_, ih hes⟩
      intro e he
      rcases mem_write he with he | ⟨-, heq | ⟨d', hd', heq⟩⟩
      · apply hd e he
      · rw [heq]
        simpa using hkey
      · rw [heq]
        apply hd d' hd'

theorem haveDistinctKeys_unshadowed (es : List (Value × Value)) :
  haveDistinctKeys (unshadowed es) = true
  := by
  simp only [haveDistinctKeys, decide_eq_true_eq]
  induction es with
  | nil => apply List.Pairwise.nil
  | cons d es ih =>
    apply List.Pairwise.cons _ (ih.filter _)
    intro e he
    simpa using (List.mem_filter.1 he).2

theorem haveDistinctKeys_indexed (start : Nat) (xs : List Value) :
  haveDistinctKeys (Value.indexed start xs) = true
  := by
  simp only [haveDistinctKeys, decide_eq_true_eq]
  induction xs generalizing start with
  | nil => apply List.Pairwise.nil
  | cons x xs ih =>
    apply List.Pairwise.cons _ (ih (start + 1))
    rintro ⟨key, value⟩ he
    obtain ⟨i, rfl, -⟩ := Value.mem_indexed he
    have hne : (start : Int) ≠ ((start + 1 + i : Nat) : Int) := by omega
    simpa [Value.alike, Value.agrees, Comparison.scalars, Scalar.alike, Scalar.canonical,
      Scalar.integer?] using hne

/-- No two fields of an object have keys that are alike. -/
theorem haveDistinctKeys_fields {v : Value} {fields : List (Value × Value)}
    (hf : v.fields? = some fields) :
  haveDistinctKeys fields = true
  := by
  cases v <;> simp only [Value.fields?, Option.some.injEq, reduceCtorEq] at hf
  case dict es => exact hf ▸ haveDistinctKeys_unshadowed es
  case list xs => exact hf ▸ haveDistinctKeys_indexed 0 xs
  case tuple xs => exact hf ▸ haveDistinctKeys_indexed 0 xs

end Entries

end Peg
