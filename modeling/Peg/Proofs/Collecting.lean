import Peg.Proofs.Tables

/-!
# Collecting captures

All captures of a list are collected in one table.  The items of the table are the values of the
unnamed captures, and the named captures are written as its fields, one after the other.  What is
collected of two lists in a row is what is collected of the first one, with the items of the second
one added and its fields written over: by `Entries.update_written` it makes no difference that
these have been put together before.

So of captures with the same name only the last one is kept, in the place of the first one.
-/

namespace Peg

theorem Value.text_alike_text (s t : String) :
  (Value.text s).alike (.text t) = decide (s = t)
  := by
  rw [Bool.eq_iff_iff, decide_eq_true_eq]
  constructor
  · intro h
    cases alike_text h
    rfl
  · rintro rfl
    apply agrees_refl

/-! ### Writing entries over others -/

namespace Entries

variable {es fs : List (Value × Value)} {k l : Value}

/-- The entries after others are written over them, one after the other. -/
def update (es fs : List (Value × Value)) : List (Value × Value) :=
  fs.foldl (fun es f => write f.1 f.2 es) es

theorem update_concat (es fs : List (Value × Value)) (f : Value × Value) :
  update es (fs ++ [f]) = write f.1 f.2 (update es fs)
  := List.foldl_concat ..

theorem written_append (es fs : List (Value × Value)) :
  written (es ++ fs) = update (written es) fs
  := List.foldl_append

/-- What is written under a key is lost when the key is written again. -/
theorem write_write (h : l.alike k = true) (v w : Value) (es : List (Value × Value)) :
  write k v (write l w es) = write l v es
  := by
  induction es with
  | nil => rw [write, write, write, if_pos h]
  | cons e es ih =>
    have hkeys : e.1.alike l = e.1.alike k := Value.alike_congr h e.1
    by_cases hl : e.1.alike l = true
    · simp only [write, if_pos hl, if_pos (hkeys ▸ hl)]
    · simp only [write, if_neg hl, if_neg (hkeys ▸ hl), ih]

/-- A key that is there already keeps its place, so it can be written before or after another
one. -/
theorem write_comm (hk : (lookup? es k).isSome = true) (hkl : k.alike l = false) (v w : Value) :
  write k v (write l w es) = write l w (write k v es)
  := by
  induction es with
  | nil => cases hk
  | cons e es ih =>
    by_cases hek : e.1.alike k = true
    · have hel : ¬ e.1.alike l = true := by
        intro hel
        cases hkl.symm.trans (Value.agrees_trans (Value.agrees_symm hek) hel)
      simp only [write, if_pos hek, if_neg hel]
    · rw [lookup?_cons, if_neg hek] at hk
      by_cases hel : e.1.alike l = true
      · simp only [write, if_neg hek, if_pos hel]
      · simp only [write, if_neg hek, if_neg hel, ih hk]

theorem write_update (hk : (lookup? es k).isSome = true)
    (hfs : ∀ f ∈ fs, k.alike f.1 = false) (v : Value) :
  write k v (update es fs) = update (write k v es) fs
  := by
  induction fs generalizing es with
  | nil => rfl
  | cons f fs ih =>
    obtain ⟨hf, hfs⟩ := List.forall_mem_cons.1 hfs
    have hk' : (lookup? (write f.1 f.2 es) k).isSome = true := by
      rw [lookup?_write]
      split
      · rfl
      · exact hk
    rw [update, List.foldl_cons, ← update, ih hk' hfs, write_comm hk hf]
    rfl

/-- Entries with distinct keys to which one is written can be written over others, or the one can be
written after them. -/
theorem update_write (hfs : haveDistinctKeys fs = true) (es : List (Value × Value)) (k v : Value) :
  update es (write k v fs) = write k v (update es fs)
  := by
  simp only [haveDistinctKeys, decide_eq_true_eq] at hfs
  induction fs generalizing es with
  | nil => rfl
  | cons f fs ih =>
    obtain ⟨hf, hfs⟩ := List.pairwise_cons.1 hfs
    rw [write]
    split
    · next hkey =>
      -- the key is written in its place, and once more after the rest, which does not have it
      have hrest : ∀ g ∈ fs, k.alike g.1 = false := by
        intro g hg
        rw [Value.alike_comm, ← Value.alike_congr hkey, Value.alike_comm]
        apply hf g hg
      have hthere : (lookup? (write f.1 f.2 es) k).isSome = true := by
        rw [lookup?_write, if_pos hkey]
        rfl
      rw [update, update, List.foldl_cons, List.foldl_cons, ← update, ← update,
        write_update hthere hrest, write_write hkey]
    · rw [update, update, List.foldl_cons, List.foldl_cons, ← update, ← update, ih _ hfs]

/-- It makes no difference to what entries are written over whether they are put together before. -/
theorem update_written (es fs : List (Value × Value)) :
  update es (written fs) = update es fs
  := by
  induction fs using List.reverseRecOn with
  | nil => rfl
  | append_singleton fs f ih =>
    rw [written_concat, update_write (haveDistinctKeys_written fs), ih, update_concat]

/-- A key that is not there comes after the others. -/
theorem map_fst_write (k v : Value) (es : List (Value × Value)) :
  (write k v es).map Prod.fst
    = if (lookup? es k).isSome then es.map Prod.fst else es.map Prod.fst ++ [k]
  := by
  induction es with
  | nil => rfl
  | cons e es ih =>
    rw [write, lookup?_cons]
    split
    · simp
    · rw [List.map_cons, ih]
      split <;> simp

end Entries

/-! ### Collected captures -/

namespace Capture

variable {xs ys cs : List Capture}

/-- The table of the captures of a list. -/
def collected (cs : List Capture) : Table :=
  ⟨items cs, fields cs⟩

/-- The value of the last capture with a name. -/
def lastNamed? (name : String) (cs : List Capture) : Option Value :=
  (cs.reverse.find? fun c => c.name = some name).map value

/-- The field that a capture is written to, if it has a name. -/
def field? (c : Capture) : Option (Value × Value) :=
  c.name.map fun name => (.text name, c.value)

/-- The fields that are written for the captures of a list. -/
def writes (cs : List Capture) : List (Value × Value) :=
  cs.filterMap field?

theorem writes_concat (cs : List Capture) (c : Capture) :
  writes (cs ++ [c]) = writes cs ++ c.field?.toList
  := by
  rw [writes, List.filterMap_append, ← writes]
  cases h : c.field? <;> simp [h]

/-- The fields of a list are written one after the other. -/
theorem fields_eq (cs : List Capture) :
  fields cs = Entries.written (writes cs)
  := by
  induction cs using List.reverseRecOn with
  | nil => rfl
  | append_singleton cs c ih =>
    rw [writes_concat, Entries.written_append, ← ih, fields, List.foldl_concat, writeField, field?]
    cases c.name <;> rfl

theorem collected_eq (cs : List Capture) :
  collected cs = .ofWritten (items cs) (writes cs)
  := by
  rw [collected, fields_eq, Table.ofWritten]

theorem mem_writes {e : Value × Value} (h : e ∈ writes cs) :
  ∃ c ∈ cs, ∃ name, c.name = some name ∧ e = (.text name, c.value)
  := by
  obtain ⟨c, hc, he⟩ := List.mem_filterMap.1 h
  obtain ⟨name, hname, rfl⟩ := Option.map_eq_some_iff.1 he
  exact ⟨c, hc, name, hname, rfl⟩

/-- What is written last under a key is the value of the last capture with that name. -/
theorem lastWritten?_writes (cs : List Capture) (name : String) :
  Entries.lastWritten? (writes cs) (.text name) = lastNamed? name cs
  := by
  have hfield : ∀ c : Capture, (c.field?.any fun e => e.1.alike (.text name))
      = decide (c.name = some name) := by
    intro c
    cases h : c.name <;> simp [field?, h, Value.text_alike_text]
  rw [Entries.lastWritten?, Entries.lookup?, writes, ← List.filterMap_reverse,
    List.find?_filterMap, lastNamed?]
  simp only [hfield]
  cases hfind : cs.reverse.find? fun c => decide (c.name = some name) with
  | none => rfl
  | some c =>
    have hname : c.name = some name := by simpa using List.find?_some hfind
    simp [field?, hname]

/-- A field has the value of the last capture with its name. -/
theorem lookup?_fields (cs : List Capture) (name : String) :
  Entries.lookup? (fields cs) (.text name) = lastNamed? name cs
  := by
  rw [fields_eq, Entries.lookup?_written, lastWritten?_writes]

/-- Nothing is written under keys that are no texts. -/
theorem lastWritten?_writes_of_not_text {key : Value} (h : ∀ name, key ≠ .text name) :
  Entries.lastWritten? (writes cs) key = none
  := by
  cases hv : Entries.lastWritten? (writes cs) key with
  | none => rfl
  | some v =>
    obtain ⟨e, he, hkey, -⟩ := Entries.exists_mem_of_lookup? hv
    obtain ⟨c, -, name, -, rfl⟩ := mem_writes (List.mem_reverse.1 he)
    cases h name (Value.alike_text (Value.agrees_symm hkey))

theorem eraseDups_concat (names : List String) (name : String) :
  (names ++ [name]).eraseDups
    = if name ∈ names then names.eraseDups else names.eraseDups ++ [name]
  := by
  rw [List.eraseDups_append, List.removeAll]
  by_cases h : name ∈ names <;> simp [h, List.eraseDups_cons]

/-- Fields come in the order in which their names are first written. -/
theorem map_fst_fields (cs : List Capture) :
  (fields cs).map Prod.fst = (cs.filterMap name).eraseDups.map .text
  := by
  induction cs using List.reverseRecOn with
  | nil => rfl
  | append_singleton cs c ih =>
    rw [fields, List.foldl_concat, ← fields, writeField, List.filterMap_append]
    cases hname : c.name with
    | none => simpa [hname] using ih
    | some name =>
      have hthere : (Entries.lookup? (fields cs) (.text name)).isSome
          = decide (name ∈ cs.filterMap Capture.name) := by
        rw [lookup?_fields, lastNamed?, Option.isSome_map, Bool.eq_iff_iff, List.find?_isSome]
        simp
      rw [List.filterMap_cons_some hname, List.filterMap_nil, eraseDups_concat]
      simp only [Entries.map_fst_write, hthere, decide_eq_true_eq, ih]
      split
      · rfl
      · rw [List.map_append, List.map_singleton]

/-! ### Collecting two lists -/

theorem items_eq (cs : List Capture) :
  items cs = (cs.filter fun c => c.name.isNone).map value
  := by
  rw [items, ← List.filterMap_eq_map, List.filterMap_filter]
  rfl

theorem fields_append (xs ys : List Capture) :
  fields (xs ++ ys) = Entries.update (fields xs) (fields ys)
  := by
  simp only [fields_eq, writes, List.filterMap_append, Entries.written_append,
    Entries.update_written]

/-- Two lists are collected in equal tables just if their unnamed captures are alike, and the last
ones with each name are. -/
theorem collected_equals_iff :
  (collected xs).Equals (collected ys)
    ↔ Value.listAgrees .alike (items xs) (items ys) = true
      ∧ ∀ name, Option.Rel (fun v w => v.alike w = true) (lastNamed? name xs) (lastNamed? name ys)
  := by
  rw [collected_eq, collected_eq, Table.ofWritten_equals_iff]
  refine and_congr_right fun _ => ?_
  constructor
  · intro h name
    rw [← lastWritten?_writes, ← lastWritten?_writes]
    apply h
  · intro h key
    by_cases hkey : ∃ name, key = .text name
    · obtain ⟨name, rfl⟩ := hkey
      rw [lastWritten?_writes, lastWritten?_writes]
      apply h
    · push Not at hkey
      rw [lastWritten?_writes_of_not_text hkey, lastWritten?_writes_of_not_text hkey]
      exact .none

/-- What is collected of a list is a table, which has the unnamed captures as items, each once and
in order, and as fields the values of the last captures with each name, in the order in which the
names come first.  Of two lists in a row the items are those of both, and the fields are those of
the first one, over which those of the second one are written.  Tables are equal just if the unnamed
captures are alike, and the last ones with each name are. -/
theorem collect_append (xs ys : List Capture) :
  collect xs = ⟨(collected xs).value, none⟩
    ∧ (collected (xs ++ ys)).items = (collected xs).items ++ (collected ys).items
    ∧ (collected (xs ++ ys)).fields = Entries.update (collected xs).fields (collected ys).fields
    ∧ (collected xs).items = (xs.filter fun c => c.name.isNone).map value
    ∧ (collected xs).fields.map Prod.fst = (xs.filterMap name).eraseDups.map .text
    ∧ (∀ name, (collected xs).field? (.text name) = lastNamed? name xs)
    ∧ ((collected xs).Equals (collected ys)
      ↔ Value.listAgrees .alike (collected xs).items (collected ys).items = true
        ∧ ∀ name, Option.Rel (fun v w => v.alike w = true) (lastNamed? name xs)
          (lastNamed? name ys))
  := by
  refine ⟨rfl, List.filterMap_append, fields_append xs ys, items_eq xs, map_fst_fields xs, ?_,
    collected_equals_iff⟩
  exact fun name => lookup?_fields xs name

end Capture

end Peg
