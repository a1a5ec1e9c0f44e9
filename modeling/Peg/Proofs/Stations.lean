import Peg.Proofs.Reach

/-!
# Where a match can stand

A match is carried out on the subject, on the values inside it, and on the texts of their keys.  A
`Station` is a place with a position there.  This module lists the stations that can be reached
from a focus, and with the grammars of a match the keys of the rule applications that it can come
to.  A path may be taken with keys that are only alike to those of the object, which leads to the
same stations.
-/

namespace Peg

/-! ### Stations -/

/-- A place with a position. -/
abbrev Station : Type :=
  Place × Nat

/-- Where a match can stand that started at a focus and stays on its subject. -/
def Focus.standing (f : Focus) : List Station :=
  (List.range' f.pos (f.room + 1)).map fun pos => (f.place, pos)

/-- Where a match can stand that is at the text of a key. -/
def Value.keyStations (key : Value) : List Station :=
  Focus.standing ⟨.text key.plain, 0, [], none⟩

mutual

/-- Where a match can stand inside a value at the end of a path. -/
def Value.innerStations (path : List Value) : Value → List Station
  | .list xs => Value.memberStations path 0 xs
  | .tuple xs => Value.memberStations path 0 xs
  | .dict es => Value.entryStations path es
  | _ => []
termination_by structural v => v

/-- Where a match can stand in the members of a list, which are counted from `start`. -/
def Value.memberStations (path : List Value) (start : Nat) : List Value → List Station
  | [] => []
  | x :: xs =>
    Value.keyStations (.int start) ++ Focus.standing ⟨x, 0, path ++ [.int start], none⟩
      ++ x.innerStations (path ++ [.int start]) ++ Value.memberStations path (start + 1) xs
termination_by structural xs => xs

/-- Where a match can stand in the entries of a dictionary. -/
def Value.entryStations (path : List Value) : List (Value × Value) → List Station
  | [] => []
  | (k, v) :: es =>
    Value.keyStations k ++ Focus.standing ⟨v, 0, path ++ [k], none⟩
      ++ v.innerStations (path ++ [k]) ++ Value.entryStations path es
termination_by structural es => es

end

/-- Where a match can stand that started at a focus. -/
def Focus.stations (f : Focus) : List Station :=
  f.standing ++ f.subject.innerStations f.path

/-- Each of some stations is the same as one of others. -/
def Station.Covers (ss ts : List Station) : Prop :=
  ∀ t ∈ ts, ∃ s ∈ ss, t.1.same s.1 = true ∧ t.2 = s.2

namespace Station

variable {ss ss' ts ts' us : List Station}

theorem covers_of_subset (h : ts ⊆ ss) :
  Covers ss ts
  := fun t ht => ⟨t, h ht, t.1.same_refl, rfl⟩

theorem Covers.trans (h : Covers ss ts) (h' : Covers ts us) :
  Covers ss us
  := by
  intro u hu
  obtain ⟨t, ht, hplace, hpos⟩ := h' u hu
  obtain ⟨s, hs, hplace', hpos'⟩ := h t ht
  use s, hs, Place.same_trans hplace hplace', hpos.trans hpos'

theorem Covers.append (h : Covers ss ts) (h' : Covers ss' ts') :
  Covers (ss ++ ss') (ts ++ ts')
  := by
  intro t ht
  rcases List.mem_append.1 ht with ht | ht
  · obtain ⟨s, hs, hsame⟩ := h t ht
    exact ⟨s, List.mem_append_left _ hs, hsame⟩
  · obtain ⟨s, hs, hsame⟩ := h' t ht
    exact ⟨s, List.mem_append_right _ hs, hsame⟩

end Station

namespace Focus

variable {f f' : Focus} {pos : Nat}

theorem mem_standing {s : Station} :
  s ∈ f.standing ↔ s.1 = f.place ∧ f.Ahead s.2
  := by
  obtain ⟨place, pos⟩ := s
  simp only [standing, List.mem_map, List.mem_range'_1, Prod.mk.injEq, Ahead]
  constructor
  · rintro ⟨i, hi, rfl, rfl⟩
    exact ⟨rfl, by omega⟩
  · rintro ⟨rfl, hpos⟩
    exact ⟨pos, by omega, rfl, rfl⟩

/-- Foci at the same place and position cover each other. -/
theorem covers_standing (hplace : f.place.same f'.place = true) (hpos : f.pos = f'.pos)
    (hroom : f.room = f'.room) :
  Station.Covers f'.standing f.standing
  := by
  intro s hs
  obtain ⟨hs, hahead⟩ := mem_standing.1 hs
  refine ⟨(f'.place, s.2), mem_standing.2 ⟨rfl, ?_⟩, ?_, rfl⟩
  · rw [Ahead] at hahead ⊢
    rw [← hpos, ← hroom]
    apply hahead
  · rw [hs]
    exact hplace

/-- A focus covers those further on in the same subject. -/
theorem covers_moveTo (h : f.Ahead pos) :
  Station.Covers f.stations (f.moveTo pos).stations
  := by
  apply Station.Covers.append
  · apply Station.covers_of_subset
    intro s hs
    obtain ⟨hs, hahead⟩ := mem_standing.1 hs
    apply mem_standing.2
    exact ⟨hs, h.trans hahead⟩
  · apply Station.covers_of_subset (List.Subset.refl _)

end Focus

/-! ### Stations at alike paths -/

theorem Value.standing_congr {path path' : List Value} (hp : listAgrees .alike path path' = true)
    (v : Value) (pos : Nat) :
  Station.Covers (Focus.standing ⟨v, pos, path', none⟩) (Focus.standing ⟨v, pos, path, none⟩)
  := by
  apply Focus.covers_standing
  · by_cases hs : ∃ s, v = .text s
    · obtain ⟨s, rfl⟩ := hs
      apply Place.same_refl
    · rw [Focus.place_object hs, Focus.place_object hs]
      apply hp
  · rfl
  · rfl

theorem Value.listAgrees_concat_self {path path' : List Value}
    (hp : listAgrees .alike path path' = true) (key : Value) :
  listAgrees .alike (path ++ [key]) (path' ++ [key]) = true
  := listAgrees_concat.2 ⟨hp, agrees_refl key⟩

mutual

/-- Alike paths lead to the same stations inside a value. -/
theorem Value.innerStations_congr {path path' : List Value}
    (hp : Value.listAgrees .alike path path' = true) :
    ∀ v : Value, Station.Covers (v.innerStations path') (v.innerStations path)
  | .list xs => Value.memberStations_congr hp 0 xs
  | .tuple xs => Value.memberStations_congr hp 0 xs
  | .dict es => Value.entryStations_congr hp es
  | .scalar _ => Station.covers_of_subset (List.Subset.refl _)
  | .table _ _ => Station.covers_of_subset (List.Subset.refl _)
  | .pattern _ => Station.covers_of_subset (List.Subset.refl _)
  | .grammar _ => Station.covers_of_subset (List.Subset.refl _)
termination_by structural v => v

theorem Value.memberStations_congr {path path' : List Value}
    (hp : Value.listAgrees .alike path path' = true) (start : Nat) :
    ∀ xs : List Value,
      Station.Covers (Value.memberStations path' start xs) (Value.memberStations path start xs)
  | [] => Station.covers_of_subset (List.Subset.refl _)
  | x :: xs => by
    have hpath := Value.listAgrees_concat_self hp (.int start)
    apply Station.Covers.append _ (Value.memberStations_congr hp (start + 1) xs)
    apply Station.Covers.append _ (Value.innerStations_congr hpath x)
    apply Station.Covers.append _ (Value.standing_congr hpath x 0)
    apply Station.covers_of_subset (List.Subset.refl _)
termination_by structural xs => xs

theorem Value.entryStations_congr {path path' : List Value}
    (hp : Value.listAgrees .alike path path' = true) :
    ∀ es : List (Value × Value),
      Station.Covers (Value.entryStations path' es) (Value.entryStations path es)
  | [] => Station.covers_of_subset (List.Subset.refl _)
  | (k, v) :: es => by
    have hpath := Value.listAgrees_concat_self hp k
    apply Station.Covers.append _ (Value.entryStations_congr hp es)
    apply Station.Covers.append _ (Value.innerStations_congr hpath v)
    apply Station.Covers.append _ (Value.standing_congr hpath v 0)
    apply Station.covers_of_subset (List.Subset.refl _)
termination_by structural es => es

end

/-! ### Stations in fields -/

namespace Value

variable {path : List Value} {key value v : Value} {fields : List (Value × Value)}

/-- Where a match can stand in a field: at its key, at its value, and inside that. -/
theorem fieldStations_of_mem_entries {es : List (Value × Value)} (h : (key, value) ∈ es) :
  keyStations key ⊆ entryStations path es
    ∧ Focus.standing ⟨value, 0, path ++ [key], none⟩ ++ value.innerStations (path ++ [key])
      ⊆ entryStations path es
  := by
  induction es with
  | nil => cases h
  | cons e es ih =>
    rcases List.mem_cons.1 h with rfl | h
    · simp only [entryStations, List.append_assoc]
      constructor
      · apply List.subset_append_left
      · intro s hs
        simp only [List.mem_append] at hs ⊢
        tauto
    · obtain ⟨hkey, hvalue⟩ := ih h
      obtain ⟨k, v⟩ := e
      constructor
      · apply List.Subset.trans hkey (List.subset_append_right _ _)
      · apply List.Subset.trans hvalue (List.subset_append_right _ _)

theorem fieldStations_of_mem_indexed {start : Nat} {xs : List Value}
    (h : (key, value) ∈ indexed start xs) :
  keyStations key ⊆ memberStations path start xs
    ∧ Focus.standing ⟨value, 0, path ++ [key], none⟩ ++ value.innerStations (path ++ [key])
      ⊆ memberStations path start xs
  := by
  induction xs generalizing start with
  | nil => cases h
  | cons x xs ih =>
    rcases List.mem_cons.1 h with h | h
    · obtain ⟨rfl, rfl⟩ := Prod.mk.inj h
      simp only [memberStations, List.append_assoc]
      constructor
      · apply List.subset_append_left
      · intro s hs
        simp only [List.mem_append] at hs ⊢
        tauto
    · obtain ⟨hkey, hvalue⟩ := ih h
      constructor
      · apply List.Subset.trans hkey (List.subset_append_right _ _)
      · apply List.Subset.trans hvalue (List.subset_append_right _ _)

theorem fieldStations_of_mem_fields (hf : v.fields? = some fields) (h : (key, value) ∈ fields) :
  keyStations key ⊆ v.innerStations path
    ∧ Focus.standing ⟨value, 0, path ++ [key], none⟩ ++ value.innerStations (path ++ [key])
      ⊆ v.innerStations path
  := by
  cases v <;> simp only [fields?, Option.some.injEq, reduceCtorEq] at hf
  case dict es =>
    subst hf
    apply fieldStations_of_mem_entries (mem_of_mem_unshadowed h)
  case list xs => apply fieldStations_of_mem_indexed (hf ▸ h)
  case tuple xs => apply fieldStations_of_mem_indexed (hf ▸ h)

/-- Where a match can stand in a value that is looked up, under a key alike to the one given. -/
theorem fieldStations_of_fieldAt? (path : List Value) (h : v.fieldAt? key = some value) :
  ∃ key', key.alike key' = true
    ∧ Focus.standing ⟨value, 0, path ++ [key'], none⟩ ++ value.innerStations (path ++ [key'])
      ⊆ v.innerStations path
  := by
  obtain ⟨fields, key', hf, hm, hkey⟩ := exists_mem_fields_of_fieldAt? h
  use key', agrees_symm hkey
  apply (fieldStations_of_mem_fields hf hm).2

end Value

/-- A match that started at a focus can stand wherever one can that starts near it. -/
theorem Focus.Near.covers {f f' : Focus} (h : f.Near f') :
  Station.Covers f.stations f'.stations
  := by
  cases h with
  | moved hpos => apply Focus.covers_moveTo hpos
  | @literal name value hv =>
    obtain ⟨key, hkey, hsub⟩ := Value.fieldStations_of_fieldAt? f.path hv
    have hpath : Value.listAgrees .alike (f.path ++ [name.value]) (f.path ++ [key]) = true :=
      Value.listAgrees_concat.2 ⟨Value.listAgrees_refl _, hkey⟩
    have hfield := (Value.standing_congr hpath value 0).append
      (Value.innerStations_congr hpath value)
    apply Station.Covers.trans _ hfield
    apply Station.covers_of_subset
    apply List.Subset.trans hsub (List.subset_append_right _ _)
  | field hf hm =>
    apply Station.covers_of_subset
    apply List.Subset.trans (Value.fieldStations_of_mem_fields hf hm).2
    apply List.subset_append_right
  | @key _ key value hf hm =>
    have hkey : (f.inKey key).stations = key.keyStations := List.append_nil _
    rw [hkey]
    apply Station.covers_of_subset
    apply List.Subset.trans (Value.fieldStations_of_mem_fields hf hm).1
    apply List.subset_append_right

/-! ### Keys -/

/-- The keys of the rule applications that a match can come to. -/
def Matcher.keys (m : Matcher) (subject : Value) (pos : Nat) : List Key :=
  m.grammars.flatMap fun g => g.rules.flatMap fun r =>
    (Focus.start subject pos m.outer).stations.map fun s => ⟨g, r.1, s.1, s.2⟩

/-- Some keys, with only the last one of those that are the same. -/
def Key.distinct : List Key → List Key
  | [] => []
  | k :: ks => if ks.any k.same then distinct ks else k :: distinct ks

theorem Key.exists_same_distinct {k : Key} {ks : List Key} (h : k ∈ ks) :
  ∃ l ∈ distinct ks, k.same l = true
  := by
  induction ks generalizing k with
  | nil => cases h
  | cons k' ks ih =>
    rw [distinct]
    rcases List.mem_cons.1 h with rfl | h
    · split
      · next hany =>
        obtain ⟨k', hk', hsame⟩ := List.any_eq_true.1 hany
        obtain ⟨l, hl, hsame'⟩ := ih hk'
        use l, hl, same_trans hsame hsame'
      · use k, List.mem_cons_self, k.same_refl
    · obtain ⟨l, hl, hsame⟩ := ih h
      split
      · use l
      · use l, List.mem_cons_of_mem _ hl, hsame

/-- There are no more different keys than distinct ones. -/
theorem Key.length_le_distinct {active ks : List Key}
    (hdifferent : active.Pairwise fun k l => k.same l = false)
    (hks : ∀ k ∈ active, ∃ l ∈ ks, k.same l = true) :
  active.length ≤ (distinct ks).length
  := by
  have hdistinct : ∀ k ∈ active, ∃ l ∈ distinct ks, k.same l = true := by
    intro k hk
    obtain ⟨l, hl, hsame⟩ := hks k hk
    obtain ⟨l', hl', hsame'⟩ := exists_same_distinct hl
    use l', hl', same_trans hsame hsame'
  choose! f hf hsame using hdistinct
  have hnodup : (active.map f).Nodup := by
    apply List.pairwise_map.2
    apply hdifferent.imp_of_mem
    intro k l hk hl hkl heq
    have hsame' := same_trans (hsame k hk) (heq ▸ same_symm (hsame l hl))
    rw [hkl] at hsame'
    cases hsame'
  have hsub : active.map f ⊆ distinct ks := by
    intro l hl
    obtain ⟨k, hk, rfl⟩ := List.mem_map.1 hl
    apply hf k hk
  rw [← List.length_map f]
  apply hnodup.length_le_of_subset hsub

end Peg
