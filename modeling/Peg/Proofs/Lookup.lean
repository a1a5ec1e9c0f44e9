import Mathlib
import Peg.Proofs.Exchange
import Peg.Proofs.Path

/-!
# Looking a key up and scanning for it

A field is looked up by its key, or else a pattern is tried against the texts of all keys in turn.
The keys of a list or a tuple are told apart by their texts, and so are those of a dictionary when
all of them are texts.  Then looking a key up is the same as scanning for its exact text: the scan
passes over all other keys, which leaves no trace, and finds the same field.
-/

namespace Peg

variable {m : Bool} {s : View m} {p : Pattern} {f : Focus} {t : String} {d : Value}
variable {key name name' : FieldName} {fields : List (Value × Value)}

/-! ### The pattern of an exact text -/

/-- The pattern of a text with nothing after it. -/
def Pattern.exactly (t : String) : Pattern :=
  .sequence (.literal t) (.fewerThan 1)

theorem Focus.matchText_inKey (f : Focus) (k : Value) (t : String) :
  (f.inKey k).matchText t
    = if t.toList <+: k.plain.toList then some ⟨t.length, []⟩ else none
  := by
  simp [matchText, inKey]

theorem Focus.matchFewer_inKey (f : Focus) (k : Value) (n : Nat) :
  ((f.inKey k).moveTo n).matchFewer 1 = if k.plain.length ≤ n then some ⟨n, []⟩ else none
  := by
  simp [matchFewer, inKey, moveTo, stay]

/-- The pattern of an exact text succeeds on the key with that text and fails on all others, and it
leaves the view as it is. -/
theorem Pattern.exactly_comesTo (t : String) (f : Focus) (k : Value) (s : View m) :
  (exactly t).ComesTo (f.inKey k) s
    (.ok (if k.plain = t then some ⟨t.length, []⟩ else none, s))
  := by
  have hliteral : (literal t).ComesTo (f.inKey k) s (.ok ((f.inKey k).matchText t, s)) :=
    .done _ _
  have hend : (fewerThan 1).ComesTo ((f.inKey k).moveTo t.length) s
      (.ok (((f.inKey k).moveTo t.length).matchFewer 1, s)) := .done _ _
  rw [Focus.matchText_inKey] at hliteral
  rw [Focus.matchFewer_inKey] at hend
  apply comesTo_sequence_iff.2
  by_cases hstart : t.toList <+: k.plain.toList
  · left
    rw [if_pos hstart] at hliteral
    have heq : k.plain = t ↔ k.plain.length ≤ t.length := by
      constructor
      · rintro rfl
        apply Nat.le_refl
      · intro hle
        apply String.toList_inj.1
        apply (hstart.eq_of_length_le hle).symm
    refine ⟨_, s, _, hliteral, hend, ?_⟩
    simp only [heq]
    split <;> rfl
  · right; left
    rw [if_neg hstart] at hliteral
    use s, hliteral
    rw [if_neg]
    rintro rfl
    apply hstart List.prefix_rfl

/-! ### Scanning for an exact text -/

/-- A scan that finds no key with the text fails. -/
theorem scanFields_exactly_of_not_mem (h : ∀ e ∈ fields, e.1.plain ≠ t) :
  (scanFields (.exactly t) p f fields).ComesTo s (.ok (none, s))
  := by
  induction fields with
  | nil => exact .done _ _
  | cons e fields ih =>
    apply Plan.comesTo_evaluate_bind_cases.2
    right; left
    use s
    constructor
    · simpa [h e] using Pattern.exactly_comesTo t f e.1 s
    · exact ih fun e' he' => h e' (List.mem_cons_of_mem e he')

/-- A scan comes to what the field comes to which has the key with the text, if no other one has. -/
theorem scanFields_exactly_of_mem {k v : Value} {w : Except Fault (Outcome × View m)}
    (hnodup : (fields.map fun e => e.1.plain).Nodup) (hmem : (k, v) ∈ fields) (hk : k.plain = t)
    (h : (matchField p f k v).ComesTo s w) :
  (scanFields (.exactly t) p f fields).ComesTo s w
  := by
  induction fields with
  | nil => cases hmem
  | cons e fields ih =>
    have hselector := Pattern.exactly_comesTo t f e.1 s
    obtain ⟨hfirst, hnodup⟩ := List.nodup_cons.1 hnodup
    apply Plan.comesTo_evaluate_bind_cases.2
    rcases List.mem_cons.1 hmem with rfl | hmem
    · left
      rw [if_pos hk] at hselector
      use ⟨t.length, []⟩, s, hselector
      apply Plan.comesTo_bind_iff.2
      obtain e | ⟨_ | r, s'⟩ := w
      · exact .inr ⟨e, h, rfl⟩
      · -- The scan goes on where the value of the field fails, but no other key has the text.
        left
        use none, s', h
        apply scanFields_exactly_of_not_mem
        rintro e he rfl
        exact hfirst (List.mem_map.2 ⟨e, he, hk.symm⟩)
      · exact .inl ⟨some r, s', h, .done _ _⟩
    · right; left
      have hother : e.1.plain ≠ t := by
        intro heq
        apply hfirst
        apply List.mem_map.2
        exact ⟨_, hmem, hk.trans heq.symm⟩
      rw [if_neg hother] at hselector
      exact ⟨s, hselector, ih hnodup hmem⟩

/-! ### Keys that are told apart by their texts -/

/-- A key is of the kind that an object has: a text for a dictionary whose keys are all texts, and
an integer for a list or a tuple. -/
inductive FieldName.Fits : FieldName → Value → Prop where
  | dict (t : String) {es : List (Value × Value)} :
    (∀ e ∈ es, ∃ u, e.1 = .text u) → Fits (.text t) (.dict es)
  | list (i : Int) (xs : List Value) : Fits (.int i) (.list xs)
  | tuple (i : Int) (xs : List Value) : Fits (.int i) (.tuple xs)

/-- Integers are told apart by their texts. -/
theorem Value.eq_of_plain_int_eq {i j : Int} (h : (int i).plain = (int j).plain) :
  i = j
  := by
  have hread : (toString i).toInt? = (toString j).toInt? := congrArg String.toInt? h
  simpa using hread

namespace FieldName.Fits

/-- Keys that fit an object are told apart by their texts. -/
theorem eq_of_plain_eq (h : name.Fits d) (h' : name'.Fits d)
    (heq : name.value.plain = name'.value.plain) :
  name = name'
  := by
  cases h with
  | dict t _ =>
    cases h'
    exact congrArg FieldName.text heq
  | list i xs =>
    cases h'
    exact congrArg FieldName.int (Value.eq_of_plain_int_eq heq)
  | tuple i xs =>
    cases h'
    exact congrArg FieldName.int (Value.eq_of_plain_int_eq heq)

/-- All keys fit an object when one does. -/
theorem of_mem (h : key.Fits d) (hf : d.fields? = some fields) {k v : Value}
    (hmem : (k, v) ∈ fields) :
  ∃ name : FieldName, k = name.value ∧ name.Fits d
  := by
  cases h with
  | dict t htexts =>
    cases hf
    obtain ⟨u, rfl⟩ := htexts _ (Value.mem_of_mem_unshadowed hmem)
    exact ⟨.text u, rfl, .dict u htexts⟩
  | list i xs =>
    cases hf
    obtain ⟨j, rfl, -⟩ := Value.mem_indexed hmem
    exact ⟨.int _, rfl, .list _ xs⟩
  | tuple i xs =>
    cases hf
    obtain ⟨j, rfl, -⟩ := Value.mem_indexed hmem
    exact ⟨.int _, rfl, .tuple _ xs⟩

/-- The keys of an object have different texts, if a key fits it. -/
theorem nodup_plain (h : key.Fits d) (hf : d.fields? = some fields) :
  (fields.map fun e => e.1.plain).Nodup
  := by
  have hdistinct := Entries.haveDistinctKeys_fields hf
  simp only [Entries.haveDistinctKeys, decide_eq_true_eq] at hdistinct
  rw [List.Nodup, List.pairwise_map]
  apply hdistinct.imp_of_mem
  rintro ⟨k, v⟩ ⟨k', v'⟩ he he' hapart heq
  obtain ⟨name, rfl, hname⟩ := h.of_mem hf he
  obtain ⟨name', rfl, hname'⟩ := h.of_mem hf he'
  obtain rfl := hname.eq_of_plain_eq hname' heq
  have hself : name.value.alike name.value = true := Value.agrees_refl _
  cases hself.symm.trans hapart

/-- A key that fits an object finds the field with its text. -/
theorem fieldAt?_eq_some_iff (h : key.Fits d) (hf : d.fields? = some fields) {v : Value} :
  d.fieldAt? key.value = some v ↔ (key.value, v) ∈ fields
  := by
  constructor
  · intro hv
    obtain ⟨fields', k, hf', hmem, halike⟩ := Value.exists_mem_fields_of_fieldAt? hv
    cases hf.symm.trans hf'
    obtain ⟨name, rfl, -⟩ := h.of_mem hf hmem
    rw [← Value.eq_of_alike_fieldName (Value.isPlainKey_fieldName key) halike]
    apply hmem
  · apply Value.fieldAt?_of_mem hf

/-- A key that fits an object is looked up as it is scanned for. -/
theorem scan_of_lookup {w : Except Fault (Outcome × View m)} (h : key.Fits f.subject)
    (hw : (Pattern.field (.literal key) p).ComesTo f s w) :
  (Pattern.field (.pattern (.exactly key.value.plain)) p).ComesTo f s w
  := by
  obtain ⟨fields, hf⟩ : ∃ fields, f.subject.fields? = some fields := by
    generalize f.subject = d at h
    cases h <;> exact ⟨_, rfl⟩
  simp only [Pattern.ComesTo, Pattern.plan, matchSelected] at hw ⊢
  rw [hf]
  cases hv : f.subject.fieldAt? key.value with
  | some v =>
    rw [hv] at hw
    apply scanFields_exactly_of_mem (h.nodup_plain hf) ((h.fieldAt?_eq_some_iff hf).1 hv) rfl hw
  | none =>
    rw [hv] at hw
    obtain rfl := Plan.comesTo_done_iff.1 hw
    apply scanFields_exactly_of_not_mem
    rintro ⟨k, v⟩ hmem heq
    obtain ⟨name, rfl, hname⟩ := h.of_mem hf hmem
    obtain rfl := hname.eq_of_plain_eq h heq
    rw [(h.fieldAt?_eq_some_iff hf).2 hmem] at hv
    cases hv

end FieldName.Fits

/-! ### Constructions -/

/-- The making of the pattern by which a key is scanned for: the text of the key, and then fewer
than one character. -/
def FieldName.ofScan (key : FieldName) : Build Value := do
  let text ← Constructor.pattern.apply [.text key.value.plain]
  let stop ← Constructor.pattern.apply [.int (-1)]
  Constructor.sequence.apply [text, stop]

/-- Looking a key up and scanning for its exact text agree on every object that the key fits.  All
matches of the two patterns end alike there, whether the object has such a field or not, and fields
that cannot be made fail to be made with the same error. -/
theorem Constructor.lookup_like_scan (key : FieldName) (subject value : Value)
    (h : key.Fits subject) :
  Build.Pairs [value] (Pattern.EndsLikeOn subject)
    (field.apply [key.value, value])
    (do
      let selector ← key.ofScan
      field.apply [selector, value])
  := by
  intro n
  have hlookup : field.apply [key.value, value]
      = asValue (value.toPattern >>= fun p => pure (.field (.literal key) p)) := by
    cases key <;> rfl
  have hscan : (key.ofScan >>= fun selector => field.apply [selector, value])
      = asValue (value.toPattern >>= fun p =>
        pure (.field (.pattern (.exactly key.value.plain)) p)) := rfl
  rw [hlookup, hscan]
  simp only [Value.toPatterns, asValue, Bind.bind, EStateM.bind, Pure.pure, EStateM.pure]
  cases value.toPattern n with
  | error e k => exact ⟨rfl, rfl⟩
  | ok p k =>
    refine ⟨_, _, rfl, rfl, Pattern.endsLikeOn_of_comesTo ?_⟩
    rintro m f s w rfl hw
    apply h.scan_of_lookup hw

/-- A list of two empty lists. -/
def twoLists : Value :=
  .list [.list [], .list []]

/-- The place of the second list is captured, whether its key is looked up or scanned for. -/
theorem Constructor.lookup_like_scan_twoLists :
  FieldName.Fits (.int 1) twoLists
    ∧ (Matcher.runWithin 20 ⟨.field (.literal (.int 1)) .position, none, {}⟩ twoLists 0).outcome
      = .ok (some ⟨0, [⟨.tuple [.int 1], none⟩]⟩)
    ∧ (Matcher.runWithin 20 ⟨.field (.pattern (.exactly "1")) .position, none, {}⟩ twoLists
      0).outcome = .ok (some ⟨0, [⟨.tuple [.int 1], none⟩]⟩)
  := by
  have hfits : FieldName.Fits (.int 1) twoLists := .list 1 _
  have hlookup : (Matcher.runWithin 20 ⟨.field (.literal (.int 1)) .position, none, {}⟩ twoLists
      0).outcome = .ok (some ⟨0, [⟨.tuple [.int 1], none⟩]⟩) := rfl
  obtain ⟨p, q, hp, hq, hpq⟩ :=
    Constructor.lookup_like_scan (.int 1) twoLists (.pattern .position) hfits 0
  cases hp
  cases hq
  obtain ⟨v, hv, hv'⟩ := hpq 0 none {} rfl rfl
  have heq := (hv.outcome_eq 20 (by decide)).symm.trans hlookup
  exact ⟨hfits, hlookup, (hv'.outcome_eq 20 (by decide)).trans heq⟩

end Peg
