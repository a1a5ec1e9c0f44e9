import Peg.Proofs.Lockstep
import Peg.Proofs.Scoping
import Peg.Proofs.Sessions

/-!
# Dictionaries in another order

Two subjects that are alike hold the same, though the entries of their dictionaries may stand in
another order.  A field that is looked up by its key is found in both, provided that no dictionary
has two keys that are alike, and its values are alike again.  So a match that looks up all fields by
their keys goes the same way on both subjects, and comes to outcomes that are alike: only a pattern
for keys sees the order of a dictionary.

In what an expression builds the keys are distinct, by `Expr.builds_hasDistinctKeys`.
-/

namespace Peg

namespace Value

variable {v w key : Value} {xs ys : List Value} {es fs : List (Value × Value)}

/-! ### Looking up fields of values that are alike -/

/-- Values that are alike, in which no dictionary has two keys that are alike. -/
structure Mirrors (v w : Value) : Prop where
  alike : v.alike w = true
  distinct : v.hasDistinctKeys = true
  distinct' : w.hasDistinctKeys = true

theorem Mirrors.symm (h : Mirrors v w) :
  Mirrors w v
  := ⟨agrees_symm h.alike, h.distinct', h.distinct⟩

/-- What is found in one dictionary is found in one that mirrors it. -/
theorem Mirrors.lookup? (h : Mirrors (.dict es) (.dict fs))
    (hv : Entries.lookup? es key = some v) :
  ∃ w, Entries.lookup? fs key = some w ∧ Mirrors v w
  := by
  obtain ⟨e, he, hkey, rfl⟩ := Entries.exists_mem_of_lookup? hv
  have hdistinct := h.distinct
  have hdistinct' := h.distinct'
  simp only [hasDistinctKeys, Bool.and_eq_true, entriesHaveDistinctKeys_iff] at hdistinct hdistinct'
  obtain ⟨f, hf, hkeys, hvalues⟩ := (entriesAlike_iff.1 (dict_alike_iff.1 h.alike)).1 e he
  have hfkey : f.1.alike key = true := agrees_trans (agrees_symm hkeys) hkey
  use f.2, Entries.lookup?_of_mem hdistinct'.1 hf hfkey
  exact ⟨hvalues, hdistinct.2 e he, hdistinct'.2 f hf⟩

/-- The members of lists that are alike mirror each other. -/
theorem Mirrors.members (h : listAgrees .alike xs ys = true)
    (hdistinct : allHaveDistinctKeys xs = true) (hdistinct' : allHaveDistinctKeys ys = true) :
  List.Forall₂ Mirrors xs ys
  := by
  rw [listAgrees_iff] at h
  rw [allHaveDistinctKeys_iff] at hdistinct hdistinct'
  induction h with
  | nil => apply List.Forall₂.nil
  | cons hxy _ ih =>
    obtain ⟨hx, hxs⟩ := List.forall_mem_cons.1 hdistinct
    obtain ⟨hy, hys⟩ := List.forall_mem_cons.1 hdistinct'
    exact .cons ⟨hxy, hx, hy⟩ (ih hxs hys)

theorem Mirrors.memberAt? (h : List.Forall₂ Mirrors xs ys) (key : Value) :
  Option.Rel Mirrors (memberAt? xs key) (memberAt? ys key)
  := by
  unfold Value.memberAt?
  split
  · next k =>
    induction h generalizing k with
    | nil => apply Option.Rel.none
    | cons hxy _ ih =>
      cases k with
      | zero => apply Option.Rel.some hxy
      | succ k => apply ih
  · apply Option.Rel.none

/-- The same fields are there in values that mirror each other, and they do too. -/
theorem Mirrors.fieldAt? (h : Mirrors v w) (key : Value) :
  Option.Rel Mirrors (v.fieldAt? key) (w.fieldAt? key)
  := by
  have halike := h.alike
  have hdistinct := h.distinct
  have hdistinct' := h.distinct'
  cases v <;> cases w <;> simp only [Value.alike, agrees, Bool.false_eq_true] at halike
  case dict.dict es fs =>
    simp only [Value.fieldAt?]
    cases hv : Entries.lookup? es key with
    | some v =>
      obtain ⟨w, hw, hvw⟩ := h.lookup? hv
      rw [hw]
      apply Option.Rel.some hvw
    | none =>
      cases hw : Entries.lookup? fs key with
      | none => apply Option.Rel.none
      | some w =>
        obtain ⟨v, hv', -⟩ := h.symm.lookup? hw
        rw [hv] at hv'
        cases hv'
  case list.list xs ys => apply Mirrors.memberAt? (Mirrors.members halike hdistinct hdistinct')
  case tuple.tuple xs ys => apply Mirrors.memberAt? (Mirrors.members halike hdistinct hdistinct')
  all_goals apply Option.Rel.none

theorem alike_text {s : String} (h : v.alike (.text s) = true) :
  v = .text s
  := by
  cases v <;> simp only [Value.alike, agrees, Bool.false_eq_true] at h
  case scalar t =>
    have hcanonical : t.canonical = .text s := Scalar.alike_iff.1 h
    cases t <;> simp only [Scalar.canonical, Scalar.integer?] at hcanonical
    case float t =>
      split at hcanonical <;> cases hcanonical
    all_goals cases hcanonical
    rfl

theorem Mirrors.text_iff (h : Mirrors v w) (s : String) :
  v = .text s ↔ w = .text s
  := by
  constructor
  · rintro rfl
    apply alike_text h.symm.alike
  · rintro rfl
    apply alike_text h.alike

/-- Values that mirror each other are the same text, or neither is a text. -/
theorem Mirrors.cases_text (h : Mirrors v w) :
  (∃ s, v = .text s ∧ w = .text s) ∨ ((¬ ∃ s, v = .text s) ∧ ¬ ∃ s, w = .text s)
  := by
  by_cases hs : ∃ s, v = .text s
  · obtain ⟨s, hs⟩ := hs
    exact .inl ⟨s, hs, (h.text_iff s).1 hs⟩
  · right
    use hs
    rintro ⟨s, hs'⟩
    exact hs ⟨s, (h.text_iff s).2 hs'⟩

end Value

/-- Values inherit that the keys in them are distinct. -/
theorem Value.inherited_hasDistinctKeys :
  Inherited 0 fun _ v => v.hasDistinctKeys = true
  where
  later _ h := h
  scalar _ := rfl
  list h := allHaveDistinctKeys_iff.2 h
  tuple h := allHaveDistinctKeys_iff.2 h
  dict hkeys h := by
    simp only [hasDistinctKeys, hkeys, Bool.true_and, entriesHaveDistinctKeys_iff]
    exact fun e he => (h e he).2
  table _ _ _ := rfl
  entry h he := by
    simp only [hasDistinctKeys, Bool.and_eq_true, entriesHaveDistinctKeys_iff] at h
    apply h.2 _ he
  const _ := rfl
  pattern _ _ _ := rfl
  grammar _ _ _ _ := ⟨rfl, rfl⟩

/-- Whatever an expression builds in a session, no dictionary in it has two keys that are alike. -/
theorem Expr.builds_hasDistinctKeys (requests : List Request) (e : Expr) {v : Value} {n n' : Nat}
    (h : e.eval (Session.after requests).env n = .ok v n') :
  v.hasDistinctKeys = true
  := by
  have henv := Session.after_inherits Value.inherited_hasDistinctKeys requests
  have hbuilds := e.eval_inherits Value.inherited_hasDistinctKeys (Nat.zero_le n) henv
  apply (hbuilds.made n' v h).2

/-! ### Foci on subjects that mirror each other -/

variable {f f' g : Focus} {m : Matcher} {p p' : Pattern}

/-- The same place in subjects that mirror each other. -/
structure Focus.Mirrors (f f' : Focus) : Prop where
  subject : f.subject.Mirrors f'.subject
  pos : f.pos = f'.pos
  path : f.path = f'.path
  scope : f.scope = f'.scope

namespace Focus.Mirrors

theorem moveTo (h : f.Mirrors f') (pos : Nat) :
  (f.moveTo pos).Mirrors (f'.moveTo pos)
  := ⟨h.subject, rfl, h.path, h.scope⟩

theorem inScope (h : f.Mirrors f') (g : Grammar) :
  (f.inScope g).Mirrors (f'.inScope g)
  := ⟨h.subject, h.pos, h.path, rfl⟩

theorem inField (h : f.Mirrors f') (key : Value) {v w : Value} (hv : v.Mirrors w) :
  (f.inField key v).Mirrors (f'.inField key w)
  := by
  refine ⟨hv, rfl, ?_, h.scope⟩
  rw [Focus.inField, Focus.inField, h.path]

theorem sameAhead (h : f.Mirrors f') :
  f.SameAhead f'
  := by
  rcases h.subject.cases_text with ⟨s, hs, hs'⟩ | ⟨hs, hs'⟩
  · apply SameAhead.text hs hs'
    · rw [h.pos]
    · rw [h.pos]
  · exact .object (fun s hf => hs ⟨s, hf⟩) (fun s hf => hs' ⟨s, hf⟩)

theorem place_eq (h : f.Mirrors f') :
  f.place = f'.place
  := by
  rcases h.subject.cases_text with ⟨s, hs, hs'⟩ | ⟨hs, hs'⟩
  · rw [place_text hs, place_text hs']
  · rw [place_object hs, place_object hs', h.path]

theorem key_eq (h : f.Mirrors f') (g : Grammar) (rule : String) :
  f.key g rule = f'.key g rule
  := by
  rw [key, key, h.place_eq, h.pos]

theorem whereabouts_eq (h : f.Mirrors f') :
  f.whereabouts = f'.whereabouts
  := by
  rcases h.subject.cases_text with ⟨s, hs, hs'⟩ | ⟨hs, hs'⟩
  · simp only [whereabouts, hs, hs', h.pos]
  · rw [whereabouts_object hs, whereabouts_object hs', h.path]

theorem spanned_alike (h : f.Mirrors f') (stop : Nat) :
  (f.spanned stop).agrees .alike (f'.spanned stop) = true
  := by
  rcases h.subject.cases_text with ⟨s, hs, hs'⟩ | ⟨hs, hs'⟩
  · simp only [spanned, hs, hs', h.pos]
    apply Value.agrees_refl
  · rw [spanned_object hs, spanned_object hs']
    apply h.subject.alike

end Focus.Mirrors

/-- The same pattern is evaluated at foci that mirror each other. -/
structure Focus.MirroredEvaluation (p : Pattern) (f : Focus) (p' : Pattern) (f' : Focus) :
    Prop where
  pattern : p = p'
  foci : f.Mirrors f'

/-- A rule of the same grammar is applied at foci that mirror each other. -/
structure Focus.MirroredApplication (g : Grammar) (f : Focus) (g' : Grammar) (f' : Focus) :
    Prop where
  grammar : g = g'
  foci : f.Mirrors f'

/-- Foci that mirror each other are abreast. -/
def mirroring : Abreast where
  foci := Focus.Mirrors
  sameAhead h := h.sameAhead
  pos h := h.pos
  moveTo h := h.moveTo

/-- Questions at foci that mirror each other have answers that are alike. -/
abbrev mirroredCorrespondence : Correspondence :=
  Alongside.correspondence .alike
    (Question.Related Focus.MirroredEvaluation fun _ => Focus.MirroredApplication)

/-- A field that is looked up by its key goes the same way at foci that mirror each other. -/
theorem Focus.Mirrors.field_corresponds (h : f.Mirrors f') (name : FieldName) (p : Pattern) :
  ((Pattern.field (.literal name) p).plan f).Corresponds mirroredCorrespondence
    (Outcome.Agrees .alike) ((Pattern.field (.literal name) p).plan f')
  := by
  have hvalues := h.subject.fieldAt? name.value
  simp only [Pattern.plan, matchSelected]
  generalize f.subject.fieldAt? name.value = x, f'.subject.fieldAt? name.value = y at hvalues ⊢
  cases hvalues with
  | none => apply Option.Rel.none
  | some hv =>
    apply Resemblance.evaluate_corresponds (R := mirroring.resemblance .alike)
    · exact .evaluate ⟨rfl, h.inField name.value hv⟩
    · apply Option.Rel.none
    · exact fun _ _ hs => Option.Rel.some ⟨h.pos, hs.2⟩

/-- A pattern that is not a field with a pattern for its key goes the same way at foci that mirror
each other. -/
theorem Focus.Mirrors.plan_corresponds (h : f.Mirrors f')
    (hkey : ∀ k v, p ≠ .field (.pattern k) v) :
  (p.plan f).Corresponds mirroredCorrespondence (Outcome.Agrees .alike) (p.plan f')
  := by
  apply Pattern.plan_abreast (A := mirroring) h
  · exact fun q _ f f' h => .evaluate ⟨rfl, h⟩
  · exact fun _ _ stop => h.spanned_alike stop
  · rintro -
    rw [h.whereabouts_eq]
    apply Value.agrees_refl
  · rintro k v rfl
    cases k with
    | literal name => apply h.field_corresponds
    | pattern k => cases hkey k v rfl
  · rintro name rfl
    simp only [Pattern.plan, ← h.scope]
    split
    · rfl
    · exact ⟨.apply ⟨rfl, h⟩, fun _ _ hr => hr⟩
  · rintro grammar rfl
    simp only [matchRoot]
    split
    · exact ⟨.apply ⟨rfl, h⟩, fun _ _ hr => hr⟩
    · exact ⟨.evaluate ⟨rfl, h.inScope grammar⟩, fun _ _ hr => hr⟩

/-! ### Matches -/

namespace Matcher

/-- A match looks up all fields by their keys: it uses no field with a pattern for its key. -/
def LooksUp (m : Matcher) : Prop :=
  ∀ k v scope, ¬ m.Uses (.field (.pattern k) v) scope

/-- The match of a pattern that looks up all fields by their keys, on subjects that mirror each
other. -/
def mirroredUnison (m : Matcher) (hm : m.LooksUp) : Unison where
  evaluations := Focus.MirroredEvaluation
  applications _ := Focus.MirroredApplication
  comparison := .alike
  known p f := m.Uses p f.scope
  histories _ _ := True
  known_hereditary := m.uses_hereditary
  plan_corresponds := by
    rintro p _ f f' huses ⟨rfl, h⟩
    apply h.plan_corresponds
    rintro k v rfl
    apply hm k v _ huses
  pos_eq h := h.foci.pos
  body := by
    rintro rule g _ f f' ⟨rfl, h⟩
    cases g.rule? rule with
    | none => apply Option.Rel.none
    | some body => exact .some ⟨rfl, h.inScope g⟩
  same_eq := by
    rintro rule rule₁ g _ g₁ _ f f' f₁ f₁' ⟨rfl, h⟩ ⟨rfl, h₁⟩
    -- an object is known by its path, which says nothing of the order of entries
    rw [h.key_eq, h₁.key_eq]
  histories_nil := trivial
  histories_concat _ _ _ := trivial

/-- A match that looks up all fields by their keys comes to outcomes that are alike, or to the same
fault, after as many steps, on subjects that mirror each other. -/
theorem runWithin_mirrored {m : Matcher} (hm : m.LooksUp) {subject subject' : Value}
    (h : subject.Mirrors subject') (nesting pos : Nat) :
  Verdict.Agrees .alike (m.runWithin nesting subject pos).outcome
      (m.runWithin nesting subject' pos).outcome
    ∧ (m.runWithin nesting subject pos).progress.steps
      = (m.runWithin nesting subject' pos).progress.steps
  := by
  have hstart : Focus.MirroredEvaluation m.pattern (.start subject pos m.outer) m.pattern
      (.start subject' pos m.outer) := ⟨rfl, h, rfl, rfl, rfl⟩
  obtain ⟨hverdicts, hsteps, -⟩ :=
    (m.mirroredUnison hm).runWithin_alike m.options hstart .start nesting
  exact ⟨hverdicts, hsteps⟩

end Matcher

/-! ### Entries in another order -/

/-- Two values differ only in the order of the entries of dictionaries in them, and of the fields of
tables, at any depth. -/
inductive Value.Reordered : Value → Value → Prop where
  | refl (v : Value) : Reordered v v
  | trans {u v w : Value} : Reordered u v → Reordered v w → Reordered u w
  | entries {es fs : List (Value × Value)} : es.Perm fs → Reordered (.dict es) (.dict fs)
  | entry {before after : List (Value × Value)} {k k' v v' : Value} :
    Reordered k k' → Reordered v v' →
      Reordered (.dict (before ++ (k, v) :: after)) (.dict (before ++ (k', v') :: after))
  | listItem {before after : List Value} {x y : Value} :
    Reordered x y → Reordered (.list (before ++ x :: after)) (.list (before ++ y :: after))
  | tupleItem {before after : List Value} {x y : Value} :
    Reordered x y → Reordered (.tuple (before ++ x :: after)) (.tuple (before ++ y :: after))
  | tableItem {before after : List Value} {x y : Value} {fs : List (Value × Value)} :
    Reordered x y → Reordered (.table (before ++ x :: after) fs) (.table (before ++ y :: after) fs)
  | tableFields {xs : List Value} {es fs : List (Value × Value)} :
    es.Perm fs → Reordered (.table xs es) (.table xs fs)
  | tableField {xs : List Value} {before after : List (Value × Value)} {k k' v v' : Value} :
    Reordered k k' → Reordered v v' →
      Reordered (.table xs (before ++ (k, v) :: after)) (.table xs (before ++ (k', v') :: after))

namespace Value

variable {v w : Value}

/-- Lists are related when they differ in one item only, and there they are related. -/
theorem forall₂_item {α : Type} {R : α → α → Prop} (hrefl : ∀ a, R a a) {before after : List α}
    {a b : α} (h : R a b) :
  List.Forall₂ R (before ++ a :: after) (before ++ b :: after)
  := by
  have hsame : ∀ as : List α, List.Forall₂ R as as :=
    fun as => List.forall₂_same.2 fun a _ => hrefl a
  apply List.rel_append (hsame before)
  exact .cons h (hsame after)

theorem listAgrees_item {before after : List Value} {x y : Value} (h : x.alike y = true) :
  listAgrees .alike (before ++ x :: after) (before ++ y :: after) = true
  := by
  rw [listAgrees_iff]
  apply forall₂_item (R := fun x y => Value.agrees .alike x y = true) _ h
  exact fun x => agrees_refl x

theorem entriesAlike_entry {before after : List (Value × Value)} {k k' v v' : Value}
    (hk : k.alike k' = true) (hv : v.alike v' = true) :
  entriesAlike (before ++ (k, v) :: after) (before ++ (k', v') :: after) = true
  := by
  apply entriesAlike_of_forall₂
  apply forall₂_item _ ⟨hk, hv⟩
  exact fun e => ⟨agrees_refl e.1, agrees_refl e.2⟩

/-- Values that differ only in the order of entries are alike. -/
theorem Reordered.alike (h : v.Reordered w) :
  v.alike w = true
  := by
  induction h with
  | refl v => apply agrees_refl
  | trans _ _ ih ih' => apply agrees_trans ih ih'
  | entries h => apply dict_alike_iff.2 (entriesAlike_of_perm h)
  | entry _ _ hk hv => apply dict_alike_iff.2 (entriesAlike_entry hk hv)
  | listItem _ h => apply listAgrees_item h
  | tupleItem _ h => apply listAgrees_item h
  | tableItem _ h => exact table_alike_iff.2 ⟨listAgrees_item h, entriesAlike_of_perm (.refl _)⟩
  | tableFields h => exact table_alike_iff.2 ⟨listAgrees_refl _, entriesAlike_of_perm h⟩
  | tableField _ _ hk hv => exact table_alike_iff.2 ⟨listAgrees_refl _, entriesAlike_entry hk hv⟩

theorem allHaveDistinctKeys_item {before after : List Value} {x y : Value}
    (h : x.hasDistinctKeys = y.hasDistinctKeys) :
  allHaveDistinctKeys (before ++ x :: after) = allHaveDistinctKeys (before ++ y :: after)
  := by
  rw [Bool.eq_iff_iff]
  simp only [allHaveDistinctKeys_iff, List.forall_mem_append, List.forall_mem_cons, h]

/-- The keys of entries are distinct in any order. -/
theorem haveDistinctKeys_perm {es fs : List (Value × Value)} (h : es.Perm fs) :
  Entries.haveDistinctKeys es = Entries.haveDistinctKeys fs
  := by
  rw [Bool.eq_iff_iff]
  simp only [Entries.haveDistinctKeys, decide_eq_true_eq]
  apply h.pairwise_iff
  intro e f hef
  rw [alike_comm]
  apply hef

/-- The keys of entries are distinct when keys alike to them are. -/
theorem haveDistinctKeys_entry {before after : List (Value × Value)} {k k' v v' : Value}
    (h : k.alike k' = true) :
  Entries.haveDistinctKeys (before ++ (k, v) :: after)
    = Entries.haveDistinctKeys (before ++ (k', v') :: after)
  := by
  have hleft : ∀ u : Value, u.alike k = u.alike k' := alike_congr h
  have hright : ∀ u : Value, k.alike u = k'.alike u := by
    intro u
    rw [alike_comm, hleft, alike_comm]
  rw [Bool.eq_iff_iff]
  simp only [Entries.haveDistinctKeys, decide_eq_true_eq, List.pairwise_append,
    List.pairwise_cons, List.forall_mem_cons, hleft, hright]

/-- Values that differ only in the order of entries have distinct keys at the same time. -/
theorem Reordered.hasDistinctKeys_eq (h : v.Reordered w) :
  v.hasDistinctKeys = w.hasDistinctKeys
  := by
  induction h with
  | refl v => rfl
  | trans _ _ ih ih' => rw [ih, ih']
  | @entries es fs h =>
    have hvalues : entriesHaveDistinctKeys es = entriesHaveDistinctKeys fs := by
      rw [Bool.eq_iff_iff, entriesHaveDistinctKeys_iff, entriesHaveDistinctKeys_iff]
      simp only [h.mem_iff]
    simp only [hasDistinctKeys, haveDistinctKeys_perm h, hvalues]
  | @entry before after k k' v v' hk _ _ hv =>
    have hvalues : entriesHaveDistinctKeys (before ++ (k, v) :: after)
        = entriesHaveDistinctKeys (before ++ (k', v') :: after) := by
      rw [Bool.eq_iff_iff]
      simp only [entriesHaveDistinctKeys_iff, List.forall_mem_append, List.forall_mem_cons, hv]
    have hkeys : Entries.haveDistinctKeys (before ++ (k, v) :: after)
        = Entries.haveDistinctKeys (before ++ (k', v') :: after) := by
      apply haveDistinctKeys_entry hk.alike
    simp only [hasDistinctKeys, hkeys, hvalues]
  | listItem _ h => apply allHaveDistinctKeys_item h
  | tupleItem _ h => apply allHaveDistinctKeys_item h
  | tableItem _ _ => rfl
  | tableFields _ => rfl
  | tableField _ _ _ _ => rfl

/-- A value mirrors another one that differs from it only in the order of entries. -/
theorem Reordered.mirrors (h : v.Reordered w) (hv : v.hasDistinctKeys = true) :
  v.Mirrors w
  := ⟨h.alike, hv, h.hasDistinctKeys_eq ▸ hv⟩

/-- Every start in a value that is not a text is the only position there. -/
theorem startPosition_object (hv : ¬ ∃ s, v = .text s) (start : Value) :
  startPosition v start = startPosition (.list []) start
  := by
  fun_cases startPosition v start with
  | case1 i s => cases hv ⟨s, rfl⟩
  | case2 i => rfl
  | case3 =>
    rename_i hint _
    rw [startPosition]
    · exact hint
    · simp

/-- A start is the same position in values that mirror each other. -/
theorem Mirrors.startPosition_eq (h : v.Mirrors w) (start : Value) :
  startPosition v start = startPosition w start
  := by
  rcases h.cases_text with ⟨s, rfl, rfl⟩ | ⟨hv, hw⟩
  · rfl
  · rw [startPosition_object hv, startPosition_object hw]

end Value

/-- Only patterns for keys see the order of a dictionary.  Two subjects differ only in the order of
entries, and no dictionary in them has two keys that are alike, as in whatever expressions build.  A
match that looks up all fields by their keys starts at the same position in both, and comes to
outcomes that are alike, or to the same fault, after as many steps: where it succeeds it stops at
the same position, with captures of the same names and of values that are alike. -/
theorem Matcher.order_unseen {m : Matcher} (hm : m.LooksUp) {subject subject' : Value}
    (hdistinct : subject.hasDistinctKeys = true) (h : subject.Reordered subject') :
  (∀ start, startPosition subject start = startPosition subject' start)
    ∧ ∀ nesting pos,
      Verdict.Agrees .alike (m.runWithin nesting subject pos).outcome
          (m.runWithin nesting subject' pos).outcome
        ∧ (m.runWithin nesting subject pos).progress.steps
          = (m.runWithin nesting subject' pos).progress.steps
  := by
  have hmirrors := h.mirrors hdistinct
  constructor
  · apply hmirrors.startPosition_eq
  · apply runWithin_mirrored hm hmirrors

/-- A capture of what lies under a key, and one of a letter there. -/
def nameOfUser : Matcher where
  pattern := .span (.field (.literal (.text "user"))
    (.field (.literal (.text "name")) (.span (.anyChars 1))))

theorem nameOfUser_uses {p : Pattern} {scope : Option Grammar} (h : nameOfUser.Uses p scope) :
  p ∈ [nameOfUser.pattern,
    .field (.literal (.text "user")) (.field (.literal (.text "name")) (.span (.anyChars 1))),
    .field (.literal (.text "name")) (.span (.anyChars 1)), .span (.anyChars 1), .anyChars 1]
  := by
  induction h with
  | start => apply List.mem_cons_self
  | part _ hq ih =>
    simp only [nameOfUser, List.mem_cons, List.not_mem_nil, or_false] at ih ⊢
    rcases ih with rfl | rfl | rfl | rfl | rfl <;>
      simp_all [Pattern.parts]
  | inline _ _ ih => simp [nameOfUser] at ih
  | root _ _ _ ih => simp [nameOfUser] at ih
  | rule _ _ ih => simp [nameOfUser] at ih

/-- A user with a name, and with a number. -/
def numberedUser : List (Value × Value) :=
  [(.text "name", .text "x"), (.text "number", .int 7)]

/-- A dictionary with a user under one of two keys. -/
def taggedUser : List (Value × Value) :=
  [(.text "user", .dict numberedUser), (.text "tag", .bool true)]

/-- The same dictionary with the keys the other way round, also in the user. -/
def userTagged : List (Value × Value) :=
  [(.text "tag", .bool true), (.text "user", .dict numberedUser.reverse)]

/-- The dictionaries are captured as they are, in their different orders, and the captures are
alike. -/
theorem Matcher.order_unseen_nameOfUser :
  nameOfUser.LooksUp
    ∧ (Value.dict taggedUser).hasDistinctKeys = true
    ∧ (Value.dict taggedUser).Reordered (.dict userTagged)
    ∧ (nameOfUser.runWithin 10 (.dict taggedUser) 0).outcome
      = .ok (some ⟨0, [⟨.dict taggedUser, none⟩, ⟨.text "x", none⟩]⟩)
    ∧ (nameOfUser.runWithin 10 (.dict userTagged) 0).outcome
      = .ok (some ⟨0, [⟨.dict userTagged, none⟩, ⟨.text "x", none⟩]⟩)
    ∧ Verdict.Agrees .alike (nameOfUser.runWithin 10 (.dict taggedUser) 0).outcome
      (nameOfUser.runWithin 10 (.dict userTagged) 0).outcome
  := by
  have hlooks : nameOfUser.LooksUp := by
    intro k v scope huses
    have hmem := nameOfUser_uses huses
    simp [nameOfUser] at hmem
  have hdistinct : (Value.dict taggedUser).hasDistinctKeys = true := by decide
  have hreordered : (Value.dict taggedUser).Reordered (.dict userTagged) := by
    apply Value.Reordered.trans
    · exact @Value.Reordered.entry [] _ _ _ _ _ (.refl _) (.entries (List.reverse_perm _).symm)
    · exact .entries (.swap _ _ _)
  use hlooks, hdistinct, hreordered, rfl, rfl
  exact ((order_unseen hlooks hdistinct hreordered).2 10 0).1

end Peg
