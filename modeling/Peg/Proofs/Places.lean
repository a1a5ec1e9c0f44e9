import Peg.Proofs.Path
import Peg.Proofs.Settling

/-!
# Rule applications at the same place

A focus is placed in an outermost object when its subject is a text, or the value that its path
leads to.  All foci of a match are.  At placed foci the key of a rule application tells everything
that its outcome depends on: applications with the same key settle on outcomes that agree.

Keys are the same also when their paths are only alike.  `Value.Tells` says how well paths from an
object are told apart: they are alike only if they agree in a comparison.
-/

namespace Peg

/-! ### Sameness is an equivalence -/

theorem Place.same_refl (p : Place) :
  p.same p = true
  := by
  cases p with
  | text s => apply beq_self_eq_true
  | object path => apply Value.listAgrees_refl

theorem Place.same_symm {p q : Place} (h : p.same q = true) :
  q.same p = true
  := by
  cases p <;> cases q <;> simp only [same, Bool.false_eq_true] at h ⊢
  · rw [beq_iff_eq] at h ⊢
    apply h.symm
  · apply Value.listAgrees_symm h

theorem Place.same_trans {p q r : Place} (h : p.same q = true) (h' : q.same r = true) :
  p.same r = true
  := by
  cases p <;> cases q <;> cases r <;> simp only [same, Bool.false_eq_true] at h h' ⊢
  · rw [beq_iff_eq] at h h' ⊢
    rw [h, h']
  · apply Value.listAgrees_trans h h'

namespace Key

variable {k l m : Key}

theorem same_iff :
  k.same l = true
    ↔ k.grammar = l.grammar ∧ k.rule = l.rule ∧ k.place.same l.place = true ∧ k.pos = l.pos
  := by
  simp only [same, Bool.and_eq_true, beq_iff_eq, decide_eq_true_eq]
  constructor
  · rintro ⟨⟨⟨hpos, hrule⟩, hplace⟩, hg⟩
    use hg, hrule, hplace, hpos
  · rintro ⟨hg, hrule, hplace, hpos⟩
    use ⟨⟨hpos, hrule⟩, hplace⟩, hg

theorem same_refl (k : Key) :
  k.same k = true
  := same_iff.2 ⟨rfl, rfl, k.place.same_refl, rfl⟩

theorem same_symm (h : k.same l = true) :
  l.same k = true
  := by
  obtain ⟨hg, hrule, hplace, hpos⟩ := same_iff.1 h
  apply same_iff.2
  use hg.symm, hrule.symm, Place.same_symm hplace, hpos.symm

theorem same_trans (h : k.same l = true) (h' : l.same m = true) :
  k.same m = true
  := by
  obtain ⟨hg, hrule, hplace, hpos⟩ := same_iff.1 h
  obtain ⟨hg', hrule', hplace', hpos'⟩ := same_iff.1 h'
  apply same_iff.2
  use hg.trans hg', hrule.trans hrule', Place.same_trans hplace hplace', hpos.trans hpos'

/-- Keys are the same as others if those are that are the same as they. -/
theorem same_congr {k' l' : Key} (h : k.same k' = true) (h' : l.same l' = true) :
  k.same l = k'.same l'
  := by
  rw [Bool.eq_iff_iff]
  constructor
  · intro hkl
    apply same_trans (same_trans (same_symm h) hkl) h'
  · intro hkl
    apply same_trans (same_trans h hkl) (same_symm h')

/-- Of two lists of keys, one has a given key if the other one has a given other key, provided they
are the same as those at the same time. -/
theorem any_same_eq {R : Key → Key → Prop} {ks ls : List Key} (h : List.Forall₂ R ks ls)
    (hR : ∀ {k' l'}, R k' l' → k'.same k = l'.same l) :
  (ks.any fun k' => k'.same k) = ls.any fun l' => l'.same l
  := by
  induction h with
  | nil => rfl
  | cons hkl _ ih => rw [List.any_cons, List.any_cons, hR hkl, ih]

end Key

/-! ### Placed foci -/

variable {top : Value} {f f' : Focus} {g g' : Grammar} {rule rule' : String} {c : Comparison}

/-- A focus is placed in an object: its subject is a text, or what its path leads to. -/
def Focus.Placed (top : Value) (f : Focus) : Prop :=
  (∃ s, f.subject = .text s) ∨ top.Leads f.path f.subject

/-- A question about a focus that is placed in an object. -/
def Question.Placed (top : Value) (q : Question) : Prop :=
  q.focus.Placed top

namespace Focus

theorem placed_start (top : Value) (pos : Nat) (scope : Option Grammar) :
  (Focus.start top pos scope).Placed top
  := .inr .here

theorem Placed.inScope (h : f.Placed top) (g : Grammar) :
  (f.inScope g).Placed top
  := h

/-- The foci near a placed one are placed. -/
theorem Placed.near (h : f.Placed top) (hf : f.Near f') :
  f'.Placed top
  := by
  cases hf with
  | moved _ => apply h
  | literal hv =>
    have hleads := h.resolve_left (Value.not_text_of_fieldAt? hv)
    exact .inr (.literal hleads hv)
  | field hfs hm =>
    have hleads := h.resolve_left (Value.not_text_of_fields? hfs)
    exact .inr (.field hleads hfs hm)
  | key _ _ => exact .inl ⟨_, rfl⟩

end Focus

/-- A pattern at a placed focus asks only about placed foci. -/
theorem Pattern.Asks.placed {p : Pattern} {q : Question} (h : p.Asks f q) (hf : f.Placed top) :
  q.Placed top
  := by
  cases h with
  | part _ hnear => apply hf.near hnear
  | inline _ => apply hf.inScope
  | rule _ => apply hf
  | ruleRef _ => apply hf

/-! ### What a key tells -/

/-- Paths from an object are alike only if they agree in a comparison. -/
def Value.Tells (top : Value) (c : Comparison) : Prop :=
  ∀ {path path' : List Value} {v v' : Value}, top.Leads path v → top.Leads path' v' →
    listAgrees .alike path path' = true → listAgrees c path path' = true

theorem Value.tells_alike (top : Value) :
  top.Tells .alike
  := fun _ _ h => h

theorem Value.tells_identical (h : top.hasPlainKeys = true) :
  top.Tells .identical
  := by
  intro path path' v v' hv hv' hp
  rw [hv.path_eq_of_alike h hv' hp]
  apply listAgrees_refl

theorem Focus.place_text {s : String} (h : f.subject = .text s) :
  f.place = .text s
  := by
  simp only [place, h]

theorem Focus.place_object (h : ¬ ∃ s, f.subject = .text s) :
  f.place = .object f.path
  := by
  rw [place]
  split
  · next s hs => cases h ⟨s, hs⟩
  · rfl

theorem Focus.whereabouts_object (h : ¬ ∃ s, f.subject = .text s) :
  f.whereabouts = .tuple f.path
  := by
  rw [whereabouts]
  split
  · next s hs => cases h ⟨s, hs⟩
  · rfl

theorem Focus.spanned_object (h : ¬ ∃ s, f.subject = .text s) (stop : Nat) :
  f.spanned stop = f.subject
  := by
  rw [spanned]
  split
  · next s hs => cases h ⟨s, hs⟩
  · rfl

/-- Placed foci with the same key of a rule resemble each other in the grammar of the rule. -/
theorem Focus.Placed.resembles (htop : top.Tells c) (hf : f.Placed top) (hf' : f'.Placed top)
    (h : (f.key g rule).same (f'.key g' rule') = true) :
  g = g' ∧ rule = rule' ∧ (f.inScope g).Resembles c (f'.inScope g')
  := by
  obtain ⟨hg, hrule, hplace, hpos⟩ := Key.same_iff.1 h
  use hg, hrule
  simp only [Focus.key] at hg hplace hpos
  subst hg
  by_cases ht : ∃ s, f.subject = .text s
  · obtain ⟨s, hs⟩ := ht
    by_cases ht' : ∃ s, f'.subject = .text s
    · obtain ⟨s', hs'⟩ := ht'
      rw [Focus.place_text hs, Focus.place_text hs'] at hplace
      obtain rfl := beq_iff_eq.1 hplace
      use hs.trans hs'.symm, hpos, rfl, .inl ⟨s, hs⟩
    · rw [Focus.place_text hs, Focus.place_object ht'] at hplace
      cases hplace
  · by_cases ht' : ∃ s, f'.subject = .text s
    · obtain ⟨s', hs'⟩ := ht'
      rw [Focus.place_object ht, Focus.place_text hs'] at hplace
      cases hplace
    · rw [Focus.place_object ht, Focus.place_object ht'] at hplace
      have hleads := hf.resolve_left ht
      have hleads' := hf'.resolve_left ht'
      use hleads.eq_of_alike hleads' hplace, hpos, rfl
      right
      apply htop hleads hleads' hplace

/-- Foci that resemble each other have the same keys. -/
theorem Focus.Resembles.key_same (h : f.Resembles c f') (g : Grammar) (rule : String) :
  (f.key g rule).same (f'.key g rule) = true
  := by
  apply Key.same_iff.2
  refine ⟨rfl, rfl, ?_, h.pos⟩
  by_cases ht : ∃ s, f.subject = .text s
  · obtain ⟨s, hs⟩ := ht
    have hs' := h.subject.symm.trans hs
    simp only [Focus.key, Focus.place_text hs, Focus.place_text hs']
    apply Place.same_refl
  · have hpath := h.path.resolve_left ht
    simp only [Focus.key, Focus.place_object ht, Focus.place_object (h.subject ▸ ht)]
    rw [Value.listAgrees_iff] at hpath
    apply Value.listAgrees_iff.2
    apply hpath.imp
    exact fun _ _ hv => Value.alike_of_agrees hv

end Peg
