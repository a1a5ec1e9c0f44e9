import Peg.Proofs.Exchange

/-!
# Primitive patterns

A primitive pattern asks nothing: what it comes to can be read off the focus.  Sequences, choices
and inversions of such patterns are known as well, by `Pattern.Computes`, and so it can be computed
that primitives are made of smaller ones.  So many characters are some of them and then the rest,
and a text is its first part and then the other one.  Fewer characters than a number remain exactly
where so many cannot be matched.

A class of characters has those members that are listed, or that lie in one of the ranges listed.
So a class that is listed in two parts is the choice of the two.
-/

namespace Peg

variable {f : Focus} {p q : Pattern} {x y : Focus → Outcome} {subject : Value}

/-- A list starts with two lists in a row when it starts with the first one and goes on with the
second one. -/
theorem append_prefix_iff {α : Type} {xs ys zs : List α} :
  xs ++ ys <+: zs ↔ xs <+: zs ∧ ys <+: zs.drop xs.length
  := by
  constructor
  · rintro ⟨rest, rfl⟩
    rw [List.append_assoc, List.drop_left]
    exact ⟨List.prefix_append _ _, List.prefix_append _ _⟩
  · rintro ⟨⟨rest, rfl⟩, hys⟩
    rw [List.drop_left] at hys
    apply (List.prefix_append_right_inj xs).2 hys

/-! ### Matching characters -/

namespace Focus

/-- Two matches in a row, of which the second one starts where the first one has stopped. -/
def inRow (x y : Focus → Outcome) (f : Focus) : Outcome :=
  (x f).bind fun r => (y (f.moveTo r.stop)).map r.after

section Object

variable (hf : ¬ ∃ s, f.subject = .text s)

include hf

theorem matchText_object (t : String) :
  f.matchText t = none
  := by
  rw [matchText]
  split
  · next s hs => cases hf ⟨s, hs⟩
  · rfl

theorem matchCount_object (n : Nat) :
  f.matchCount n = none
  := by
  rw [matchCount]
  split
  · next s hs => cases hf ⟨s, hs⟩
  · rfl

theorem matchFewer_object (n : Nat) :
  f.matchFewer n = none
  := by
  rw [matchFewer]
  split
  · next s hs => cases hf ⟨s, hs⟩
  · rfl

theorem matchClass_object (member : Char → Bool) :
  f.matchClass member = none
  := matchClass_eq_none fun s _ hs => absurd ⟨s, hs⟩ hf

end Object

theorem matchCount_add (k n : Nat) (f : Focus) :
  f.matchCount (k + n) = f.inRow (matchCount · k) (matchCount · n)
  := by
  by_cases hf : ∃ s, f.subject = .text s
  · obtain ⟨s, hs⟩ := hf
    simp only [inRow, matchCount, moveTo, hs]
    by_cases hk : f.pos + k ≤ s.length
    · simp [hk, ← Nat.add_assoc, apply_ite (Option.map _), Success.after]
    · rw [if_neg hk, if_neg (by omega)]
      rfl
  · rw [inRow, matchCount_object hf, matchCount_object hf]
    rfl

theorem matchText_append (t u : String) (f : Focus) :
  f.matchText (t ++ u) = f.inRow (matchText · t) (matchText · u)
  := by
  by_cases hf : ∃ s, f.subject = .text s
  · obtain ⟨s, hs⟩ := hf
    simp only [inRow, matchText, moveTo, hs, List.isPrefixOf_iff_prefix, String.toList_append,
      append_prefix_iff, List.drop_drop, String.length_toList, String.length_append]
    by_cases ht : t.toList <+: s.toList.drop f.pos
    · simp [ht, Nat.add_assoc, apply_ite (Option.map _), Success.after]
    · simp [ht]
  · rw [inRow, matchText_object hf, matchText_object hf]
    rfl

/-- The members of a class that is listed in two parts are those of the parts. -/
theorem matchClass_or (first second : Char → Bool) (f : Focus) :
  f.matchClass (fun c => first c || second c) = (f.matchClass first).or (f.matchClass second)
  := by
  by_cases hf : ∃ s, f.subject = .text s
  · obtain ⟨s, hs⟩ := hf
    simp only [matchClass, hs]
    cases s.toList[f.pos]? with
    | none => rfl
    | some c => cases hc : first c <;> simp [hc]
  · simp only [matchClass_object hf, Option.or_none]

/-- Fewer characters remain than a number exactly where so many cannot be matched. -/
theorem matchFewer_of_text {s : String} (hs : f.subject = .text s) (n : Nat) :
  f.matchFewer n = if (f.matchCount n).isSome then none else some f.stay
  := by
  simp only [matchFewer, matchCount, hs]
  by_cases hn : f.pos + n ≤ s.length
  · rw [if_neg (by omega), if_pos hn]
    rfl
  · rw [if_pos (by omega), if_neg hn]
    rfl

end Focus

/-! ### Patterns that ask nothing -/

namespace Pattern

/-- What a pattern comes to is known from the focus alone, and the view is left as it is. -/
def Computes (p : Pattern) (x : Focus → Outcome) : Prop :=
  ∀ (m : Bool) (f : Focus) (s : View m) (v : Except Fault (Outcome × View m)),
    p.ComesTo f s v ↔ v = .ok (x f, s)

namespace Computes

theorem of_plan (h : ∀ f, p.plan f = .done (x f)) :
  p.Computes x
  := by
  intro m f s v
  rw [ComesTo, h]
  apply Plan.comesTo_done_iff

theorem literal (t : String) :
  (literal t).Computes (Focus.matchText · t)
  := of_plan fun _ => rfl

theorem anyChars (n : Nat) :
  (anyChars n).Computes (Focus.matchCount · n)
  := of_plan fun _ => rfl

theorem fewerThan (n : Nat) :
  (fewerThan n).Computes (Focus.matchFewer · n)
  := of_plan fun _ => rfl

theorem charSet (s : CharSet) :
  (charSet s).Computes (Focus.matchClass · s.contains)
  := of_plan fun _ => rfl

theorem charRange (rs : List (Char × Char)) :
  (charRange rs).Computes (Focus.matchClass · (inRanges rs))
  := of_plan fun _ => rfl

theorem sequence (hp : p.Computes x) (hq : q.Computes y) :
  (sequence p q).Computes (Focus.inRow x y)
  := by
  intro m f s v
  simp only [comesTo_sequence_iff, hp m f s, hq m _ _, Focus.inRow]
  cases x f <;> simp [Except.map]

theorem choice (hp : p.Computes x) (hq : q.Computes y) :
  (choice p q).Computes fun f => (x f).or (y f)
  := by
  intro m f s v
  simp only [comesTo_choice_iff, hp m f s, hq m f _]
  cases x f <;> simp

theorem invert (hp : p.Computes x) :
  (invert p).Computes fun f => if (x f).isSome then none else some f.stay
  := by
  intro m f s v
  simp only [comesTo_invert_iff, hp m f s]
  cases x f <;> simp

/-- Patterns end alike on a subject when the same is computed for them there. -/
theorem endsLikeOn (hp : p.Computes x) (hq : q.Computes y)
    (h : ∀ f : Focus, f.subject = subject → x f = y f) :
  EndsLikeOn subject p q
  := by
  apply endsLikeOn_of_comesTo
  intro m f s v hf hv
  rw [hq, ← h f hf, ← hp]
  apply hv

/-- A match of a pattern ends with what is computed for it. -/
theorem endsWith (hp : p.Computes x) {o : Options} (hsteps : o.maxSteps = none)
    (hdepth : o.maxDepth = none) (outer : Option Grammar) (subject : Value) (pos : Nat) :
  Matcher.EndsWith ⟨p, outer, o⟩ subject pos (.ok (x (.start subject pos outer)))
  := Matcher.endsWith_of_comesTo (m := ⟨p, outer, o⟩) hsteps hdepth ((hp _ _ _ _).2 rfl)

end Computes

/-- All matches of a pattern on subjects that are no texts fail. -/
def FailsOnObjects (p : Pattern) : Prop :=
  ∀ subject, (¬ ∃ s, subject = .text s) → ∀ (pos : Nat) (outer : Option Grammar) (o : Options),
    o.maxSteps = none → o.maxDepth = none → Matcher.EndsWith ⟨p, outer, o⟩ subject pos (.ok none)

/-- Two patterns that can be exchanged, and that fail on subjects that are no texts. -/
structure TextInterchangeable (p q : Pattern) : Prop where
  interchangeable : Interchangeable p q
  left : p.FailsOnObjects
  right : q.FailsOnObjects

theorem Computes.failsOnObjects (hp : p.Computes x)
    (h : ∀ f : Focus, (¬ ∃ s, f.subject = .text s) → x f = none) :
  p.FailsOnObjects
  := by
  intro subject hsubject pos outer o hsteps hdepth
  have hends := hp.endsWith hsteps hdepth outer subject pos
  rwa [h _ hsubject] at hends

theorem Computes.textInterchangeable (hp : p.Computes x) (hq : q.Computes y)
    (h : ∀ f, x f = y f) (hfails : ∀ f : Focus, (¬ ∃ s, f.subject = .text s) → x f = none) :
  TextInterchangeable p q
  where
  interchangeable _ := hp.endsLikeOn hq fun f _ => h f
  left := hp.failsOnObjects hfails
  right := hq.failsOnObjects fun f hf => (h f).symm.trans (hfails f hf)

/-! ### Primitives made of smaller ones -/

theorem anyChars_add (k n : Nat) :
  TextInterchangeable (anyChars (k + n)) (sequence (anyChars k) (anyChars n))
  := (Computes.anyChars _).textInterchangeable ((Computes.anyChars k).sequence (.anyChars n))
    (Focus.matchCount_add k n) fun _ hf => Focus.matchCount_object hf _

theorem literal_append (t u : String) :
  TextInterchangeable (literal (t ++ u)) (sequence (literal t) (literal u))
  := (Computes.literal _).textInterchangeable ((Computes.literal t).sequence (.literal u))
    (Focus.matchText_append t u) fun _ hf => Focus.matchText_object hf _

theorem charSet_append (cs ds : List Char) :
  TextInterchangeable (charSet (.ofList (cs ++ ds)))
    (choice (charSet (.ofList cs)) (charSet (.ofList ds)))
  := by
  apply (Computes.charSet _).textInterchangeable ((Computes.charSet _).choice (.charSet _))
  · intro f
    rw [← Focus.matchClass_or]
    congr 1
    funext c
    simp [List.contains_eq_mem]
  · exact fun _ hf => Focus.matchClass_object hf _

theorem charRange_append (rs rs' : List (Char × Char)) :
  TextInterchangeable (charRange (rs ++ rs')) (choice (charRange rs) (charRange rs'))
  := by
  apply (Computes.charRange _).textInterchangeable ((Computes.charRange _).choice (.charRange _))
  · intro f
    rw [← Focus.matchClass_or]
    congr 1
    funext c
    simp [inRanges]
  · exact fun _ hf => Focus.matchClass_object hf _

/-- Fewer characters than a number remain in a text where so many cannot be matched.  On any other
subject neither can be said, and the inversion succeeds. -/
theorem fewerThan_endsLikeOn_iff (n : Nat) (subject : Value) :
  EndsLikeOn subject (fewerThan n) (invert (anyChars n)) ↔ ∃ s, subject = .text s
  := by
  have hfewer := Computes.fewerThan n
  have hinvert := (Computes.anyChars n).invert
  constructor
  · intro h
    by_contra hsubject
    obtain ⟨v, hv, hv'⟩ := h 0 none {} rfl rfl
    obtain rfl := hv.unique (hfewer.endsWith rfl rfl none subject 0)
    have heq := hv'.unique (hinvert.endsWith rfl rfl none subject 0)
    have hobject : ¬ ∃ s, (Focus.start subject 0 none).subject = .text s := hsubject
    rw [Focus.matchFewer_object hobject, Focus.matchCount_object hobject] at heq
    cases heq
  · rintro ⟨s, rfl⟩
    apply hfewer.endsLikeOn hinvert
    exact fun f hf => Focus.matchFewer_of_text hf n

end Pattern

/-! ### Constructions -/

/-- A range of characters: its two ends in order. -/
structure CharRange where
  first : Char
  last : Char
  ordered : first.toNat ≤ last.toNat

namespace CharRange

/-- The text that gives a range. -/
def text (r : CharRange) : Value :=
  .text (String.ofList [r.first, r.last])

/-- The ends of a range. -/
def ends (r : CharRange) : Char × Char :=
  (r.first, r.last)

theorem range_text (r : CharRange) :
  Pattern.range r.text = pure r.ends
  := by
  simp [Pattern.range, text, ends, r.ordered]

theorem mapM_range_text (rs : List CharRange) :
  (rs.map text).mapM Pattern.range = pure (rs.map ends)
  := by
  induction rs with
  | nil => rfl
  | cons r rs ih => rw [List.map_cons, List.mapM_cons, range_text, ih, pure_bind, pure_bind,
      List.map_cons]

end CharRange

namespace Constructor

/-- Ranges make the class of all of them. -/
theorem range_apply (r : CharRange) (rs : List CharRange) (i : Nat) :
  range.apply ((r :: rs).map CharRange.text) i
    = .ok (.pattern (.charRange ((r :: rs).map CharRange.ends))) i
  := by
  have htexts : Pattern.rangeTexts ((r :: rs).map CharRange.text)
      = (r :: rs).map CharRange.text := by
    cases rs <;> rfl
  have hranges := CharRange.mapM_range_text (r :: rs)
  rw [List.map_cons] at htexts hranges
  simp only [apply, asValue, Pattern.ofRanges, List.map_cons, htexts, hranges, pure_bind]
  rfl

/-- Primitive patterns are made of smaller ones.  A number of characters may be matched in two
parts, and so may a text.  A set of characters may be listed in two parts, and so may ranges, with
the choice between them.  All these fail on subjects that are no texts.  That fewer characters than
a number remain is that so many cannot be matched; this is so on texts only. -/
theorem primitives_decompose (k n : Nat) (t u : String) (r r' : CharRange)
    (rs rs' : List CharRange) :
  Build.Pairs [] Pattern.TextInterchangeable
      (pattern.apply [.int (k + n : Nat)])
      (do
        let a ← pattern.apply [.int k]
        let b ← pattern.apply [.int n]
        sequence.apply [a, b])
    ∧ Build.Pairs [] Pattern.TextInterchangeable
      (pattern.apply [.text (t ++ u)])
      (do
        let a ← pattern.apply [.text t]
        let b ← pattern.apply [.text u]
        sequence.apply [a, b])
    ∧ Build.Pairs []
      (fun p q => ∀ subject, Pattern.EndsLikeOn subject p q ↔ ∃ s, subject = .text s)
      (pattern.apply [.int (-(n + 1 : Nat))])
      (do
        let a ← pattern.apply [.int (n + 1 : Nat)]
        invert.apply [a])
    ∧ Build.Pairs [] Pattern.TextInterchangeable
      (set.apply [.text (t ++ u)])
      (do
        let a ← set.apply [.text t]
        let b ← set.apply [.text u]
        choice.apply [a, b])
    ∧ Build.Pairs [] Pattern.TextInterchangeable
      (range.apply ((r :: rs).map CharRange.text ++ (r' :: rs').map CharRange.text))
      (do
        let a ← range.apply ((r :: rs).map CharRange.text)
        let b ← range.apply ((r' :: rs').map CharRange.text)
        choice.apply [a, b])
  := by
  refine ⟨?_, ?_, ?_, ?_, ?_⟩
  · exact fun _ => ⟨_, _, rfl, rfl, Pattern.anyChars_add k n⟩
  · exact fun _ => ⟨_, _, rfl, rfl, Pattern.literal_append t u⟩
  · exact fun _ => ⟨_, _, rfl, rfl, Pattern.fewerThan_endsLikeOn_iff (n + 1)⟩
  · refine fun _ => ⟨_, _, rfl, rfl, ?_⟩
    rw [String.toList_append]
    apply Pattern.charSet_append
  · intro i
    have hall := range_apply r (rs ++ r' :: rs') i
    rw [← List.cons_append, List.map_append, List.map_append] at hall
    refine ⟨_, _, hall, ?_, Pattern.charRange_append _ _⟩
    simp only [Bind.bind, EStateM.bind, range_apply]
    rfl

end Constructor

end Peg
