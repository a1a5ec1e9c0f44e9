import Peg.Proofs.Endings
import Peg.Proofs.Scoping

/-!
# Captured positions

A pattern that captures nothing but positions marks some of them on the way through a text.
`Pattern.Marks` says which ones: those of the patterns that the match goes through, one after the
other.  What is tried in vain, what must not match and what is only looked at mark nothing, and
neither does the match with which a greedy repetition ends.

The captures of a match are the marked positions.  They are in order, and lie between the start and
the end of the match, since every part of a match starts where the one before it has stopped.
-/

namespace Peg

namespace Pattern

/-- Whether a pattern itself captures something else than a position. -/
def capturesContent : Pattern → Bool
  | .span _ => true
  | .const _ => true
  | .collect _ => true
  | _ => false

/-- A match of a pattern in a text stops at a position, and marks some positions on the way. -/
inductive Marks : Pattern → Focus → Nat → List Nat → Prop where
  | test {p : Pattern} {f : Focus} {n : Nat} :
    p.Consumes f n → Marks p f (f.pos + n) []
  | sequence {p q : Pattern} {f : Focus} {j k : Nat} {is js : List Nat} :
    Marks p f j is → Marks q (f.moveTo j) k js → Marks (.sequence p q) f k (is ++ js)
  | first {p q : Pattern} {f : Focus} {j : Nat} {is : List Nat} :
    Marks p f j is → Marks (.choice p q) f j is
  | second {p q : Pattern} {f : Focus} {j : Nat} {is : List Nat} :
    p.Yields f none → Marks q f j is → Marks (.choice p q) f j is
  | counted {p : Pattern} {f : Focus} {n j k : Nat} {is js : List Nat} :
    Marks p f j is → Marks (.repetition p (.atLeast n)) (f.moveTo j) k js →
      Marks (.repetition p (.atLeast (n + 1))) f k (is ++ js)
  | exhausted {p : Pattern} {f : Focus} :
    p.Yields f none → Marks (.repetition p (.atLeast 0)) f f.pos []
  | idle {p : Pattern} {f : Focus} {s : Success} :
    p.Yields f (some s) → s.stop = f.pos → Marks (.repetition p (.atLeast 0)) f f.pos []
  | again {p : Pattern} {f : Focus} {j k : Nat} {is js : List Nat} :
    Marks p f j is → j ≠ f.pos → Marks (.repetition p (.atLeast 0)) (f.moveTo j) k js →
      Marks (.repetition p (.atLeast 0)) f k (is ++ js)
  | full {p : Pattern} {f : Focus} :
    Marks (.repetition p (.atMost 0)) f f.pos []
  | enough {p : Pattern} {f : Focus} {n : Nat} :
    p.Yields f none → Marks (.repetition p (.atMost (n + 1))) f f.pos []
  | further {p : Pattern} {f : Focus} {n j k : Nat} {is js : List Nat} :
    Marks p f j is → Marks (.repetition p (.atMost n)) (f.moveTo j) k js →
      Marks (.repetition p (.atMost (n + 1))) f k (is ++ js)
  | difference {p q : Pattern} {f : Focus} {j : Nat} {is : List Nat} :
    q.Yields f none → Marks p f j is → Marks (.difference p q) f j is
  | invert {p : Pattern} {f : Focus} :
    p.Yields f none → Marks (.invert p) f f.pos []
  | lookahead {p : Pattern} {f : Focus} {s : Success} :
    p.Yields f (some s) → Marks (.lookahead p) f f.pos []
  | ruleRef {name : String} {f : Focus} {g : Grammar} {body : Pattern} {j : Nat} {is : List Nat} :
    f.scope = some g → g.rule? name = some body → Marks body f j is → Marks (.ruleRef name) f j is
  | grammar {g : Grammar} {f : Focus} {root : Pattern} {j : Nat} {is : List Nat} :
    g.rootPattern? = some root → Marks root (f.inScope g) j is → Marks (.grammar g) f j is
  | position {f : Focus} :
    Marks .position f f.pos [f.pos]
  | group {p : Pattern} {name : String} {f : Focus} {j : Nat} {is : List Nat} :
    Marks p f j is → Marks (.group p name) f j is

/-! ### Marks are in order -/

/-- What is in order from one position to another, and from there to a third one, is in order. -/
theorem pairwise_le_append {i j k : Nat} {is js : List Nat}
    (h : (i :: is ++ [j]).Pairwise (· ≤ ·)) (h' : (j :: js ++ [k]).Pairwise (· ≤ ·)) :
  (i :: (is ++ js) ++ [k]).Pairwise (· ≤ ·)
  := by
  obtain ⟨hbefore, -, hle⟩ := List.pairwise_append.1 h
  obtain ⟨hge, hafter⟩ := List.pairwise_cons.1 h'
  have hsplit : i :: (is ++ js) ++ [k] = (i :: is) ++ (js ++ [k]) := by simp
  rw [hsplit]
  apply List.pairwise_append.2
  use hbefore, hafter
  exact fun a ha b hb => Nat.le_trans (hle a ha j List.mem_cons_self) (hge b hb)

/-- The marks of a match are in order, between where it starts and where it stops. -/
theorem Marks.pairwise {p : Pattern} {f : Focus} {j : Nat} {is : List Nat} (h : p.Marks f j is) :
  (f.pos :: is ++ [j]).Pairwise (· ≤ ·)
  := by
  induction h with
  | test | exhausted | idle | full | enough | invert | lookahead | position => simp
  | sequence _ _ ih ih' => apply pairwise_le_append ih ih'
  | counted _ _ ih ih' => apply pairwise_le_append ih ih'
  | again _ _ _ ih ih' => apply pairwise_le_append ih ih'
  | further _ _ ih ih' => apply pairwise_le_append ih ih'
  | first _ ih => apply ih
  | second _ _ ih => apply ih
  | difference _ _ ih => apply ih
  | ruleRef _ _ _ ih => apply ih
  | grammar _ _ ih => apply ih
  | group _ ih => apply ih

/-! ### Captures are marks -/

/-- The captures of a success are the positions that the pattern marks on the way to its stop. -/
def CapturesMarks (p : Pattern) (f : Focus) (t : Success) : Prop :=
  ∃ is, p.Marks f t.stop is ∧ t.captures.map Capture.value = is.map fun i => .int i

theorem map_value_append {cs cs' : List Capture} {is js : List Nat}
    (h : cs.map Capture.value = is.map fun i => .int i)
    (h' : cs'.map Capture.value = js.map fun i => .int i) :
  (cs ++ cs').map Capture.value = (is ++ js).map fun i => .int i
  := by
  rw [List.map_append, List.map_append, h, h']

/-- Two matches in a row capture what both of them mark. -/
theorem CapturesMarks.after {p q pq : Pattern} {f : Focus} {t u : Success}
    (h : p.CapturesMarks f t) (h' : q.CapturesMarks (f.moveTo t.stop) u)
    (hmarks : ∀ is js, p.Marks f t.stop is → q.Marks (f.moveTo t.stop) u.stop js →
      pq.Marks f u.stop (is ++ js)) :
  pq.CapturesMarks f (t.after u)
  := by
  obtain ⟨is, his, hcaptures⟩ := h
  obtain ⟨js, hjs, hcaptures'⟩ := h'
  exact ⟨is ++ js, hmarks is js his hjs, map_value_append hcaptures hcaptures'⟩

end Pattern

/-- Grouping captures changes none of their values. -/
theorem Capture.map_value_relabel (name : Option String) (cs : List Capture) :
  (Capture.relabel name cs).map Capture.value = cs.map Capture.value
  := by
  simp [Capture.relabel]

/-! ### What a match goes through -/

/-- A match goes through the patterns in use, and through what is left of their repetitions. -/
inductive Matcher.GoesThrough (m : Matcher) : Pattern → Option Grammar → Prop where
  | used {p : Pattern} {scope : Option Grammar} :
    m.Uses p scope → m.GoesThrough p scope
  | rest {p : Pattern} {bound : Bound} {scope : Option Grammar} :
    m.Uses p scope → m.GoesThrough (.repetition p bound) scope

namespace Matcher.GoesThrough

variable {m : Matcher} {p q : Pattern} {g : Grammar} {scope : Option Grammar}

theorem part (h : m.GoesThrough p scope) (hq : q ∈ p.parts) :
  m.GoesThrough q scope
  := by
  cases h with
  | used hp => exact .used (hp.part hq)
  | rest hp =>
    obtain rfl := List.mem_singleton.1 hq
    exact .used hp

theorem repetition {bound : Bound} (h : m.GoesThrough (.repetition p bound) scope)
    (bound' : Bound) :
  m.GoesThrough (.repetition p bound') scope
  := by
  cases h with
  | used hp => exact .rest (hp.part List.mem_cons_self)
  | rest hp => exact .rest hp

theorem body {name : String} (h : m.GoesThrough (.ruleRef name) (some g))
    (hbody : g.rule? name = some q) :
  m.GoesThrough q (some g)
  := by
  cases h with
  | used hp => exact .used (hp.rule hbody)

theorem root (h : m.GoesThrough (.grammar g) scope) (hroot : g.rootPattern? = some q) :
  m.GoesThrough q (some g)
  := by
  cases h with
  | used hp =>
    rw [Grammar.rootPattern?] at hroot
    split at hroot
    · next name hname => exact .used (hp.root hname hroot)
    · next hinline =>
      cases hroot
      exact .used (hp.inline hinline)

theorem capturesContent_eq (h : m.GoesThrough p scope)
    (hm : ∀ q scope, m.Uses q scope → q.capturesContent = false) :
  p.capturesContent = false
  := by
  cases h with
  | used hp => exact hm _ _ hp
  | rest _ => rfl

end Matcher.GoesThrough

namespace Pattern

variable {m : Matcher} {p q : Pattern} {f : Focus} {r : Outcome}

/-- A match that goes on as another one captures what that one does. -/
theorem CapturesMarks.imp {f' : Focus} {t : Success} (h : p.CapturesMarks f t)
    (hmarks : ∀ is, p.Marks f t.stop is → q.Marks f' t.stop is) :
  q.CapturesMarks f' t
  := by
  obtain ⟨is, his, hcaptures⟩ := h
  exact ⟨is, hmarks is his, hcaptures⟩

/-- In a match that captures nothing but positions, what is captured in a text is marked. -/
theorem Yields.capturesMarks (hm : ∀ q scope, m.Uses q scope → q.capturesContent = false)
    (h : p.Yields f r) (hp : m.GoesThrough p f.scope) (hf : ∃ s, f.subject = .text s) :
  ∀ t, r = some t → p.CapturesMarks f t
  := by
  induction h with
  | pass hn =>
    rintro _ ⟨⟩
    exact ⟨[], .test hn, rfl⟩
  | refuse | absent | fieldless | noField | broken | tooFew | excluded | invertFails
  | lookaheadFails => rintro _ ⟨⟩
  | present hfield => cases Value.not_text_of_fieldAt? hfield hf
  | firstField hfields => cases Value.not_text_of_fields? hfields hf
  | sequence _ _ ih ih' =>
    intro t ht
    obtain ⟨u, rfl, rfl⟩ := Option.map_eq_some_iff.1 ht
    have hleft := ih (hp.part (by simp [parts])) hf _ rfl
    have hright := ih' (hp.part (by simp [parts])) hf u rfl
    exact hleft.after hright fun _ _ => .sequence
  | first _ ih =>
    rintro t ⟨⟩
    exact (ih (hp.part (by simp [parts])) hf _ rfl).imp fun _ => .first
  | second hnone _ _ ih =>
    intro t ht
    exact (ih (hp.part (by simp [parts])) hf t ht).imp fun _ => .second hnone
  | counted _ _ ih ih' =>
    intro t ht
    obtain ⟨u, rfl, rfl⟩ := Option.map_eq_some_iff.1 ht
    have hfirst := ih (hp.part (by simp [parts])) hf _ rfl
    have hrest := ih' (hp.repetition _) hf u rfl
    exact hfirst.after hrest fun _ _ => .counted
  | exhausted hnone =>
    rintro t ⟨⟩
    exact ⟨[], .exhausted hnone, rfl⟩
  | idle hsome hstop =>
    rintro t ⟨⟩
    exact ⟨[], .idle hsome hstop, rfl⟩
  | again _ hstop _ ih ih' =>
    intro t ht
    obtain ⟨u, rfl, rfl⟩ := Option.map_eq_some_iff.1 ht
    have hfirst := ih (hp.part (by simp [parts])) hf _ rfl
    have hrest := ih' (hp.repetition _) hf u rfl
    exact hfirst.after hrest fun _ _ his hjs => .again his hstop hjs
  | full =>
    rintro t ⟨⟩
    exact ⟨[], .full, rfl⟩
  | enough hnone =>
    rintro t ⟨⟩
    exact ⟨[], .enough hnone, rfl⟩
  | further _ _ ih ih' =>
    intro t ht
    obtain ⟨u, rfl, rfl⟩ := Option.map_eq_some_iff.1 ht
    have hfirst := ih (hp.part (by simp [parts])) hf _ rfl
    have hrest := ih' (hp.repetition _) hf u rfl
    exact hfirst.after hrest fun _ _ => .further
  | difference hnone _ _ ih =>
    intro t ht
    exact (ih (hp.part (by simp [parts])) hf t ht).imp fun _ => .difference hnone
  | invert hnone =>
    rintro t ⟨⟩
    exact ⟨[], .invert hnone, rfl⟩
  | lookahead hsome =>
    rintro t ⟨⟩
    exact ⟨[], .lookahead hsome, rfl⟩
  | ruleRef hscope hbody _ ih =>
    intro t ht
    rw [hscope] at hp
    exact (ih (hscope ▸ hp.body hbody) hf t ht).imp fun _ => .ruleRef hscope hbody
  | grammar hroot _ ih =>
    intro t ht
    exact (ih (hp.root hroot) hf t ht).imp fun _ => .grammar hroot
  | span | const | collect =>
    cases hp.capturesContent_eq hm
  | @position f =>
    rintro t ⟨⟩
    obtain ⟨s, hs⟩ := hf
    refine ⟨[f.pos], .position, ?_⟩
    simp [Focus.capturing, Focus.whereabouts, hs]
  | group _ ih =>
    intro t ht
    obtain ⟨u, rfl, rfl⟩ := Option.map_eq_some_iff.1 ht
    obtain ⟨is, his, hcaptures⟩ := ih (hp.part (by simp [parts])) hf u rfl
    exact ⟨is, .group his, (Capture.map_value_relabel _ _).trans hcaptures⟩

/-- What is marked is captured by a match. -/
theorem Marks.exists_yields {j : Nat} {is : List Nat} (h : p.Marks f j is)
    (hf : ∃ s, f.subject = .text s) :
  ∃ cs, p.Yields f (some ⟨j, cs⟩) ∧ cs.map Capture.value = is.map fun i => .int i
  := by
  induction h with
  | test hn => exact ⟨[], .pass hn, rfl⟩
  | sequence _ _ ih ih' =>
    obtain ⟨cs, hp, hcs⟩ := ih hf
    obtain ⟨cs', hq, hcs'⟩ := ih' hf
    exact ⟨cs ++ cs', .sequence hp hq, map_value_append hcs hcs'⟩
  | first _ ih =>
    obtain ⟨cs, hp, hcs⟩ := ih hf
    exact ⟨cs, .first hp, hcs⟩
  | second hnone _ ih =>
    obtain ⟨cs, hp, hcs⟩ := ih hf
    exact ⟨cs, .second hnone hp, hcs⟩
  | counted _ _ ih ih' =>
    obtain ⟨cs, hp, hcs⟩ := ih hf
    obtain ⟨cs', hq, hcs'⟩ := ih' hf
    exact ⟨cs ++ cs', .counted hp hq, map_value_append hcs hcs'⟩
  | exhausted hnone => exact ⟨[], .exhausted hnone, rfl⟩
  | idle hsome hstop => exact ⟨[], .idle hsome hstop, rfl⟩
  | again _ hstop _ ih ih' =>
    obtain ⟨cs, hp, hcs⟩ := ih hf
    obtain ⟨cs', hq, hcs'⟩ := ih' hf
    exact ⟨cs ++ cs', .again hp hstop hq, map_value_append hcs hcs'⟩
  | full => exact ⟨[], .full, rfl⟩
  | enough hnone => exact ⟨[], .enough hnone, rfl⟩
  | further _ _ ih ih' =>
    obtain ⟨cs, hp, hcs⟩ := ih hf
    obtain ⟨cs', hq, hcs'⟩ := ih' hf
    exact ⟨cs ++ cs', .further hp hq, map_value_append hcs hcs'⟩
  | difference hnone _ ih =>
    obtain ⟨cs, hp, hcs⟩ := ih hf
    exact ⟨cs, .difference hnone hp, hcs⟩
  | invert hnone => exact ⟨[], .invert hnone, rfl⟩
  | lookahead hsome => exact ⟨[], .lookahead hsome, rfl⟩
  | ruleRef hscope hbody _ ih =>
    obtain ⟨cs, hp, hcs⟩ := ih hf
    exact ⟨cs, .ruleRef hscope hbody hp, hcs⟩
  | grammar hroot _ ih =>
    obtain ⟨cs, hp, hcs⟩ := ih hf
    exact ⟨cs, .grammar hroot hp, hcs⟩
  | @position f =>
    obtain ⟨s, hs⟩ := hf
    refine ⟨_, .position, ?_⟩
    simp [Focus.whereabouts, hs]
  | group _ ih =>
    obtain ⟨cs, hp, hcs⟩ := ih hf
    exact ⟨_, .group hp, (Capture.map_value_relabel _ _).trans hcs⟩

/-- There is only one way to mark positions. -/
theorem Marks.unique {j k : Nat} {is js : List Nat} (h : p.Marks f j is) (h' : p.Marks f k js)
    (hf : ∃ s, f.subject = .text s) :
  j = k ∧ is = js
  := by
  obtain ⟨cs, hcs, hvalues⟩ := h.exists_yields hf
  obtain ⟨cs', hcs', hvalues'⟩ := h'.exists_yields hf
  cases Pattern.settles_unique (yields_iff_settles.1 hcs) (yields_iff_settles.1 hcs')
  refine ⟨rfl, ?_⟩
  rw [hvalues] at hvalues'
  apply List.map_injective_iff.2 _ hvalues'
  rintro i i' ⟨⟩
  rfl

end Pattern

/-! ### Matches -/

/-- In a match that captures nothing but positions, the captures in a text are the positions marked
on the way, and no others.  They are in order, from where the match starts to where it stops. -/
theorem Matcher.marks_in_order (m : Matcher)
    (hm : ∀ p scope, m.Uses p scope → p.capturesContent = false) (s : String) (start n : Nat)
    {r : Success} (h : (m.runWithin n (.text s) start).outcome = .ok (some r)) :
  ∃ is, m.pattern.Marks (.start (.text s) start m.outer) r.stop is
    ∧ (∀ j js, m.pattern.Marks (.start (.text s) start m.outer) j js → j = r.stop ∧ js = is)
    ∧ r.captures.map Capture.value = is.map (fun i => .int i)
    ∧ (start :: is ++ [r.stop]).Pairwise (· ≤ ·)
  := by
  have hplain : (Value.text s).hasPlainKeys = true := rfl
  have hyields := Matcher.yields_of_outcome hplain h
  obtain ⟨is, his, hcaptures⟩ := hyields.capturesMarks hm (.used .start) ⟨s, rfl⟩ r rfl
  exact ⟨is, his, fun j js hjs => hjs.unique his ⟨s, rfl⟩, hcaptures, his.pairwise⟩

/-- The positions before and after an `x`, or else the one after another character. -/
def marked : Matcher where
  pattern := .sequence (.choice (.sequence .position (.literal "x")) (.anyChars 1))
    (.group .position "end")

/-- The patterns that the match uses. -/
def markedParts : List Pattern :=
  [marked.pattern, .choice (.sequence .position (.literal "x")) (.anyChars 1),
    .sequence .position (.literal "x"), .position, .literal "x", .anyChars 1,
    .group .position "end"]

theorem mem_markedParts {p : Pattern} {scope : Option Grammar} (h : marked.Uses p scope) :
  p ∈ markedParts
  := by
  have hclosed : ∀ p ∈ markedParts, ∀ q ∈ p.parts, q ∈ markedParts := by decide
  induction h with
  | start => exact List.mem_cons_self
  | part _ hq ih => exact hclosed _ ih _ hq
  | inline _ _ ih => simp [markedParts, marked] at ih
  | root _ _ _ ih => simp [markedParts, marked] at ih
  | rule _ _ ih => simp [markedParts, marked] at ih

/-- Nothing is left of the alternative that fails. -/
theorem Matcher.marks_in_order_marked :
  (∀ p scope, marked.Uses p scope → p.capturesContent = false)
    ∧ (marked.runWithin 5 (.text "ab") 0).outcome = .ok (some ⟨1, [⟨.int 1, some "end"⟩]⟩)
    ∧ ∃ is, marked.pattern.Marks (.start (.text "ab") 0 marked.outer) 1 is
      ∧ [Value.int 1] = is.map (fun i => .int i) ∧ (0 :: is ++ [1]).Pairwise (· ≤ ·)
  := by
  have hm : ∀ p scope, marked.Uses p scope → p.capturesContent = false := by
    have hparts : ∀ p ∈ markedParts, p.capturesContent = false := by decide
    exact fun p _ h => hparts p (mem_markedParts h)
  have houtcome : (marked.runWithin 5 (.text "ab") 0).outcome
      = .ok (some ⟨1, [⟨.int 1, some "end"⟩]⟩) := rfl
  obtain ⟨is, his, -, hcaptures, horder⟩ := marked.marks_in_order hm "ab" 0 5 houtcome
  exact ⟨hm, houtcome, is, his, hcaptures, horder⟩

end Peg
