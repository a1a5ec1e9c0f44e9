import Peg.Proofs.Nesting

/-!
# Whereabouts in an object

A match keeps the path of every object that it comes to.  The path leads back to the object:
`Value.follow` looks the keys up one after the other, from the outermost object on, and it finds the
object where the path was recorded.  So a captured path stands for one object, and so does the path
by which a rule application is known.
-/

namespace Peg

/-! ### Following a path -/

/-- What the keys of a path come to from a value, looked up one after the other. -/
def Value.follow (v : Value) (path : List Value) : Option Value :=
  path.foldlM fieldAt? v

theorem Value.follow_concat (v : Value) (path : List Value) (key : Value) :
  v.follow (path ++ [key]) = (v.follow path).bind fun w => w.fieldAt? key
  := by
  simp [follow, List.foldlM_append]

/-- A path that leads to a value can be followed there. -/
theorem Value.Leads.follow {top v : Value} {path : List Value} (h : top.Leads path v) :
  top.follow path = some v
  := by
  induction h with
  | here => rfl
  | literal _ hw ih => rw [follow_concat, ih, Option.bind_some, hw]
  | field _ hf hm ih => rw [follow_concat, ih, Option.bind_some, fieldAt?_of_mem hf hm]

namespace Focus

variable {top : Value} {f f' : Focus}

theorem Placed.follow (h : f.Placed top) (hobject : ¬ ∃ s, f.subject = .text s) :
  top.follow f.path = some f.subject
  := (h.resolve_left hobject).follow

/-- Placed foci on objects with the same path are on the same object. -/
theorem Placed.subject_eq (h : f.Placed top) (h' : f'.Placed top)
    (hobject : ¬ ∃ s, f.subject = .text s) (hobject' : ¬ ∃ s, f'.subject = .text s)
    (hpath : Value.listAgrees .alike f.path f'.path = true) :
  f.subject = f'.subject
  := (h.resolve_left hobject).eq_of_alike (h'.resolve_left hobject') hpath

theorem placed_hereditary (top : Value) :
  Hereditary fun _ f => f.Placed top
  := by
  constructor
  · exact fun hf hq => hq.placed hf
  · intro p body g rule f f' hf hq _
    have hplaced : f'.Placed top := hq.placed hf
    apply hplaced.inScope

end Focus

/-! ### Rule applications in a match -/

/-- An evaluation applies a rule at a focus while its plan is carried out, whether the outcome is
recalled then, or the body of the rule is evaluated, or the match is stopped. -/
inductive Evaluation.Applies (o : Options) : Evaluation → Grammar → String → Focus → Prop where
  | of {n depth : Nat} {p : Pattern} {g : Grammar} {rule : String} {f f' : Focus}
      {st st' : Progress} :
    Pattern.brokenCeiling? o (st.steps + 1) depth = none →
    (p.plan f).Poses (Question.answer o (Pattern.eval o n (depth + 1))) (st.enter f depth)
      (.apply g rule f') st' →
    Applies o ⟨n + 1, depth, p, f, st⟩ g rule f'

theorem Evaluation.Applies.placed {o : Options} {e : Evaluation} {g : Grammar} {rule : String}
    {f : Focus} {top : Value} (h : e.Applies o g rule f) (hplaced : e.focus.Placed top)
    (hst : e.progress.Acceptable) :
  f.Placed top
  := by
  cases h with
  | of _ hposes =>
    obtain ⟨hasks, -⟩ := asks_of_poses hst hposes
    apply hasks.placed hplaced

/-- The capture of a position at an object holds the path of the object. -/
theorem Evaluation.captures_path {o : Options} {e : Evaluation} {r : Outcome} {st : Progress}
    (hposition : e.pattern = .position) (hobject : ¬ ∃ s, e.focus.subject = .text s)
    (h : e.result o = .ok r st) :
  r = some ⟨e.focus.pos, [⟨.tuple e.focus.path, none⟩]⟩
  := by
  obtain ⟨n, depth, p, f, st₀⟩ := e
  obtain rfl : p = .position := hposition
  cases n with
  | zero => cases h
  | succ n =>
    rw [result, Pattern.eval_succ] at h
    split at h
    · cases h
    · cases h
      rw [Focus.capturing, f.whereabouts_object hobject]

/-! ### Matches -/

/-- Every path in a match leads back to the object where it is recorded.  Each evaluation at an
object has a path that can be followed to that object from the subject of the match, and a position
that it captures is such a path.  Rule applications at objects with the same path are at the same
object. -/
theorem Matcher.paths_lead_back (m : Matcher) (nesting : Nat) (subject : Value) (pos : Nat) :
  (∀ v ∈ (m.runWithin nesting subject pos).progress.visits,
      (¬ ∃ s, v.focus.subject = .text s) → subject.follow v.focus.path = some v.focus.subject)
    ∧ (∀ e, (m.evaluation nesting subject pos).Nests m.options e →
      (¬ ∃ s, e.focus.subject = .text s) →
      subject.follow e.focus.path = some e.focus.subject
        ∧ (e.pattern = .position → ∀ r st, e.result m.options = .ok r st →
          ∃ path, r = some ⟨e.focus.pos, [⟨.tuple path, none⟩]⟩
            ∧ subject.follow path = some e.focus.subject))
    ∧ ∀ e e' g g' rule rule' f f', (m.evaluation nesting subject pos).Nests m.options e →
      (m.evaluation nesting subject pos).Nests m.options e' →
      e.Applies m.options g rule f → e'.Applies m.options g' rule' f' →
      (¬ ∃ s, f.subject = .text s) → (¬ ∃ s, f'.subject = .text s) →
      Value.listAgrees .alike f.path f'.path = true → f.subject = f'.subject
  := by
  have hplaced : ∀ e, (m.evaluation nesting subject pos).Nests m.options e →
      e.focus.Placed subject ∧ e.progress.Acceptable := by
    intro e he
    apply nests_hereditary (Focus.placed_hereditary subject) _ he
    apply Focus.placed_start
  refine ⟨?_, ?_, ?_⟩
  · intro v hv hobject
    obtain ⟨e, he, rfl⟩ := exists_nested_of_mem_visits hv
    exact (hplaced e he).1.follow hobject
  · intro e he hobject
    have hfollow := (hplaced e he).1.follow hobject
    use hfollow
    intro hposition r st hr
    use e.focus.path, Evaluation.captures_path hposition hobject hr
  · intro e e' g g' rule rule' f f' he he' happ happ' hobject hobject' hpath
    have hf := happ.placed (hplaced e he).1 (hplaced e he).2
    have hf' := happ'.placed (hplaced e' he').1 (hplaced e' he').2
    apply hf.subject_eq hf' hobject hobject' hpath

/-- The path of a field that is looked up and then scanned for. -/
def placedTwice : Matcher where
  pattern := .sequence (.field (.literal (.int 1)) .position)
    (.field (.pattern (.truth true)) .position)

/-- The key `true` is looked up as the number one.  Both paths lead to the list. -/
theorem Matcher.paths_lead_back_placedTwice :
  (placedTwice.runWithin 5 (.dict [(.bool true, .list [])]) 0).outcome
      = .ok (some ⟨0, [⟨.tuple [.int 1], none⟩, ⟨.tuple [.bool true], none⟩]⟩)
    ∧ (Value.dict [(.bool true, .list [])]).follow [.int 1] = some (.list [])
    ∧ (Value.dict [(.bool true, .list [])]).follow [.bool true] = some (.list [])
  := by
  obtain ⟨hvisits, -⟩ := placedTwice.paths_lead_back 5 (.dict [(.bool true, .list [])]) 0
  have hobject : ¬ ∃ s, Value.list [] = .text s := by simp [Value.text]
  refine ⟨rfl, ?_, ?_⟩
  · exact hvisits _ (List.mem_of_getElem? (i := 2) rfl) hobject
  · exact hvisits _ (List.mem_of_getElem? (i := 5) rfl) hobject

end Peg
