import Mathlib.Data.List.Nodup
import Mathlib.Logic.Function.Iterate
import Peg.Proofs.Preorder

/-!
# Reading objects in rounds

`Objects.walk` reads objects off a stack.  Here the reading is taken apart into rounds, of which
each takes one object off the stack: `Reading` is what there is between two rounds.  The rounds come
to an end, whatever the objects, for the patterns on the stack get fewer nodes in each of them.

Objects are passed over only if they occur more than once.  `Objects.nodes` lists all objects in an
object as often as they occur there, and when these are distinct then the names that are found are
all those of `Pattern.preorder`.
-/

namespace Peg

/-- How far the reading of objects has come. -/
structure Reading (ι : Type) where
  /-- The objects that have been read. -/
  seen : List ι
  /-- The objects still to be read, the next one first. -/
  stack : List ι
  /-- The names found by now, in order. -/
  names : List String

/-- The reading of an object before the first round. -/
def Reading.start {ι : Type} (i : ι) : Reading ι :=
  ⟨[], [i], []⟩

namespace Objects

variable {ι : Type} (objects : Objects ι) {i j : ι} {seen stack : List ι} {r : Reading ι}

/-! ### Rounds -/

theorem totalSize_singleton (i : ι) :
  objects.totalSize [i] = (objects.pattern i).size
  := by
  simp [totalSize, Pattern.totalSize]

/-- One round: the next object is taken off the stack.  Unless it has been seen its parts take its
place, and if it is a reference then its name is found. -/
def round [DecidableEq ι] : Reading ι → Reading ι
  | ⟨seen, [], names⟩ => ⟨seen, [], names⟩
  | ⟨seen, i :: stack, names⟩ =>
    if i ∈ seen then ⟨seen, stack, names⟩
    else
      match objects.pattern i with
      | .ruleRef name => ⟨i :: seen, stack, names ++ [name]⟩
      | _ => ⟨i :: seen, objects.parts i ++ stack, names⟩

/-- A reading ends within some rounds, with all names found. -/
def Finds [DecidableEq ι] (rounds : Nat) (r : Reading ι) (names : List String) : Prop :=
  ∃ n ≤ rounds, ∃ seen, objects.round^[n] r = ⟨seen, [], names⟩

variable {objects}

theorem Finds.of_round [DecidableEq ι] {k m : Nat} {names : List String}
    (h : objects.Finds k (objects.round r) names) (hk : k < m) :
  objects.Finds m r names
  := by
  obtain ⟨n, hn, seen, hrounds⟩ := h
  use n + 1, by omega, seen
  rw [Function.iterate_succ_apply, hrounds]

/-- Every reading ends, within as many rounds as there are nodes on the stack. -/
theorem finds_walkFrom [DecidableEq ι] (seen stack : List ι) (names : List String) :
  objects.Finds (objects.totalSize stack) ⟨seen, stack, names⟩
    (names ++ objects.walkFrom seen stack)
  := by
  fun_induction walkFrom objects seen stack generalizing names with
  | case1 seen =>
    use 0, Nat.zero_le _, seen
    rw [List.append_nil]
    rfl
  | case2 seen i stack hi ih =>
    apply Finds.of_round _ (objects.totalSize_tail_lt i stack)
    rw [round, if_pos hi]
    apply ih
  | case3 seen i stack hi name hpattern ih =>
    apply Finds.of_round _ (objects.totalSize_tail_lt i stack)
    rw [round, if_neg hi, hpattern, List.append_cons]
    apply ih
  | case4 seen i stack hi hpattern ih =>
    apply Finds.of_round _ (objects.totalSize_parts_lt i stack)
    rw [round, if_neg hi]
    split
    · next name h => cases hpattern name h
    · apply ih

variable (objects)

/-! ### Objects that occur once -/

/-- All objects in an object, itself included, as often as they occur. -/
def nodes (i : ι) : List ι :=
  i :: (objects.parts i).attach.flatMap fun j => nodes j.1
termination_by (objects.pattern i).size
decreasing_by exact objects.size_lt_of_mem_parts j.2

theorem nodes_eq (i : ι) :
  objects.nodes i = i :: (objects.parts i).flatMap objects.nodes
  := by
  rw [nodes, List.flatMap_subtype (fun _ _ => rfl), List.unattach_attach]

/-- All objects in those of a stack. -/
def nodesIn (stack : List ι) : List ι :=
  stack.flatMap objects.nodes

theorem nodesIn_cons (i : ι) (stack : List ι) :
  objects.nodesIn (i :: stack) = i :: objects.nodesIn (objects.parts i ++ stack)
  := by
  rw [nodesIn, nodesIn, List.flatMap_cons, nodes_eq, List.flatMap_append]
  rfl

theorem parts_eq_nil {name : String} (h : objects.pattern i = .ruleRef name) :
  objects.parts i = []
  := by
  have hparts := objects.map_parts i
  rw [h] at hparts
  apply List.map_eq_nil_iff.1 hparts

/-- No object on a stack will be passed over: those in it are distinct, and none has been seen. -/
structure Unshared (seen stack : List ι) : Prop where
  nodup : (objects.nodesIn stack).Nodup
  disjoint : ∀ j ∈ seen, j ∉ objects.nodesIn stack

variable {objects}

theorem Unshared.not_mem (h : objects.Unshared seen (i :: stack)) :
  i ∉ seen
  := by
  intro hi
  apply h.disjoint i hi
  rw [nodesIn_cons]
  apply List.mem_cons_self

/-- After an object is read its parts are not passed over either. -/
theorem Unshared.parts (h : objects.Unshared seen (i :: stack)) :
  objects.Unshared (i :: seen) (objects.parts i ++ stack)
  := by
  obtain ⟨hnodup, hdisjoint⟩ := h
  rw [nodesIn_cons] at hnodup hdisjoint
  obtain ⟨hi, hnodup⟩ := List.nodup_cons.1 hnodup
  use hnodup
  intro j hj
  rcases List.mem_cons.1 hj with rfl | hj
  · exact hi
  · exact fun hmem => hdisjoint j hj (List.mem_cons_of_mem i hmem)

/-- When no object is passed over, then all names are found. -/
theorem Unshared.walkFrom_eq [DecidableEq ι] (h : objects.Unshared seen stack) :
  objects.walkFrom seen stack = objects.pending stack
  := by
  fun_induction walkFrom objects seen stack with
  | case1 => rfl
  | case2 seen i stack hi => cases h.not_mem hi
  | case3 seen i stack hi name hpattern ih =>
    have hparts := h.parts
    rw [objects.parts_eq_nil hpattern, List.nil_append] at hparts
    rw [ih hparts, pending, pending, List.flatMap_cons, hpattern, Pattern.preorder,
      List.singleton_append]
  | case4 seen i stack hi hpattern ih => rw [ih h.parts, pending_cons objects hpattern]

/-- The reading of an object in which no object occurs twice ends, and it finds the names of its
pattern in pre-order, each as often as it is there.  So does the reading of the pattern itself. -/
theorem walk_of_nodup [DecidableEq ι] (objects : Objects ι) (i : ι)
    (h : (objects.nodes i).Nodup) :
  objects.Finds (objects.pattern i).size (.start i) (objects.pattern i).preorder
    ∧ objects.walk i = (objects.pattern i).preorder
    ∧ (objects.pattern i).references = (objects.pattern i).preorder
  := by
  have hunshared : objects.Unshared [] [i] := by
    constructor
    · rwa [nodesIn, List.flatMap_singleton]
    · simp
  have hwalk : objects.walk i = (objects.pattern i).preorder := by
    rw [walk, hunshared.walkFrom_eq, pending, List.flatMap_singleton]
  refine ⟨?_, hwalk, Pattern.references_eq_preorder _⟩
  have hfinds := objects.finds_walkFrom [] [i] []
  rwa [totalSize_singleton, List.nil_append, ← walk, hwalk] at hfinds

/-- A sequence of two references to one rule, with an object for each of them. -/
def referringTwice : Objects (Fin 3) where
  pattern i := if i = 0 then .sequence (.ruleRef "a") (.ruleRef "a") else .ruleRef "a"
  parts i := if i = 0 then [1, 2] else []
  map_parts := by decide

/-- Both references are found.  Only one is if they are the same object. -/
theorem walk_of_nodup_referringTwice :
  (referringTwice.nodes 0).Nodup
    ∧ referringTwice.Finds 3 (.start 0) ["a", "a"]
    ∧ referringTwice.walk 0 = ["a", "a"]
    ∧ ofPatterns.walk (referringTwice.pattern 0) = ["a"]
  := by
  have hnodup : (referringTwice.nodes 0).Nodup := by
    have hnodes : referringTwice.nodes 0 = [0, 1, 2] := by simp [nodes_eq, referringTwice]
    rw [hnodes]
    decide
  obtain ⟨hfinds, hwalk, -⟩ := referringTwice.walk_of_nodup 0 hnodup
  refine ⟨hnodup, hfinds, hwalk, ?_⟩
  simp [walk, walkFrom, ofPatterns, referringTwice, Pattern.parts]

end Objects

end Peg
