import Peg.Proofs.Reach

/-!
# References in pre-order

The rules that a pattern refers to are read with a list of parts still to be read.  They are the
same as `Pattern.preorder` gives by recursion on the pattern: first those of the first part and then
those of the second one.

Patterns can be built from objects that are shared, so that one object is a part of several others,
or of one twice.  `Objects.walk` reads every object once, and passes over those it has seen.  So it
finds every name that `Pattern.preorder` has, if only once for each object, and it finds the first
name with a property where that is: all that is passed over has been read before, or else it is
still to be read, nearer to the top of the stack.
-/

namespace Peg

mutual

/-- The names of the rules that a pattern refers to outside nested grammars, by recursion. -/
def Pattern.preorder : Pattern → List String
  | .ruleRef name => [name]
  | .field k v => k.preorder ++ v.preorder
  | .sequence p q => p.preorder ++ q.preorder
  | .choice p q => p.preorder ++ q.preorder
  | .repetition p _ => p.preorder
  | .difference p q => p.preorder ++ q.preorder
  | .invert p => p.preorder
  | .lookahead p => p.preorder
  | .span p => p.preorder
  | .group p _ => p.preorder
  | .collect p => p.preorder
  | _ => []
termination_by structural p => p

/-- The names of the rules that the pattern of a selector refers to. -/
def Selector.preorder : Selector → List String
  | .literal _ => []
  | .pattern p => p.preorder
termination_by structural k => k

end

namespace Pattern

variable {p : Pattern}

/-- A pattern that is not a reference itself refers to what its parts do. -/
theorem preorder_eq_flatMap_parts (h : ∀ name, p ≠ .ruleRef name) :
  p.preorder = p.parts.flatMap preorder
  := by
  cases p with
  | ruleRef name => cases h name rfl
  | field k v => cases k <;> simp [preorder, Selector.preorder, parts]
  | _ => simp [preorder, parts]

theorem referencesIn_eq_flatMap (ps : List Pattern) :
  referencesIn ps = ps.flatMap preorder
  := by
  fun_induction referencesIn ps with
  | case1 => rfl
  | case2 ps name ih => rw [ih, List.flatMap_cons, preorder, List.singleton_append]
  | case3 p ps hp ih =>
    rw [ih, List.flatMap_append, List.flatMap_cons, preorder_eq_flatMap_parts hp]

/-- The references of a pattern are read in pre-order. -/
theorem references_eq_preorder (p : Pattern) :
  p.references = p.preorder
  := by
  rw [references, referencesIn_eq_flatMap, List.flatMap_singleton]

end Pattern

/-! ### Shared objects -/

/-- Objects that stand for patterns, each with the objects for the parts of its pattern in order.
An object can be a part of several others. -/
structure Objects (ι : Type) where
  pattern : ι → Pattern
  parts : ι → List ι
  map_parts : ∀ i, (parts i).map pattern = (pattern i).parts

/-- Patterns as objects that stand for themselves, so that all parts that are equal are shared. -/
def Objects.ofPatterns : Objects Pattern where
  pattern p := p
  parts := Pattern.parts
  map_parts p := List.map_id' p.parts

namespace Objects

variable {ι : Type} (objects : Objects ι) {i j : ι} {stack : List ι} {P : String → Bool}

/-- The number of nodes of all patterns for which objects stand. -/
def totalSize (stack : List ι) : Nat :=
  Pattern.totalSize (stack.map objects.pattern)

theorem totalSize_parts_lt (i : ι) (stack : List ι) :
  objects.totalSize (objects.parts i ++ stack) < objects.totalSize (i :: stack)
  := by
  have h := Pattern.totalSize_parts_lt (objects.pattern i)
  simp only [totalSize, List.map_append, objects.map_parts, Pattern.totalSize_append, List.map_cons,
    Pattern.totalSize]
  omega

theorem totalSize_tail_lt (i : ι) (stack : List ι) :
  objects.totalSize stack < objects.totalSize (i :: stack)
  := by
  have h := objects.totalSize_parts_lt i stack
  simp only [totalSize, List.map_append, Pattern.totalSize_append] at h ⊢
  omega

/-- The names that are read off a stack of objects, where none of those that have been seen is read
again. -/
def walkFrom [DecidableEq ι] (seen : List ι) : List ι → List String
  | [] => []
  | i :: stack =>
    if i ∈ seen then walkFrom seen stack
    else
      match objects.pattern i with
      | .ruleRef name => name :: walkFrom (i :: seen) stack
      | _ => walkFrom (i :: seen) (objects.parts i ++ stack)
termination_by stack => objects.totalSize stack
decreasing_by
  · apply totalSize_tail_lt
  · apply totalSize_tail_lt
  · apply totalSize_parts_lt

/-- The names that are read off an object, each object in it being read once. -/
def walk [DecidableEq ι] (i : ι) : List String :=
  objects.walkFrom [] [i]

/-- All names in the patterns for which the objects of a stack stand. -/
def pending (stack : List ι) : List String :=
  stack.flatMap fun i => (objects.pattern i).preorder

theorem pending_append (stack stack' : List ι) :
  objects.pending (stack ++ stack') = objects.pending stack ++ objects.pending stack'
  := List.flatMap_append

theorem pending_parts (h : ∀ name, objects.pattern i ≠ .ruleRef name) :
  objects.pending (objects.parts i) = (objects.pattern i).preorder
  := by
  rw [Pattern.preorder_eq_flatMap_parts h, ← objects.map_parts, List.flatMap_map]
  rfl

/-- The object at the top of a stack that is not a reference is read through its parts. -/
theorem pending_cons (h : ∀ name, objects.pattern i ≠ .ruleRef name) :
  objects.pending (i :: stack) = objects.pending (objects.parts i ++ stack)
  := by
  rw [pending_append, pending_parts objects h]
  rfl

theorem size_lt_of_mem_parts (h : j ∈ objects.parts i) :
  (objects.pattern j).size < (objects.pattern i).size
  := by
  obtain ⟨before, after, hparts⟩ := List.append_of_mem h
  have hsize := Pattern.totalSize_parts_lt (objects.pattern i)
  rw [← objects.map_parts, hparts, List.map_append, List.map_cons, Pattern.totalSize_append,
    Pattern.totalSize] at hsize
  omega

/-- Some name with a property is still to be read off smaller objects than `j` at the top of a
stack. -/
def Awaits (P : String → Bool) (stack : List ι) (j : ι) : Prop :=
  ∃ top, top <+: stack
    ∧ (∀ i ∈ top, (objects.pattern i).size < (objects.pattern j).size)
    ∧ ∃ name ∈ objects.pending top, P name = true

variable {objects}

/-- No object waits for something below itself. -/
theorem Awaits.ne_top (h : objects.Awaits P (i :: stack) j) :
  j ≠ i
  := by
  rintro rfl
  obtain ⟨top, hprefix, hsmaller, name, hname, -⟩ := h
  cases top with
  | nil => cases hname
  | cons i' top =>
    obtain ⟨rfl, -⟩ := List.cons_prefix_cons.1 hprefix
    exact Nat.lt_irrefl _ (hsmaller i' List.mem_cons_self)

/-- What an object waits for is below the top when no name with the property is read off the top. -/
theorem Awaits.tail (h : objects.Awaits P (i :: stack) j)
    (hi : ∀ name ∈ (objects.pattern i).preorder, P name = false) :
  objects.Awaits P stack j
  := by
  obtain ⟨top, hprefix, hsmaller, name, hname, hP⟩ := h
  cases top with
  | nil => cases hname
  | cons i' top =>
    obtain ⟨rfl, hrest⟩ := List.cons_prefix_cons.1 hprefix
    refine ⟨top, hrest, (List.forall_mem_cons.1 hsmaller).2, name, ?_, hP⟩
    rcases List.mem_append.1 hname with hname | hname
    · cases hP.symm.trans (hi name hname)
    · apply hname

/-- What an object waits for is still to be read when the top is replaced by its parts. -/
theorem Awaits.parts (h : objects.Awaits P (i :: stack) j)
    (hi : ∀ name, objects.pattern i ≠ .ruleRef name) :
  objects.Awaits P (objects.parts i ++ stack) j
  := by
  obtain ⟨top, hprefix, hsmaller, hname⟩ := h
  cases top with
  | nil =>
    obtain ⟨name, hname, -⟩ := hname
    cases hname
  | cons i' top =>
    obtain ⟨rfl, hrest⟩ := List.cons_prefix_cons.1 hprefix
    obtain ⟨hi', htop⟩ := List.forall_mem_cons.1 hsmaller
    refine ⟨objects.parts i' ++ top, (List.prefix_append_right_inj _).2 hrest, ?_,
      pending_cons objects hi ▸ hname⟩
    intro k hk
    rcases List.mem_append.1 hk with hk | hk
    · exact Nat.lt_trans (objects.size_lt_of_mem_parts hk) hi'
    · apply htop k hk

/-- An object that is replaced by its parts waits for what has a property in them. -/
theorem Awaits.self (hi : ∀ name, objects.pattern i ≠ .ruleRef name)
    (h : ∃ name ∈ (objects.pattern i).preorder, P name = true) (stack : List ι) :
  objects.Awaits P (objects.parts i ++ stack) i
  := by
  use objects.parts i, List.prefix_append _ _
  rw [pending_parts objects hi]
  exact ⟨fun j hj => objects.size_lt_of_mem_parts hj, h⟩

/-- The first name with a property is found although objects that have been seen are passed over, if
each of these has no such name or waits for one. -/
theorem find?_walkFrom [DecidableEq ι] {seen : List ι}
    (h : ∀ j ∈ seen, (∃ name ∈ (objects.pattern j).preorder, P name = true) →
      objects.Awaits P stack j) :
  (objects.walkFrom seen stack).find? P = (objects.pending stack).find? P
  := by
  fun_induction walkFrom objects seen stack with
  | case1 => rfl
  | case2 seen i stack hi ih =>
    have hclean : ∀ name ∈ (objects.pattern i).preorder, P name = false := by
      intro name hname
      rw [← Bool.not_eq_true]
      intro hP
      exact (h i hi ⟨name, hname, hP⟩).ne_top rfl
    have hnone : (objects.pattern i).preorder.find? P = none :=
      List.find?_eq_none.2 (by simpa using hclean)
    rw [ih fun j hj hname => (h j hj hname).tail hclean, pending, pending, List.flatMap_cons,
      List.find?_append, hnone, Option.none_or]
  | case3 seen i stack hi name hpattern ih =>
    have hnames : (objects.pattern i).preorder = [name] := by
      rw [hpattern, Pattern.preorder]
    rw [pending, List.flatMap_cons, hnames, List.singleton_append, List.find?_cons, List.find?_cons]
    cases hP : P name with
    | true => rfl
    | false =>
      have hclean : ∀ name ∈ (objects.pattern i).preorder, P name = false := by
        simp [hnames, hP]
      apply ih
      intro j hj hname
      rcases List.mem_cons.1 hj with rfl | hj
      · obtain ⟨name, hname, hP⟩ := hname
        cases hP.symm.trans (hclean name hname)
      · apply (h j hj hname).tail hclean
  | case4 seen i stack hi hpattern ih =>
    rw [pending_cons objects hpattern]
    apply ih
    intro j hj hname
    rcases List.mem_cons.1 hj with rfl | hj
    · apply Awaits.self hpattern hname
    · apply (h j hj hname).parts hpattern

/-- Reading each object once finds the same first name with a property as reading the pattern. -/
theorem find?_walk [DecidableEq ι] (objects : Objects ι) (i : ι) (P : String → Bool) :
  (objects.walk i).find? P = (objects.pattern i).preorder.find? P
  := by
  rw [walk, find?_walkFrom (fun j hj => by cases hj), pending, List.flatMap_singleton]

end Objects

end Peg
