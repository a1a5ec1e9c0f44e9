import Peg.Proofs.Preorder
import Peg.Proofs.Rooting

/-!
# Undefined references

A grammar is defined only if all references in it name rules.  Rules and a root are given by objects
for patterns, which can be shared.  `Draft.references` lists all references in them, with the places
where they stand, in the order in which they are read: the rules in order, then the root, and each
pattern in pre-order.  If one of them names no rule then the definition fails with the first such
one, and otherwise it succeeds.
-/

namespace Peg

/-- The root that is given with rules, if any: the name of a rule, or an object for a pattern. -/
inductive GivenRoot (ι : Type) where
  | absent
  | rule (name : String)
  | inline (i : ι)

/-- Rules and a root of which a grammar can be defined, with objects for the patterns. -/
structure Draft (ι : Type) where
  rules : List (String × ι)
  root : GivenRoot ι

namespace Draft

variable {ι : Type} (draft : Draft ι) (objects : Objects ι)

/-- The names of the rules. -/
def names : List String :=
  draft.rules.map Prod.fst

/-- The names are proper, and a root that is a name is one of them. -/
structure Proper : Prop where
  names : ∀ r ∈ draft.rules, RuleName r.1
  root : ∀ name, draft.root = .rule name → name ∈ draft.names

/-- The rules with their patterns. -/
def patterns : List (String × Pattern) :=
  draft.rules.map fun r => (r.1, objects.pattern r.2)

/-- The value that is given as the root. -/
def rootValue : Value :=
  match draft.root with
  | .absent => .null
  | .rule name => .text name
  | .inline i => .pattern (objects.pattern i)

/-- The root of the grammar, where `first` is the name of the first rule. -/
def madeRoot (first : String) : Root :=
  match draft.root with
  | .absent => .rule first
  | .rule name => .rule name
  | .inline i => .inline (objects.pattern i)

/-- Defines the grammar, from a dictionary of the rules and from the root. -/
def define : Build Grammar :=
  Grammar.ofValues (.dict ((draft.patterns objects).map fun r => (.text r.1, .pattern r.2)))
    (draft.rootValue objects)

/-- The objects for the rules, and for the root if it is a pattern, with their places. -/
def bodies : List (Site × ι) :=
  draft.rules.map (fun r => (.rule r.1, r.2)) ++
    match draft.root with
    | .inline i => [(.root, i)]
    | _ => []

/-- The references that a reading of objects finds, with their places. -/
def read (reading : ι → List String) : List (String × Site) :=
  draft.bodies.flatMap fun b => (reading b.2).map fun name => (name, b.1)

/-- All references outside nested grammars with their places: the rules in order and then the root,
and each pattern in pre-order. -/
def references : List (String × Site) :=
  draft.read fun i => (objects.pattern i).preorder

/-- The references that are found when each object in a body is read once. -/
def walked [DecidableEq ι] : List (String × Site) :=
  draft.read objects.walk

/-- A reference names no rule. -/
def isUndefined (r : String × Site) : Bool :=
  decide (r.1 ∉ draft.names)

variable {draft objects}

/-! ### The first undefined reference -/

theorem find?_read (reading : ι → List String) :
  (draft.read reading).find? draft.isUndefined
    = draft.bodies.findSome? fun b =>
      ((reading b.2).find? fun name => decide (name ∉ draft.names)).map fun name => (name, b.1)
  := by
  rw [read, List.find?_flatMap]
  simp only [List.find?_map, isUndefined, Function.comp_def]

/-- The same reference is the first undefined one when each object is read once. -/
theorem find?_walked [DecidableEq ι] :
  (draft.walked objects).find? draft.isUndefined
    = (draft.references objects).find? draft.isUndefined
  := by
  simp only [walked, references, find?_read, Objects.find?_walk]

/-- A body is found under the names of rules. -/
theorem lookup_isSome_iff (objects : Objects ι) (name : String) :
  ((draft.patterns objects).lookup name).isSome = true ↔ name ∈ draft.names
  := by
  simp only [List.lookup_isSome_iff, patterns, names, List.mem_map, beq_iff_eq]
  constructor
  · rintro ⟨_, ⟨r, hr, rfl⟩, rfl⟩
    exact ⟨r, hr, rfl⟩
  · rintro ⟨r, hr, rfl⟩
    exact ⟨_, ⟨r, hr, rfl⟩, rfl⟩

/-- A grammar reports the first undefined reference of its draft. -/
theorem undefined?_eq (objects : Objects ι) (first : String) :
  Grammar.undefined? (draft.patterns objects) (draft.madeRoot objects first)
    = (draft.references objects).find? draft.isUndefined
  := by
  have hbodies : Grammar.bodies (draft.patterns objects) (draft.madeRoot objects first)
      = draft.bodies.map fun b => (b.1, objects.pattern b.2) := by
    simp only [Grammar.bodies, patterns, madeRoot, bodies, List.map_append, List.map_map]
    cases draft.root <;> rfl
  have hundefined : ∀ name : String,
      ((draft.patterns objects).lookup name).isNone = decide (name ∉ draft.names) := by
    intro name
    rw [← Option.not_isSome, Bool.eq_iff_iff, Bool.not_eq_true', decide_eq_true_eq,
      ← lookup_isSome_iff objects, Bool.not_eq_true]
  rw [references, find?_read, Grammar.undefined?, hbodies, List.findSome?_map]
  simp only [Function.comp_def, Grammar.undefinedIn?, Pattern.references_eq_preorder, hundefined]

/-! ### Definitions -/

theorem rootOf_eq {first : String × ι} {rest : List (String × ι)}
    (hrules : draft.rules = first :: rest) (h : draft.Proper) :
  Grammar.rootOf (draft.patterns objects) (Grammar.rootOffer? ⟨.text "0", draft.rootValue objects,
      (draft.rootValue objects).toPattern⟩)
    = pure (draft.madeRoot objects first.1)
  := by
  have hpatterns : draft.patterns objects = (first.1, objects.pattern first.2)
      :: rest.map fun r => (r.1, objects.pattern r.2) := by
    rw [patterns, hrules, List.map_cons]
  cases hroot : draft.root with
  | absent =>
    rw [hpatterns]
    simp only [rootValue, madeRoot, hroot]
    rfl
  | rule name =>
    have hlookup : ((draft.patterns objects).lookup name).isSome = true :=
      (lookup_isSome_iff objects name).2 (h.root name hroot)
    simp only [rootValue, madeRoot, hroot, Grammar.rootOffer?]
    rw [hpatterns] at hlookup ⊢
    simp only [Grammar.rootOf, hlookup, if_true]
  | inline i =>
    rw [hpatterns]
    simp only [rootValue, madeRoot, hroot]
    rfl

/-- Without rules no grammar is defined, whatever the root. -/
theorem define_of_empty (h : draft.rules = []) (n : Nat) :
  draft.define objects n = .error (.grammar .noRules) n
  := by
  rw [define, patterns, h]
  rfl

/-- With rules a grammar is defined, unless there is an undefined reference. -/
theorem define_eq {first : String × ι} {rest : List (String × ι)}
    (hrules : draft.rules = first :: rest) (h : draft.Proper) (n : Nat) :
  draft.define objects n
    = match (draft.references objects).find? draft.isUndefined with
      | some (name, site) => .error (.undefinedRule name (some site)) n
      | none => .ok ⟨n, draft.patterns objects, draft.madeRoot objects first.1⟩ (n + 1)
  := by
  have hnames : ∀ r ∈ draft.patterns objects, RuleName r.1 := by
    intro r hr
    obtain ⟨s, hs, rfl⟩ := List.mem_map.1 hr
    apply h.names s hs
  rw [define, Grammar.ofValues, Grammar.define, Grammar.offers_patterns,
    Grammar.rulesOf_patterns hnames, pure_bind, rootOf_eq hrules h, pure_bind, undefined?_eq]
  cases (draft.references objects).find? draft.isUndefined <;> rfl

/-- How the place of a reference in a draft is worded: a rule by its name, or the root. -/
def Words (draft : Draft ι) (site : Site) (place : String) : Prop :=
  (∃ rule ∈ draft.names, site = .rule rule ∧ place = "rule '" ++ rule ++ "'")
    ∨ (∃ i, draft.root = .inline i ∧ site = .root ∧ place = "grammar root")

theorem words_of_mem_bodies {b : Site × ι} (h : b ∈ draft.bodies) :
  draft.Words b.1 b.1.describe
  := by
  rcases List.mem_append.1 h with h | h
  · obtain ⟨r, hr, rfl⟩ := List.mem_map.1 h
    exact .inl ⟨r.1, List.mem_map_of_mem hr, rfl, rfl⟩
  · cases hroot : draft.root with
    | inline i =>
      rw [hroot, List.mem_singleton] at h
      rw [h]
      exact .inr ⟨i, hroot, rfl, rfl⟩
    | _ =>
      rw [hroot] at h
      cases h

theorem words_of_mem_references {r : String × Site} (h : r ∈ draft.references objects) :
  draft.Words r.2 r.2.describe
  := by
  obtain ⟨b, hb, hr⟩ := List.mem_flatMap.1 h
  obtain ⟨name, -, rfl⟩ := List.mem_map.1 hr
  apply words_of_mem_bodies hb

section Rules

variable (hne : draft.rules ≠ []) (h : draft.Proper) (n : Nat)

include hne h in
/-- The first undefined reference is reported, with its name and the wording of its place. -/
theorem define_of_undefined {before after : List (String × Site)} {name : String} {site : Site}
    (hreferences : draft.references objects = before ++ (name, site) :: after)
    (hbefore : ∀ r ∈ before, r.1 ∈ draft.names) (hname : name ∉ draft.names) :
  ∃ e place, draft.define objects n = .error e n
    ∧ draft.Words site place
    ∧ e.report = ⟨.undefinedRule, "undefined rule '" ++ name ++ "'"
      ++ (" (referenced from " ++ place ++ ")"), [("name", .text name)]⟩
  := by
  obtain ⟨first, rest, hrules⟩ := List.exists_cons_of_ne_nil hne
  have hfind : (draft.references objects).find? draft.isUndefined = some (name, site) := by
    apply List.find?_eq_some_iff_append.2
    use by simpa [isUndefined] using hname
    exact ⟨before, after, hreferences, by simpa [isUndefined] using hbefore⟩
  use .undefinedRule name (some site), site.describe
  rw [define_eq hrules h, hfind]
  refine ⟨rfl, ?_, rfl⟩
  apply words_of_mem_references (List.mem_of_find?_eq_some hfind)

include hne h in
/-- A grammar is defined when all references name rules. -/
theorem define_of_defined (hdefined : ∀ r ∈ draft.references objects, r.1 ∈ draft.names) :
  ∃ g, draft.define objects n = .ok g (n + 1)
  := by
  obtain ⟨first, rest, hrules⟩ := List.exists_cons_of_ne_nil hne
  have hfind : (draft.references objects).find? draft.isUndefined = none := by
    simpa [isUndefined] using hdefined
  rw [define_eq hrules h, hfind]
  exact ⟨_, rfl⟩

include hne h in
/-- An error that tells of an undefined rule is raised just if a reference names no rule. -/
theorem define_undefinedRule_iff :
  (∃ e m, draft.define objects n = .error e m ∧ e.kind = .undefinedRule)
    ↔ ∃ r ∈ draft.references objects, r.1 ∉ draft.names
  := by
  constructor
  · rintro ⟨e, m, he, -⟩
    by_contra hnone
    push Not at hnone
    obtain ⟨g, hg⟩ := define_of_defined hne h n hnone
    rw [he] at hg
    cases hg
  · rintro ⟨r, hr, hname⟩
    obtain ⟨first, rest, hrules⟩ := List.exists_cons_of_ne_nil hne
    cases hfind : (draft.references objects).find? draft.isUndefined with
    | some r => exact ⟨.undefinedRule r.1 (some r.2), n, by rw [define_eq hrules h, hfind], rfl⟩
    | none => cases List.find?_eq_none.1 hfind r hr (by simpa [isUndefined] using hname)

end Rules

/-- Without rules no grammar is defined, whatever the root.  With rules, an error that tells of an
undefined rule is raised just if some reference in the draft names no rule.  It is then raised for
the first such reference: it carries the name, and words the place.  If all references name rules
then a grammar is defined.  The first undefined reference is the same one when each object in a body
is read only once. -/
theorem define_reports_first [DecidableEq ι] (objects : Objects ι) (draft : Draft ι)
    (h : draft.Proper) (n : Nat) :
  (draft.rules = [] → draft.define objects n = .error (.grammar .noRules) n)
    ∧ (draft.rules ≠ [] →
      ((∃ e m, draft.define objects n = .error e m ∧ e.kind = .undefinedRule)
          ↔ ∃ r ∈ draft.references objects, r.1 ∉ draft.names)
        ∧ (∀ before name site after,
          draft.references objects = before ++ (name, site) :: after →
            (∀ r ∈ before, r.1 ∈ draft.names) → name ∉ draft.names →
              ∃ e place, draft.define objects n = .error e n
                ∧ draft.Words site place
                ∧ e.report = ⟨.undefinedRule, "undefined rule '" ++ name ++ "'"
                  ++ (" (referenced from " ++ place ++ ")"), [("name", .text name)]⟩)
        ∧ ((∀ r ∈ draft.references objects, r.1 ∈ draft.names) →
          ∃ g, draft.define objects n = .ok g (n + 1)))
    ∧ (draft.walked objects).find? draft.isUndefined
      = (draft.references objects).find? draft.isUndefined
  := by
  refine ⟨fun hrules => define_of_empty hrules n, ?_, find?_walked⟩
  intro hne
  refine ⟨define_undefinedRule_iff hne h n, ?_, define_of_defined hne h n⟩
  exact fun _ _ _ _ => define_of_undefined hne h n

/-- A choice of two references. -/
def eitherGhost : Pattern :=
  .choice (.ruleRef "a") (.ruleRef "ghost")

/-- A rule that has the choice in it twice. -/
def haunted : Draft Pattern :=
  ⟨[("a", .sequence (.lookahead eitherGhost) eitherGhost)], .absent⟩

/-- The shared choice is read once, and the second reference in it is reported. -/
theorem define_reports_first_haunted :
  haunted.Proper
    ∧ haunted.references .ofPatterns
      = [("a", .rule "a"), ("ghost", .rule "a"), ("a", .rule "a"), ("ghost", .rule "a")]
    ∧ haunted.walked .ofPatterns = [("a", .rule "a"), ("ghost", .rule "a")]
    ∧ (∃ r ∈ haunted.references .ofPatterns, r.1 ∉ haunted.names)
    ∧ ∃ e place, haunted.define .ofPatterns 0 = .error e 0
      ∧ haunted.Words (.rule "a") place
      ∧ e.report = ⟨.undefinedRule, "undefined rule '" ++ "ghost" ++ "'"
        ++ (" (referenced from " ++ place ++ ")"), [("name", .text "ghost")]⟩
  := by
  have hproper : haunted.Proper := by
    constructor
    · simp [haunted, RuleName]
    · simp [haunted]
  have hreferences : haunted.references .ofPatterns
      = [("a", .rule "a"), ("ghost", .rule "a"), ("a", .rule "a"), ("ghost", .rule "a")] := by
    decide
  obtain ⟨-, hrules, -⟩ := define_reports_first .ofPatterns haunted hproper 0
  obtain ⟨hiff, hfirst, -⟩ := hrules (by decide)
  obtain ⟨e, place, hdefine, hplace, hreport⟩ := hfirst [_] "ghost" (.rule "a") _ hreferences
    (by decide) (by decide)
  have hundefined := hiff.1 ⟨e, 0, hdefine, by rw [Error.kind, hreport]⟩
  refine ⟨hproper, hreferences, ?_, hundefined, e, place, hdefine, hplace, hreport⟩
  simp [walked, read, bodies, haunted, eitherGhost, Objects.walk, Objects.walkFrom,
    Objects.ofPatterns, Pattern.parts]

/-- A reference at the root of no rules at all. -/
def rootless : Draft Pattern :=
  ⟨[], .inline (.ruleRef "ghost")⟩

/-- Without rules the reference names none, but the error does not tell of it. -/
theorem rootless_not_undefinedRule :
  rootless.Proper
    ∧ ¬ ((∃ e m, rootless.define .ofPatterns 0 = .error e m ∧ e.kind = .undefinedRule)
      ↔ ∃ r ∈ rootless.references .ofPatterns, r.1 ∉ rootless.names)
  := by
  constructor
  · constructor
    · simp [rootless]
    · simp [rootless]
  · intro h
    obtain ⟨e, m, he, hkind⟩ := h.2 ⟨("ghost", .root), by decide, by decide⟩
    rw [define_of_empty rfl] at he
    cases he
    cases hkind

end Draft

end Peg
