import Peg.Proofs.Remaking

/-!
# Grammar literals

A dictionary makes a grammar.  `Grammar.Definable` says of which entries, and with which root, a
grammar can be defined: all keys are names of rules, there are rules, all bodies and the root make
patterns, and what these refer to are rules.  Whether that is so does not depend on the numbers that
are drawn on the way: made again at another time, a pattern has the same references, by
`Value.toPattern_uniform`.

`Value.toPattern_dict` says what a dictionary makes, which is read as rules and a root: the grammar
of these if one can be defined, and otherwise an error that tells of an invalid grammar.  Two kinds
of entries are read as one might not expect.  A floating-point zero is a key of the root, and a null
root is no root.
-/

namespace Peg

variable {n n' m : Nat} {p q : Pattern} {v : Value} {e : Error}
variable {es : List (Value × Value)} {root : Option (Value × Value)}

/-! ### Constructions at any time -/

/-- A value gives a pattern at some time. -/
def Value.Gives (v : Value) (p : Pattern) : Prop :=
  ∃ n m, v.toPattern n = .ok p m

/-- An error that tells of an invalid grammar. -/
def Error.TellsOfGrammar (e : Error) : Prop :=
  ErrorKind.invalidGrammar.name ∈ e.kind.lineage

theorem Error.grammar_tellsOfGrammar (fault : GrammarFault) :
  (Error.grammar fault).TellsOfGrammar
  := by
  simp [TellsOfGrammar, kind, report, ErrorKind.lineage, ErrorKind.name]

theorem Error.undefinedRule_tellsOfGrammar (name : String) (site : Option Site) :
  (Error.undefinedRule name site).TellsOfGrammar
  := by
  simp [TellsOfGrammar, kind, report, ErrorReport.undefinedRule, ErrorKind.lineage, ErrorKind.name]

/-- When a construction succeeds, it does so at any time, with a pattern that has the same
references; when it fails, then for a fault in a pattern or in a grammar. -/
structure Build.Uniform (x : Build Pattern) : Prop where
  again : ∀ {n p m}, x n = .ok p m →
    ∀ n', ∃ q m', x n' = .ok q m' ∧ q.references = p.references
  failed : ∀ {n e m}, x n = .error e m → (∃ fault, e = .pattern fault) ∨ e.TellsOfGrammar

namespace Build.Uniform

theorem pure (p : Pattern) :
  Uniform (Pure.pure p)
  := by
  constructor
  · rintro n _ m ⟨⟩ n'
    exact ⟨p, n', rfl, rfl⟩
  · rintro n e m ⟨⟩

theorem throw (fault : PatternFault) :
  Uniform (MonadExcept.throw (.pattern fault))
  := by
  constructor
  · rintro n p m ⟨⟩
  · rintro n _ m ⟨⟩
    exact .inl ⟨fault, rfl⟩

/-- What a value gives at different times has the same references. -/
theorem references_eq (h : v.toPattern.Uniform) (hp : v.Gives p) (hq : v.Gives q) :
  p.references = q.references
  := by
  obtain ⟨n, m, hp⟩ := hp
  obtain ⟨n', m', hq⟩ := hq
  obtain ⟨q', m'', hq', heq⟩ := h.again hp n'
  rw [hq] at hq'
  cases hq'
  exact heq.symm

end Build.Uniform

/-! ### Rules -/

namespace Grammar

/-- The offer of an entry. -/
def offer (e : Value × Value) : Offer :=
  ⟨e.1, e.2, e.2.toPattern⟩

/-- Rules are those of some entries, one after the other: an entry has the name of a rule as its
key, and a body that gives the pattern of the rule. -/
def Reads (es : List (Value × Value)) (rules : List (String × Pattern)) : Prop :=
  List.Forall₂ (fun e r => e.1 = .text r.1 ∧ RuleName r.1 ∧ e.2.Gives r.2) es rules

/-- A text is the key of one of some entries. -/
def Names (es : List (Value × Value)) (name : String) : Prop :=
  ∃ v, (Value.text name, v) ∈ es

/-- A value gives a pattern that refers only to rules of some entries. -/
def GivesWithin (es : List (Value × Value)) (v : Value) : Prop :=
  ∃ p, v.Gives p ∧ ∀ name ∈ p.references, Names es name

theorem Reads.lookup_isSome_iff {rules : List (String × Pattern)} (h : Reads es rules)
    (name : String) :
  (rules.lookup name).isSome = true ↔ Names es name
  := by
  induction h with
  | nil => simp [Names]
  | @cons e r es rules he _ ih =>
    obtain ⟨key, v⟩ := e
    obtain ⟨rfl, -, -⟩ := he
    rw [List.lookup_cons]
    cases hname : name == r.1 with
    | true =>
      rw [eq_of_beq hname]
      simp [Names]
    | false =>
      have hne : name ≠ r.1 := by simpa using hname
      rw [ih]
      simp [Names, hne]

/-- The rules that are made are those of the entries. -/
theorem reads_of_rulesOf {rules : List (String × Pattern)}
    (h : rulesOf (es.map offer) n = .ok rules m) :
  Reads es rules
  := by
  induction es generalizing n rules with
  | nil =>
    cases h
    apply List.Forall₂.nil
  | cons e es ih =>
    obtain ⟨name, l, hname, h⟩ := Build.bind_eq_ok h
    obtain ⟨body, k, hbody, h⟩ := Build.bind_eq_ok h
    obtain ⟨rules', k', hrules, h⟩ := Build.bind_eq_ok h
    cases h
    obtain ⟨name', hkey, hname', hpure⟩ | ⟨fault, hthrow⟩ := (offer e).ruleName_cases
    · rw [hpure] at hname
      cases hname
      exact .cons ⟨hkey, hname', _, _, Offer.pattern_eq_ok hbody⟩ (ih hrules)
    · rw [hthrow] at hname
      cases hname

/-- Rules are made of entries with proper keys and with bodies that give patterns. -/
theorem rulesOf_eq_ok_of_gives (hkeys : ∀ e ∈ es, ∃ name, e.1 = .text name ∧ RuleName name)
    (hbodies : ∀ e ∈ es, ∃ p, e.2.Gives p) (huniform : ∀ e ∈ es, e.2.toPattern.Uniform)
    (n : Nat) :
  ∃ rules m, rulesOf (es.map offer) n = .ok rules m
  := by
  induction es generalizing n with
  | nil => exact ⟨[], n, rfl⟩
  | cons e es ih =>
    obtain ⟨⟨name, hkey, hempty, hroot⟩, hkeys⟩ := List.forall_mem_cons.1 hkeys
    obtain ⟨⟨p, k, k', hp⟩, hbodies⟩ := List.forall_mem_cons.1 hbodies
    obtain ⟨he, huniform⟩ := List.forall_mem_cons.1 huniform
    obtain ⟨body, l, hbody, -⟩ := he.again hp n
    obtain ⟨rules, m, hrules⟩ := ih hkeys hbodies huniform l
    use (name, body) :: rules, m
    have hname : (offer e).ruleName = pure name := by
      simp only [Offer.ruleName, offer, hkey, hempty, hroot, if_false]
    have hpattern : (offer e).patternFor name n = .ok body l := by
      simp only [Offer.patternFor, Build.mapError, offer, hbody]
    rw [List.map_cons, rulesOf, hname, pure_bind]
    simp only [bind, EStateM.bind, hpattern, hrules]
    rfl

/-- A fault in the body of a rule is one of the grammar. -/
theorem errorIn_tellsOfGrammar (h : (∃ fault, e = .pattern fault) ∨ e.TellsOfGrammar)
    (rule : String) :
  (Offer.errorIn rule e).TellsOfGrammar
  := by
  cases e with
  | pattern fault => apply Error.grammar_tellsOfGrammar
  | _ =>
    obtain ⟨_, ⟨⟩⟩ | htells := h
    apply htells

theorem patternFor_error {entry : Value × Value} {rule : String}
    (hentry : entry.2.toPattern.Uniform) (h : (offer entry).patternFor rule n = .error e m) :
  e.TellsOfGrammar
  := by
  simp only [Offer.patternFor, Build.mapError, offer] at h
  cases hx : entry.2.toPattern n with
  | ok p l => simp [hx] at h
  | error e' l =>
    rw [hx] at h
    cases h
    apply errorIn_tellsOfGrammar (hentry.failed hx)

theorem rulesOf_error (huniform : ∀ e ∈ es, e.2.toPattern.Uniform)
    (h : rulesOf (es.map offer) n = .error e m) :
  e.TellsOfGrammar
  := by
  induction es generalizing n with
  | nil => cases h
  | cons entry es ih =>
    obtain ⟨hentry, huniform⟩ := List.forall_mem_cons.1 huniform
    obtain hname | ⟨name, l, -, h⟩ := Build.bind_eq_error h
    · obtain ⟨name, -, -, hpure⟩ | ⟨fault, hthrow⟩ := (offer entry).ruleName_cases
      · rw [hpure] at hname
        cases hname
      · rw [hthrow] at hname
        cases hname
        apply Error.grammar_tellsOfGrammar
    · obtain hbody | ⟨body, k, -, h⟩ := Build.bind_eq_error h
      · apply patternFor_error hentry hbody
      · obtain hrules | ⟨rules, k', -, h⟩ := Build.bind_eq_error h
        · apply ih huniform hrules
        · cases h

/-! ### Roots -/

/-- The root is the one that an entry gives, a rule by its name or else a pattern, or the first rule
when there is no entry for it. -/
inductive ReadsRoot (rules : List (String × Pattern)) : Option (Value × Value) → Root → Prop where
  | first {name : String} {p : Pattern} {rest : List (String × Pattern)} :
    rules = (name, p) :: rest → ReadsRoot rules none (.rule name)
  | rule {key : Value} {name : String} :
    (rules.lookup name).isSome = true → ReadsRoot rules (some (key, .text name)) (.rule name)
  | inline {key v : Value} {p : Pattern} :
    (¬ ∃ name, v = .text name) → v.Gives p → ReadsRoot rules (some (key, v)) (.inline p)

/-- An entry can be the root beside some entries: its body names a rule, or else it gives a pattern
that refers only to rules. -/
def CanRoot (es : List (Value × Value)) (entry : Value × Value) : Prop :=
  (∃ name, entry.2 = .text name ∧ Names es name)
    ∨ (¬ ∃ name, entry.2 = .text name) ∧ GivesWithin es entry.2

theorem readsRoot_of_rootOf {rules : List (String × Pattern)} {r : Root}
    (h : rootOf rules (root.map offer) n = .ok r m) :
  ReadsRoot rules root r
  := by
  cases rules with
  | nil => cases h
  | cons first rules =>
    cases root with
    | none =>
      cases h
      exact .first rfl
    | some entry =>
      obtain ⟨key, v⟩ := entry
      by_cases htext : ∃ name, v = .text name
      · obtain ⟨name, rfl⟩ := htext
        simp only [rootOf, Option.map_some, offer] at h
        split at h
        · next hrule =>
          cases h
          exact .rule hrule
        · cases h
      · rw [Option.map_some, rootOf_pattern htext] at h
        obtain ⟨p, l, hp, h⟩ := Build.bind_eq_ok h
        cases h
        exact .inline htext ⟨_, _, Offer.pattern_eq_ok hp⟩

theorem rootOf_eq_ok_of_canRoot {rules : List (String × Pattern)} (hrules : Reads es rules)
    (hnonempty : rules ≠ []) (hroot : ∀ e ∈ root, CanRoot es e)
    (huniform : ∀ e ∈ root, e.2.toPattern.Uniform) (n : Nat) :
  ∃ r m, rootOf rules (root.map offer) n = .ok r m
  := by
  obtain ⟨first, rest, rfl⟩ := List.exists_cons_of_ne_nil hnonempty
  cases root with
  | none => exact ⟨.rule first.1, n, rfl⟩
  | some entry =>
    obtain ⟨key, v⟩ := entry
    obtain ⟨name, hname, hrule⟩ | ⟨htext, p, ⟨k, k', hp⟩, -⟩ := hroot _ rfl
    · obtain rfl : v = .text name := hname
      rw [← hrules.lookup_isSome_iff] at hrule
      use .rule name, n
      simp only [rootOf, Option.map_some, offer, hrule, if_true]
      rfl
    · obtain ⟨q, m, hq, -⟩ := (huniform _ rfl).again hp n
      have hpattern : (offer (key, v)).patternFor "0" n = .ok q m := by
        simp only [Offer.patternFor, Build.mapError, offer, hq]
      use .inline q, m
      rw [Option.map_some, rootOf_pattern htext]
      simp only [bind, EStateM.bind, hpattern]
      rfl

theorem rootOf_error {rules : List (String × Pattern)}
    (huniform : ∀ e ∈ root, e.2.toPattern.Uniform)
    (h : rootOf rules (root.map offer) n = .error e m) :
  e.TellsOfGrammar
  := by
  cases rules with
  | nil =>
    cases h
    apply Error.grammar_tellsOfGrammar
  | cons first rules =>
    cases root with
    | none => cases h
    | some entry =>
      obtain ⟨key, v⟩ := entry
      by_cases htext : ∃ name, v = .text name
      · obtain ⟨name, rfl⟩ := htext
        simp only [rootOf, Option.map_some, offer] at h
        split at h
        · cases h
        · cases h
          apply Error.undefinedRule_tellsOfGrammar
      · rw [Option.map_some, rootOf_pattern htext] at h
        obtain hpattern | ⟨p, l, -, h⟩ := Build.bind_eq_error h
        · apply patternFor_error (huniform _ rfl) hpattern
        · cases h

/-! ### Grammars -/

/-- A grammar can be defined with rules of some entries and with the root of another one: the keys
are names of rules, there are rules, and the bodies and the root give patterns which refer only to
rules. -/
structure Definable (es : List (Value × Value)) (root : Option (Value × Value)) : Prop where
  keys : ∀ e ∈ es, ∃ name, e.1 = .text name ∧ RuleName name
  nonempty : es ≠ []
  bodies : ∀ e ∈ es, GivesWithin es e.2
  root : ∀ e ∈ root, CanRoot es e

variable {g : Grammar}

theorem reads_of_define (h : define (es.map offer) (root.map offer) n = .ok g m) :
  Reads es g.rules ∧ ReadsRoot g.rules root g.root
  := by
  obtain ⟨l, hrules, hroot, -⟩ := define_eq_ok h
  exact ⟨reads_of_rulesOf hrules, readsRoot_of_rootOf hroot⟩

/-- A grammar is defined only where that can be. -/
theorem definable_of_define (h : define (es.map offer) (root.map offer) n = .ok g m) :
  Definable es root
  := by
  obtain ⟨hrules, hroot⟩ := reads_of_define h
  obtain ⟨l, -, hrootOf, hresolves, -⟩ := define_eq_ok h
  have hwithin : ∀ p : Pattern, p.ResolvesIn (some g) → ∀ name ∈ p.references, Names es name := by
    intro p hp name hname
    obtain ⟨_, ⟨⟩, hrule⟩ := hp name hname
    apply (hrules.lookup_isSome_iff name).1 hrule
  constructor
  · intro e he
    obtain ⟨r, -, hkey, hname, -⟩ := (exists_mem_of_forall₂ hrules).1 e he
    exact ⟨r.1, hkey, hname⟩
  · rintro rfl
    rw [List.forall₂_nil_left_iff.1 hrules] at hrootOf
    cases hrootOf
  · intro e he
    obtain ⟨r, hr, -, -, hbody⟩ := (exists_mem_of_forall₂ hrules).1 e he
    exact ⟨r.2, hbody, hwithin r.2 (hresolves.rules r hr)⟩
  · rintro entry hentry
    obtain rfl : root = some entry := hentry
    generalize hr : g.root = r at hroot
    cases hroot with
    | rule hrule => exact .inl ⟨_, rfl, (hrules.lookup_isSome_iff _).1 hrule⟩
    | inline htext hgives => exact .inr ⟨htext, _, hgives, hwithin _ (hresolves.root _ hr)⟩

/-- Where a grammar can be defined, it is defined at any time. -/
theorem define_eq_ok_of_definable (h : Definable es root)
    (huniform : ∀ e ∈ es, e.2.toPattern.Uniform)
    (hroot : ∀ e ∈ root, e.2.toPattern.Uniform) (n : Nat) :
  ∃ g m, define (es.map offer) (root.map offer) n = .ok g m
  := by
  have hgives : ∀ e ∈ es, ∃ p, e.2.Gives p := by
    intro e he
    obtain ⟨p, hp, -⟩ := h.bodies e he
    exact ⟨p, hp⟩
  obtain ⟨rules, l, hrulesOf⟩ := rulesOf_eq_ok_of_gives h.keys hgives huniform n
  have hrules := reads_of_rulesOf hrulesOf
  have hnonempty : rules ≠ [] := by
    rintro rfl
    exact h.nonempty (List.forall₂_nil_right_iff.1 hrules)
  obtain ⟨r, k, hrootOf⟩ := rootOf_eq_ok_of_canRoot hrules hnonempty h.root hroot l
  -- what was made this time refers to the same rules as what is known to be given
  have hdefined : ∀ {v : Value} {p : Pattern}, v.toPattern.Uniform → GivesWithin es v →
      v.Gives p → undefinedIn? rules p = none := by
    rintro v p huniform ⟨q, hq, hwithin⟩ hp
    rw [undefinedIn?_eq_none_iff, huniform.references_eq hp hq]
    exact fun name hname => (hrules.lookup_isSome_iff name).2 (hwithin name hname)
  have hundefined : undefined? rules r = none := by
    rw [undefined?_eq_none_iff]
    constructor
    · intro r hr
      obtain ⟨e, he, -, -, hbody⟩ := (exists_mem_of_forall₂ hrules).2 r hr
      apply hdefined (huniform e he) (h.bodies e he) hbody
    · rintro p rfl
      cases readsRoot_of_rootOf hrootOf with
      | @inline key v _ htext hp =>
        obtain ⟨name, hname, -⟩ | ⟨-, hwithin⟩ := h.root _ rfl
        · exact absurd ⟨name, hname⟩ htext
        · apply hdefined (hroot _ rfl) hwithin hp
  use ⟨k, rules, r⟩, k + 1
  simp only [define, bind, EStateM.bind, hrulesOf, hrootOf, hundefined]
  rfl

theorem define_error (huniform : ∀ e ∈ es, e.2.toPattern.Uniform)
    (hroot : ∀ e ∈ root, e.2.toPattern.Uniform)
    (h : define (es.map offer) (root.map offer) n = .error e m) :
  e.TellsOfGrammar
  := by
  obtain hrules | ⟨rules, l, -, h⟩ := Build.bind_eq_error h
  · apply rulesOf_error huniform hrules
  · obtain hrootOf | ⟨r, k, -, h⟩ := Build.bind_eq_error h
    · apply rootOf_error hroot hrootOf
    · cases hundefined : undefined? rules r with
      | some missing =>
        rw [hundefined] at h
        cases h
        apply Error.undefinedRule_tellsOfGrammar
      | none =>
        rw [hundefined] at h
        cases h

/-! ### Dictionaries -/

/-- Whether the key of an entry stands for the root; which keys do is said by `isRootEntry_iff`. -/
def isRootEntry (e : Value × Value) : Bool :=
  (offer e).isRoot

/-- The keys of the root are the text `0`, the number zero and the floating-point zeros. -/
theorem isRootEntry_iff (e : Value × Value) :
  isRootEntry e = true
    ↔ e.1 = .text "0" ∨ e.1 = .int 0
      ∨ ∃ t, e.1 = .scalar (.float t) ∧ Decimal.integer? t = some 0
  := by
  obtain ⟨key, v⟩ := e
  simp only [isRootEntry, offer, Offer.isRoot]
  cases key with
  | scalar s =>
    cases s with
    | float t =>
      simp only [Value.alike, Value.agrees, Comparison.scalars, Scalar.alike, Scalar.canonical,
        Scalar.integer?]
      cases ht : Decimal.integer? t <;> simp [ht]
    | _ =>
      simp [Value.alike, Value.agrees, Comparison.scalars, Scalar.alike, Scalar.canonical,
        Scalar.integer?]
  | _ => simp [Value.alike, Value.agrees]

/-- The entries of a dictionary that are rules. -/
def ruleEntries (es : List (Value × Value)) : List (Value × Value) :=
  es.filter fun e => !isRootEntry e

/-- The entry of a dictionary that gives the root: the last one with a key for it, unless its value
is the null value. -/
def rootSource? (es : List (Value × Value)) : Option (Value × Value) :=
  (es.filter isRootEntry).getLast?.filter fun e => e.2 ≠ .null

theorem rootOffer?_offer (e : Value × Value) :
  rootOffer? (offer e) = if e.2 = .null then none else some (offer e)
  := by
  obtain ⟨key, v⟩ := e
  rw [rootOffer?]
  split
  · next hbody =>
    have hv : v = .null := hbody
    rw [if_pos hv]
  · next hbody =>
    have hv : v ≠ .null := hbody
    rw [if_neg hv]

/-- A dictionary is read as its rules and its root. -/
theorem toPattern_dict_eq (es : List (Value × Value)) (n : Nat) :
  (Value.dict es).toPattern n =
    match define ((ruleEntries es).map offer) ((rootSource? es).map offer) n with
    | .ok g m => .ok (.grammar g) m
    | .error e m => .error e m
  := by
  have hoffers : Value.offers es = es.map offer := Value.offers_eq_map es
  have hrules : (es.map offer).filter (fun o => !o.isRoot) = (ruleEntries es).map offer := by
    rw [List.filter_map]
    rfl
  have hroots : (es.map offer).filter Offer.isRoot = (es.filter isRootEntry).map offer := by
    rw [List.filter_map]
    rfl
  have hroot : ((es.filter isRootEntry).map offer).getLast?.bind rootOffer?
      = (rootSource? es).map offer := by
    rw [List.getLast?_map, rootSource?]
    cases (es.filter isRootEntry).getLast? with
    | none => rfl
    | some e =>
      rw [Option.map_some, Option.bind_some, rootOffer?_offer]
      by_cases hv : e.2 = .null <;> simp [hv, Option.filter]
  rw [Value.toPattern, ofOffers, hoffers, hrules, hroots, hroot]
  simp only [bind, EStateM.bind]
  cases define ((ruleEntries es).map offer) ((rootSource? es).map offer) n <;> rfl

theorem mem_of_mem_rootSource? {entry : Value × Value} (h : entry ∈ rootSource? es) :
  entry ∈ es
  := by
  have hlast := (Option.filter_eq_some_iff.1 h).1
  exact List.mem_of_mem_filter (List.mem_of_getLast? hlast)

end Grammar

/-! ### Values -/

theorem Scalar.toPattern_uniform (s : Scalar) :
  s.toPattern.Uniform
  := by
  unfold toPattern
  split
  · apply Build.Uniform.pure
  · apply Build.Uniform.pure
  · apply Build.Uniform.pure
  · apply Build.Uniform.pure
  · apply Build.Uniform.throw

/-- A dictionary makes a pattern at any time if its values do. -/
theorem Grammar.dict_uniform (h : ∀ e ∈ es, e.2.toPattern.Uniform) :
  (Value.dict es).toPattern.Uniform
  := by
  have hrules : ∀ e ∈ ruleEntries es, e.2.toPattern.Uniform :=
    fun e he => h e (List.mem_of_mem_filter he)
  have hroot : ∀ e ∈ rootSource? es, e.2.toPattern.Uniform :=
    fun e he => h e (mem_of_mem_rootSource? he)
  constructor
  · intro n p m hp n'
    rw [toPattern_dict_eq] at hp
    cases hg : define ((ruleEntries es).map offer) ((rootSource? es).map offer) n with
    | error e l => simp [hg] at hp
    | ok g l =>
      rw [hg] at hp
      cases hp
      obtain ⟨g', m', hg'⟩ := define_eq_ok_of_definable (definable_of_define hg) hrules hroot n'
      use .grammar g', m'
      rw [toPattern_dict_eq, hg', Pattern.references_grammar, Pattern.references_grammar]
      exact ⟨rfl, rfl⟩
  · intro n e m he
    rw [toPattern_dict_eq] at he
    cases hg : define ((ruleEntries es).map offer) ((rootSource? es).map offer) n with
    | ok g l => simp [hg] at he
    | error e' l =>
      rw [hg] at he
      cases he
      exact .inr (define_error hrules hroot hg)

mutual

/-- Patterns are made of values at any time. -/
theorem Value.toPattern_uniform : ∀ v : Value, v.toPattern.Uniform
  | .pattern p => .pure p
  | .scalar s => s.toPattern_uniform
  | .dict es => Grammar.dict_uniform (Value.entries_uniform es)
  | .list _ => .throw _
  | .tuple _ => .throw _
  | .table _ _ => .throw _
  | .grammar _ => .throw _

theorem Value.entries_uniform :
    ∀ es : List (Value × Value), ∀ e ∈ es, e.2.toPattern.Uniform
  | [] => List.forall_mem_nil _
  | (_, v) :: es =>
    List.forall_mem_cons.2 ⟨Value.toPattern_uniform v, Value.entries_uniform es⟩

end

/-- What a dictionary makes, read as rules and a root.  It makes a pattern exactly if a grammar can
be defined of these.  The pattern is a grammar whose rules are those of the entries, in order, and
which starts where the entry for the root says, or at the first rule when there is none.  Otherwise
the dictionary is refused with an error that tells of an invalid grammar. -/
theorem Value.toPattern_dict (es : List (Value × Value)) (n : Nat) :
  ((∃ p m, (Value.dict es).toPattern n = .ok p m)
      ↔ Grammar.Definable (Grammar.ruleEntries es) (Grammar.rootSource? es))
    ∧ (∀ p m, (Value.dict es).toPattern n = .ok p m →
      ∃ g, p = .grammar g ∧ Grammar.Reads (Grammar.ruleEntries es) g.rules
        ∧ Grammar.ReadsRoot g.rules (Grammar.rootSource? es) g.root)
    ∧ ∀ e m, (Value.dict es).toPattern n = .error e m → e.TellsOfGrammar
  := by
  have hrules : ∀ e ∈ Grammar.ruleEntries es, e.2.toPattern.Uniform :=
    fun e _ => e.2.toPattern_uniform
  have hroot : ∀ e ∈ Grammar.rootSource? es, e.2.toPattern.Uniform :=
    fun e _ => e.2.toPattern_uniform
  have heq := Grammar.toPattern_dict_eq es n
  cases hg : Grammar.define ((Grammar.ruleEntries es).map Grammar.offer)
      ((Grammar.rootSource? es).map Grammar.offer) n with
  | ok g m =>
    rw [hg] at heq
    have hdefinable := Grammar.definable_of_define hg
    rw [heq]
    refine ⟨⟨fun _ => hdefinable, fun _ => ⟨_, _, rfl⟩⟩, ?_, ?_⟩
    · rintro p m' ⟨⟩
      exact ⟨g, rfl, Grammar.reads_of_define hg⟩
    · rintro e m' ⟨⟩
  | error e m =>
    rw [hg] at heq
    rw [heq]
    refine ⟨⟨?_, ?_⟩, ?_, ?_⟩
    · rintro ⟨p, m', ⟨⟩⟩
    · intro hdefinable
      obtain ⟨g, m', hg'⟩ := Grammar.define_eq_ok_of_definable hdefinable hrules hroot n
      rw [hg] at hg'
      cases hg'
    · rintro p m' ⟨⟩
    · rintro e' m' ⟨⟩
      apply Grammar.define_error hrules hroot hg

/-- A dictionary with a rule, and the null value under the key of the root. -/
def nullRooted : Value :=
  .dict [(.text "0", .null), (.text "a", .text "x")]

/-- A dictionary with two rules, and the name of the second one under a floating-point zero. -/
def zeroRooted : Value :=
  .dict [(.scalar (.float "0.0"), .text "b"), (.text "a", .text "x"), (.text "b", .text "y")]

/-- The null value makes no pattern, and a floating-point number names no rule.  Both dictionaries
are accepted all the same: the first one starts at its first rule, as if it had no root, and the
second one at the rule that is named under the number. -/
theorem Value.toPattern_dict_oddRoots :
  (∀ n p m, Value.null.toPattern n ≠ .ok p m)
    ∧ nullRooted.toPattern 0 = .ok (.grammar ⟨0, [("a", .literal "x")], .rule "a"⟩) 1
    ∧ zeroRooted.toPattern 0
      = .ok (.grammar ⟨0, [("a", .literal "x"), ("b", .literal "y")], .rule "b"⟩) 1
  := by
  refine ⟨?_, ?_, ?_⟩
  · rintro n p m ⟨⟩
  · with_unfolding_all rfl
  · with_unfolding_all rfl

end Peg
