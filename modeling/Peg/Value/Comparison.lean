import Peg.Pattern

/-!
# Comparing values, patterns and grammars

Two values are *alike* when they have the same content: scalars that are alike, lists and
tuples with alike members in the same order, dictionaries with alike entries in any order,
tables with alike items and fields, and patterns of the same shape with alike constants.
Grammars are alike only when they are the same grammar, so that grammars made separately are
told apart by their numbers.

`Value.agrees` decides both likeness and plain equality; the first argument tells which.  That
it decides equality is `Value.agrees_identical`, which gives the instances of `DecidableEq`.
-/

namespace Peg

/-- The two ways of comparing values. -/
inductive Comparison where
  /-- Nothing is told apart but what differs in some way. -/
  | identical
  /-- Values are told apart by their content. -/
  | alike
deriving DecidableEq

/-- The comparison of scalars. -/
def Comparison.scalars : Comparison → Scalar → Scalar → Bool
  | .identical, s, t => s == t
  | .alike, s, t => s.alike t

mutual

/-- Whether two values agree in a comparison. -/
def Value.agrees : Comparison → Value → Value → Bool
  | c, .scalar s, .scalar t => c.scalars s t
  | c, .list xs, .list ys => Value.listAgrees c xs ys
  | c, .tuple xs, .tuple ys => Value.listAgrees c xs ys
  | c, .dict es, .dict fs =>
    match c with
    | .identical => Value.entriesMatch es fs
    | .alike => Value.entriesWithin es fs && fs.all (fun f => Value.entryAmong es f)
  | c, .table xs es, .table ys fs =>
    Value.listAgrees c xs ys &&
      match c with
      | .identical => Value.entriesMatch es fs
      | .alike => Value.entriesWithin es fs && fs.all (fun f => Value.entryAmong es f)
  | c, .pattern p, .pattern q => p.agrees c q
  | _, .grammar g, .grammar h => g.agrees h
  | _, _, _ => false
termination_by structural _ v => v

/-- Whether two lists of values agree member by member. -/
def Value.listAgrees : Comparison → List Value → List Value → Bool
  | _, [], [] => true
  | c, x :: xs, y :: ys => x.agrees c y && Value.listAgrees c xs ys
  | _, _, _ => false
termination_by structural _ xs => xs

/-- Whether two lists of entries are identical entry by entry. -/
def Value.entriesMatch : List (Value × Value) → List (Value × Value) → Bool
  | [], [] => true
  | (k, v) :: es, f :: fs =>
    k.agrees .identical f.1 && v.agrees .identical f.2 && Value.entriesMatch es fs
  | _, _ => false
termination_by structural es => es

/-- Whether each of some entries has an entry alike to it among others. -/
def Value.entriesWithin : List (Value × Value) → List (Value × Value) → Bool
  | [], _ => true
  | (k, v) :: es, fs =>
    fs.any (fun f => k.agrees .alike f.1 && v.agrees .alike f.2) && Value.entriesWithin es fs
termination_by structural es => es

/-- Whether one of some entries is alike to a given entry. -/
def Value.entryAmong : List (Value × Value) → Value × Value → Bool
  | [], _ => false
  | (k, v) :: es, f =>
    k.agrees .alike f.1 && v.agrees .alike f.2 || Value.entryAmong es f
termination_by structural es => es

/-- Whether two selectors agree in a comparison. -/
def Selector.agrees : Comparison → Selector → Selector → Bool
  | _, .literal k, .literal l => k == l
  | c, .pattern p, .pattern q => p.agrees c q
  | _, _, _ => false
termination_by structural _ k => k

/-- Whether two patterns agree in a comparison. -/
def Pattern.agrees : Comparison → Pattern → Pattern → Bool
  | _, .literal s, .literal t => s == t
  | _, .truth a, .truth b => a == b
  | _, .anyChars m, .anyChars n => m == n
  | _, .fewerThan m, .fewerThan n => m == n
  | _, .charSet s, .charSet t => s == t
  | _, .charRange r, .charRange s => r == s
  | c, .field k v, .field l w => k.agrees c l && v.agrees c w
  | c, .sequence p q, .sequence r s => p.agrees c r && q.agrees c s
  | c, .choice p q, .choice r s => p.agrees c r && q.agrees c s
  | c, .repetition p m, .repetition q n => p.agrees c q && m == n
  | c, .difference p q, .difference r s => p.agrees c r && q.agrees c s
  | c, .invert p, .invert q => p.agrees c q
  | c, .lookahead p, .lookahead q => p.agrees c q
  | _, .ruleRef m, .ruleRef n => m == n
  | _, .grammar g, .grammar h => g.agrees h
  | c, .span p, .span q => p.agrees c q
  | c, .const v, .const w => v.agrees c w
  | _, .position, .position => true
  | c, .group p m, .group q n => p.agrees c q && m == n
  | c, .collect p, .collect q => p.agrees c q
  | _, _, _ => false
termination_by structural _ p => p

/-- Whether two roots are identical. -/
def Root.agrees : Root → Root → Bool
  | .rule m, .rule n => m == n
  | .inline p, .inline q => p.agrees .identical q
  | _, _ => false
termination_by structural r => r

/-- Whether two grammars are identical. -/
def Grammar.agrees : Grammar → Grammar → Bool
  | ⟨i, rs, r⟩, h => i == h.ident && r.agrees h.root && Grammar.rulesAgree rs h.rules
termination_by structural g => g

/-- Whether two lists of rules are identical. -/
def Grammar.rulesAgree : List (String × Pattern) → List (String × Pattern) → Bool
  | [], [] => true
  | (m, p) :: rs, s :: ss => m == s.1 && p.agrees .identical s.2 && Grammar.rulesAgree rs ss
  | _, _ => false
termination_by structural rs => rs

end

/-- Whether two values have the same content. -/
def Value.alike (v w : Value) : Bool :=
  v.agrees .alike w

/-- Whether two patterns have the same shape and constants with the same content. -/
def Pattern.alike (p q : Pattern) : Bool :=
  p.agrees .alike q

/-! ### Identical is equal -/

mutual

theorem Value.agrees_identical : ∀ (v w : Value), v.agrees .identical w = true ↔ v = w
  | .scalar s, w => by cases w <;> simp [Value.agrees, Comparison.scalars]
  | .list xs, w => by cases w <;> simp [Value.agrees, Value.listAgrees_identical xs]
  | .tuple xs, w => by cases w <;> simp [Value.agrees, Value.listAgrees_identical xs]
  | .dict es, w => by
    cases w <;> simp [Value.agrees, Value.entriesMatch_iff es]
  | .table xs es, w => by
    cases w <;>
      simp [Value.agrees, Value.entriesMatch_iff es,
        Value.listAgrees_identical xs]
  | .pattern p, w => by cases w <;> simp [Value.agrees, Pattern.agrees_identical p]
  | .grammar g, w => by cases w <;> simp [Value.agrees, Grammar.agrees_iff g]

theorem Value.listAgrees_identical :
    ∀ (xs ys : List Value), Value.listAgrees .identical xs ys = true ↔ xs = ys
  | [], ys => by cases ys <;> simp [Value.listAgrees]
  | x :: xs, ys => by
    cases ys <;>
      simp [Value.listAgrees, Value.agrees_identical x,
        Value.listAgrees_identical xs]

theorem Value.entriesMatch_iff :
    ∀ (es fs : List (Value × Value)), Value.entriesMatch es fs = true ↔ es = fs
  | [], fs => by cases fs <;> simp [Value.entriesMatch]
  | (k, v) :: es, fs => by
    cases fs <;>
      simp [Value.entriesMatch, Value.agrees_identical k,
        Value.agrees_identical v, Value.entriesMatch_iff es, Prod.ext_iff]

theorem Selector.agrees_identical :
    ∀ (k l : Selector), k.agrees .identical l = true ↔ k = l
  | .literal k, l => by cases l <;> simp [Selector.agrees]
  | .pattern p, l => by
    cases l <;> simp [Selector.agrees, Pattern.agrees_identical p]

theorem Pattern.agrees_identical : ∀ (p q : Pattern), p.agrees .identical q = true ↔ p = q
  | .literal _, q => by cases q <;> simp [Pattern.agrees]
  | .truth _, q => by cases q <;> simp [Pattern.agrees]
  | .anyChars _, q => by cases q <;> simp [Pattern.agrees]
  | .fewerThan _, q => by cases q <;> simp [Pattern.agrees]
  | .charSet _, q => by cases q <;> simp [Pattern.agrees]
  | .charRange _, q => by cases q <;> simp [Pattern.agrees]
  | .field k v, q => by
    cases q <;>
      simp [Pattern.agrees, Selector.agrees_identical k,
        Pattern.agrees_identical v]
  | .sequence a b, q => by
    cases q <;>
      simp [Pattern.agrees, Pattern.agrees_identical a,
        Pattern.agrees_identical b]
  | .choice a b, q => by
    cases q <;>
      simp [Pattern.agrees, Pattern.agrees_identical a,
        Pattern.agrees_identical b]
  | .repetition a _, q => by
    cases q <;> simp [Pattern.agrees, Pattern.agrees_identical a]
  | .difference a b, q => by
    cases q <;>
      simp [Pattern.agrees, Pattern.agrees_identical a,
        Pattern.agrees_identical b]
  | .invert a, q => by cases q <;> simp [Pattern.agrees, Pattern.agrees_identical a]
  | .lookahead a, q => by
    cases q <;> simp [Pattern.agrees, Pattern.agrees_identical a]
  | .ruleRef _, q => by cases q <;> simp [Pattern.agrees]
  | .grammar g, q => by cases q <;> simp [Pattern.agrees, Grammar.agrees_iff g]
  | .span a, q => by cases q <;> simp [Pattern.agrees, Pattern.agrees_identical a]
  | .const v, q => by cases q <;> simp [Pattern.agrees, Value.agrees_identical v]
  | .position, q => by cases q <;> simp [Pattern.agrees]
  | .group a _, q => by cases q <;> simp [Pattern.agrees, Pattern.agrees_identical a]
  | .collect a, q => by cases q <;> simp [Pattern.agrees, Pattern.agrees_identical a]

theorem Root.agrees_iff : ∀ (r s : Root), r.agrees s = true ↔ r = s
  | .rule _, s => by cases s <;> simp [Root.agrees]
  | .inline p, s => by cases s <;> simp [Root.agrees, Pattern.agrees_identical p]

theorem Grammar.agrees_iff : ∀ (g h : Grammar), g.agrees h = true ↔ g = h
  | ⟨i, rs, r⟩, ⟨j, ss, s⟩ => by
    simp [Grammar.agrees, Root.agrees_iff r, Grammar.rulesAgree_iff rs, and_assoc,
      and_comm]

theorem Grammar.rulesAgree_iff :
    ∀ (rs ss : List (String × Pattern)), Grammar.rulesAgree rs ss = true ↔ rs = ss
  | [], ss => by cases ss <;> simp [Grammar.rulesAgree]
  | (m, p) :: rs, ss => by
    cases ss <;>
      simp [Grammar.rulesAgree, Pattern.agrees_identical p,
        Grammar.rulesAgree_iff rs, Prod.ext_iff]

end

instance : DecidableEq Value := fun _ _ => decidable_of_iff _ (Value.agrees_identical _ _)
instance : DecidableEq Pattern := fun _ _ => decidable_of_iff _ (Pattern.agrees_identical _ _)
instance : DecidableEq Grammar := fun _ _ => decidable_of_iff _ (Grammar.agrees_iff _ _)

end Peg
