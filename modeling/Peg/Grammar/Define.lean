import Peg.Build
import Peg.Grammar.References
import Peg.Value.Comparison

/-!
# Defining grammars

A grammar is defined from offered rules and an optional root.  Each offer has a key, which must
be the name of a rule, and a body, which must make a pattern.  The root is the name of a rule or
else makes a pattern of its own; without a root matching starts at the first rule.

`Grammar.define` accepts only grammars in which every reference names a rule, and otherwise
reports the first reference that does not, reading the rules in order and then the root.
`Grammar.ofOffers` first separates the root from the rules by its key.
-/

namespace Peg

/-- An entry offered to a grammar: a key, a body, and the construction of the pattern that the
body stands for. -/
structure Offer where
  key : Value
  body : Value
  pattern : Build Pattern

namespace Offer

/-- Whether the key of an offer stands for the root: the text `0` or the number zero, but not a
truth value. -/
def isRoot (o : Offer) : Bool :=
  match o.key with
  | .bool _ => false
  | k => k.alike (.text "0") || k.alike (.int 0)

/-- The name of the rule that an offer defines. -/
def ruleName (o : Offer) : Build String :=
  match o.key with
  | .text name =>
    if name = "" then throw (.grammar (.ruleName o.key))
    else if name = "0" then throw (.grammar .reservedName)
    else pure name
  | _ => throw (.grammar (.ruleName o.key))

/-- An error met in the body of a rule: a fault in a pattern is a fault in the grammar there. -/
def errorIn (rule : String) : Error → Error
  | .pattern f => .grammar (.ruleBody rule f)
  | e => e

/-- The pattern of an offer as the body of a rule. -/
def patternFor (o : Offer) (rule : String) : Build Pattern :=
  o.pattern.mapError (errorIn rule)

end Offer

namespace Grammar

/-- The rules that offers define, in order. -/
def rulesOf : List Offer → Build (List (String × Pattern))
  | [] => pure []
  | o :: os => do
    let name ← o.ruleName
    let body ← o.patternFor name
    let rules ← rulesOf os
    return (name, body) :: rules

/-- The root of a grammar with given rules. -/
def rootOf (rules : List (String × Pattern)) (root : Option Offer) : Build Root :=
  match rules, root with
  | [], _ => throw (.grammar .noRules)
  | (first, _) :: _, none => pure (.rule first)
  | _, some o =>
    match o.body with
    | .text name =>
      if (rules.lookup name).isSome then pure (.rule name)
      else throw (.undefinedRule name (some .root))
    | _ => do
      let p ← o.patternFor "0"
      return .inline p

/-- The first reference of a pattern that names none of the rules. -/
def undefinedIn? (rules : List (String × Pattern)) (p : Pattern) : Option String :=
  p.references.find? fun name => (rules.lookup name).isNone

/-- The patterns of a grammar with the places where they stand. -/
def bodies (rules : List (String × Pattern)) (root : Root) : List (Site × Pattern) :=
  rules.map (fun r => (.rule r.1, r.2)) ++
    match root with
    | .rule _ => []
    | .inline p => [(.root, p)]

/-- The first reference in a grammar that names none of its rules, with its place. -/
def undefined? (rules : List (String × Pattern)) (root : Root) : Option (String × Site) :=
  (bodies rules root).findSome? fun b => (undefinedIn? rules b.2).map fun name => (name, b.1)

/-- Defines a grammar from the offers of its rules and of its root, if it has one. -/
def define (offers : List Offer) (root : Option Offer) : Build Grammar := do
  let rules ← rulesOf offers
  let root ← rootOf rules root
  match undefined? rules root with
  | some (name, site) => throw (.undefinedRule name (some site))
  | none =>
    let ident ← Build.fresh
    return ⟨ident, rules, root⟩

/-- The offer of a root, unless its body is the null value, which offers none. -/
def rootOffer? (o : Offer) : Option Offer :=
  match o.body with
  | .null => none
  | _ => some o

/-- Defines a grammar from offers among which the last one with the key of the root, if any,
offers the root. -/
def ofOffers (offers : List Offer) : Build Grammar :=
  define (offers.filter fun o => !o.isRoot)
    ((offers.filter Offer.isRoot).getLast?.bind rootOffer?)

end Grammar

end Peg
