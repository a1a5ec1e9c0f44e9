import Peg.Grammar.Define
import Peg.Value.Hashable

/-!
# Making patterns from values

`Value.toPattern` makes the pattern that a value stands for: a pattern stands for itself, a
truth value always or never matches, a natural number stands for so many characters, a negative
one for the lack of them, a text for itself, and a dictionary for a grammar.

A `Constructor` makes a pattern or a grammar from arguments, and checks them so that whatever it
makes is well formed.
-/

namespace Peg

/-- The pattern that a scalar stands for. -/
def Scalar.toPattern : Scalar → Build Pattern
  | .bool b => pure (.truth b)
  | .int (.ofNat n) => pure (.anyChars n)
  | .int (.negSucc n) => pure (.fewerThan (n + 1))
  | .text s => pure (.literal s)
  | s => throw (.pattern (.notAPattern (.scalar s)))

mutual

/-- The pattern that a value stands for. -/
def Value.toPattern : Value → Build Pattern
  | .pattern p => pure p
  | .scalar s => s.toPattern
  | .dict es => do
    let g ← Grammar.ofOffers (Value.offers es)
    return .grammar g
  | .list xs => throw (.pattern (.notAPattern (.list xs)))
  | .tuple xs => throw (.pattern (.notAPattern (.tuple xs)))
  | .table xs fs => throw (.pattern (.notAPattern (.table xs fs)))
  | .grammar g => throw (.pattern (.notAPattern (.grammar g)))
termination_by structural v => v

/-- The entries of a dictionary as offers to a grammar. -/
def Value.offers : List (Value × Value) → List Offer
  | [] => []
  | (k, v) :: es => ⟨k, v, v.toPattern⟩ :: Value.offers es
termination_by structural es => es

end

/-- The patterns that some values stand for, made in order. -/
def Value.toPatterns : List Value → Build (List Pattern)
  | [] => pure []
  | v :: vs => do
    let p ← v.toPattern
    let ps ← Value.toPatterns vs
    return p :: ps

namespace Pattern

/-- Patterns combined to the right: the first one with all others combined. -/
def combine (op : Pattern → Pattern → Pattern) (p : Pattern) : List Pattern → Pattern
  | [] => p
  | q :: qs => op p (combine op q qs)

/-- The patterns that some values stand for, combined by a named operation. -/
def combination (name : String) (op : Pattern → Pattern → Pattern) (args : List Value) :
    Build Pattern := do
  match ← Value.toPatterns args with
  | [] => throw (.pattern (.noOperand name))
  | p :: ps => return combine op p ps

/-- The member of a set that the key of a dictionary gives. -/
def setMember (key : Value) : Build Char :=
  match key with
  | .text s =>
    match s.toList with
    | [c] => pure c
    | _ => throw (.pattern (.setMember key))
  | _ => throw (.pattern (.setMember key))

/-- A set of characters, given by a text that holds them or by a dictionary with them as
keys. -/
def ofSet : Value → Build Pattern
  | .text s => pure (.charSet (.ofList s.toList))
  | .dict es => do
    let cs ← es.mapM fun e => setMember e.1
    return .charSet (.ofList cs)
  | v => throw (.pattern (.setSource v))

/-- A range of characters, given by a text of its two ends. -/
def range (arg : Value) : Build (Char × Char) :=
  match arg with
  | .text s =>
    match s.toList with
    | [lo, hi] =>
      if lo.toNat ≤ hi.toNat then pure (lo, hi) else throw (.pattern (.emptyRange s))
    | _ => throw (.pattern (.rangeShape arg))
  | _ => throw (.pattern (.rangeShape arg))

/-- The texts of ranges: the arguments, or the members of a single list or tuple. -/
def rangeTexts : List Value → List Value
  | [.list xs] => xs
  | [.tuple xs] => xs
  | args => args

/-- A choice of ranges of characters. -/
def ofRanges (args : List Value) : Build Pattern := do
  match rangeTexts args with
  | [] => throw (.pattern .noRange)
  | texts =>
    let ranges ← texts.mapM range
    return .charRange ranges

/-- The selector which the key of a field stands for. -/
def selector : Value → Build Selector
  | .pattern p => pure (.pattern p)
  | .text s => pure (.literal (.text s))
  | .int i => pure (.literal (.int i))
  | v => throw (.pattern (.fieldKey v))

/-- A field with a given key and value. -/
def ofField (key value : Value) : Build Pattern := do
  let k ← selector key
  let v ← value.toPattern
  return .field k v

/-- A reference to a rule. -/
def ofRuleName (name : Value) : Build Pattern :=
  match name with
  | .text s => if s = "" then throw (.pattern (.ruleName name)) else pure (.ruleRef s)
  | _ => throw (.pattern (.ruleName name))

/-- The bound that an integer stands for: at least so many, or at most so many when it is
negative. -/
def bound (arg : Value) : Build Bound :=
  match arg with
  | .int (.ofNat n) => pure (.atLeast n)
  | .int (.negSucc n) => pure (.atMost (n + 1))
  | _ => throw (.pattern (.bound arg))

/-- A repetition. -/
def ofRepetition (body times : Value) : Build Pattern := do
  let b ← bound times
  let p ← body.toPattern
  return .repetition p b

/-- A group, with a name for its captures. -/
def ofGroup (body name : Value) : Build Pattern :=
  match name with
  | .text s =>
    if s = "" then throw (.pattern (.groupName name))
    else do
      let p ← body.toPattern
      return .group p s
  | _ => throw (.pattern (.groupName name))

end Pattern

/-- A grammar with rules and a root given by values. -/
def Grammar.ofValues (rules root : Value) : Build Grammar :=
  match rules with
  | .dict es =>
    define (Value.offers es) (rootOffer? ⟨.text "0", root, root.toPattern⟩)
  | v => throw (.grammar (.notRules v))

/-- The ways of making patterns and grammars. -/
inductive Constructor where
  /-- The pattern that a value stands for. -/
  | pattern
  /-- A set of characters. -/
  | set
  /-- Ranges of characters. -/
  | range
  /-- A field of an object. -/
  | field
  /-- A reference to a rule. -/
  | rule
  /-- Patterns one after the other. -/
  | sequence
  /-- Patterns as alternatives. -/
  | choice
  /-- A repetition. -/
  | repetition
  /-- A pattern without another one. -/
  | difference
  /-- The failure of a pattern. -/
  | invert
  /-- A pattern ahead. -/
  | lookahead
  /-- A capture of what a pattern matches. -/
  | span
  /-- A capture of a fixed value. -/
  | const
  /-- A capture of the place. -/
  | position
  /-- Named captures. -/
  | group
  /-- Captures in a table. -/
  | collect
  /-- A grammar. -/
  | grammar
deriving DecidableEq

namespace Constructor

/-- The arguments that a constructor takes.  A range, a sequence and a choice take any number of
them, whatever is said here. -/
def signature : Constructor → Signature
  | pattern => ⟨"P", ["arg"], 0⟩
  | set => ⟨"S", ["arg"], 0⟩
  | range => ⟨"R", [], 0⟩
  | field => ⟨"O", ["key"], 1⟩
  | rule => ⟨"V", ["name"], 0⟩
  | sequence => ⟨"and_", [], 0⟩
  | choice => ⟨"or_", [], 0⟩
  | repetition => ⟨"rep", ["pattern"], 1⟩
  | difference => ⟨"sub", ["pattern", "excluded"], 0⟩
  | invert => ⟨"invert", ["pattern"], 0⟩
  | lookahead => ⟨"lookahead", ["pattern"], 0⟩
  | span => ⟨"C", ["pattern"], 0⟩
  | const => ⟨"Cc", ["value"], 0⟩
  | position => ⟨"Cp", [], 0⟩
  | group => ⟨"Cg", ["pattern", "name"], 0⟩
  | collect => ⟨"Ct", ["pattern"], 0⟩
  | grammar => ⟨"define_grammar", ["rules"], 1⟩

/-- The name under which messages speak of a constructor. -/
def name (c : Constructor) : String :=
  c.signature.name

/-- A pattern made around the one that a value stands for. -/
def wrap (f : Pattern → Pattern) (body : Value) : Build Value := do
  let p ← body.toPattern
  return .pattern (f p)

/-- A pattern as a value. -/
def asValue (x : Build Pattern) : Build Value := do
  let p ← x
  return .pattern p

/-- Applies a constructor to arguments. -/
def apply : Constructor → List Value → Build Value
  | pattern, [v] => asValue v.toPattern
  | set, [v] => asValue (Pattern.ofSet v)
  | range, vs => asValue (Pattern.ofRanges vs)
  | field, [k] => asValue (Pattern.ofField k (.bool true))
  | field, [k, v] => asValue (Pattern.ofField k v)
  | rule, [v] => asValue (Pattern.ofRuleName v)
  | sequence, vs => asValue (Pattern.combination sequence.name .sequence vs)
  | choice, vs => asValue (Pattern.combination choice.name .choice vs)
  | repetition, [v] => asValue (Pattern.ofRepetition v (.int 0))
  | repetition, [v, n] => asValue (Pattern.ofRepetition v n)
  | difference, [v, w] => asValue do
    let p ← v.toPattern
    let q ← w.toPattern
    return .difference p q
  | invert, [v] => wrap .invert v
  | lookahead, [v] => wrap .lookahead v
  | span, [v] => wrap .span v
  | const, [v] => pure (.pattern (.const v))
  | position, [] => pure (.pattern .position)
  | group, [v, n] => asValue (Pattern.ofGroup v n)
  | collect, [v] => wrap .collect v
  | grammar, [rules] => do
    let g ← Grammar.ofValues rules .null
    return .grammar g
  | grammar, [rules, root] => do
    let g ← Grammar.ofValues rules root
    return .grammar g
  | c, vs => throw (.argumentCount c.signature vs.length)

end Constructor

end Peg
