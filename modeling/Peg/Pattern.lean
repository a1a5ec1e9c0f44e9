import Peg.CharSet
import Peg.Scalar

/-!
# Values, patterns and grammars

The three kinds of data of the library depend on one another.  A `Value` is what a pattern is
matched against, what it captures, and what patterns are made from; patterns and grammars are
themselves values.  A `Pattern` describes a match of a text or of an object.  A `Grammar` is a
list of named patterns, which refer to one another by name, with a root where matching starts.

A grammar carries a number `ident`, drawn when it was made.  Two grammars made separately from
the same rules differ in it.
-/

namespace Peg

/-- The key of a field that a pattern looks up: a text or an integer. -/
inductive FieldName where
  | text (value : String)
  | int (value : Int)
deriving DecidableEq

/-- How often a repetition matches its body. -/
inductive Bound where
  /-- As often as possible, and at least `n` times. -/
  | atLeast (n : Nat)
  /-- As often as possible, but at most `n` times. -/
  | atMost (n : Nat)
deriving DecidableEq

mutual

/-- A value: a subject of matching, a captured value or an argument of a construction. -/
inductive Value where
  /-- A value without parts. -/
  | scalar (s : Scalar)
  /-- A list. -/
  | list (items : List Value)
  /-- A tuple; no tuple equals a list. -/
  | tuple (items : List Value)
  /-- A dictionary: keys with their values, in the order in which the keys were first
  written. -/
  | dict (entries : List (Value × Value))
  /-- A table of captures: the unnamed ones in order, and the named ones as fields. -/
  | table (items : List Value) (fields : List (Value × Value))
  /-- A pattern. -/
  | pattern (p : Pattern)
  /-- A grammar. -/
  | grammar (g : Grammar)

/-- The choice of the fields of an object that a pattern looks at. -/
inductive Selector where
  /-- The field with this key. -/
  | literal (key : FieldName)
  /-- The fields whose key, as a text, matches this pattern. -/
  | pattern (p : Pattern)

/-- A pattern. -/
inductive Pattern where
  /-- Exactly this text. -/
  | literal (text : String)
  /-- Always or never matches, without consuming. -/
  | truth (value : Bool)
  /-- Exactly `count` characters. -/
  | anyChars (count : Nat)
  /-- Fewer than `count` characters remain; consumes nothing. -/
  | fewerThan (count : Nat)
  /-- One character of a set. -/
  | charSet (chars : CharSet)
  /-- One character within one of these inclusive ranges. -/
  | charRange (ranges : List (Char × Char))
  /-- An object with a field which is selected by `key` and matched by `value`. -/
  | field (key : Selector) (value : Pattern)
  /-- The first pattern, and then the second one where the first one stopped. -/
  | sequence (first second : Pattern)
  /-- The first pattern, or if it fails the second one. -/
  | choice (first second : Pattern)
  /-- A pattern repeated. -/
  | repetition (body : Pattern) (bound : Bound)
  /-- A pattern where the excluded one fails. -/
  | difference (body excluded : Pattern)
  /-- Succeeds without consuming where the body fails. -/
  | invert (body : Pattern)
  /-- Succeeds without consuming where the body matches. -/
  | lookahead (body : Pattern)
  /-- The rule of that name of the enclosing grammar. -/
  | ruleRef (name : String)
  /-- The root of a grammar, with its rules in scope. -/
  | grammar (g : Grammar)
  /-- Captures what the body matches. -/
  | span (body : Pattern)
  /-- Captures a fixed value. -/
  | const (value : Value)
  /-- Captures where it stands: the position in a text, or the path of an object. -/
  | position
  /-- Names all captures of the body. -/
  | group (body : Pattern) (name : String)
  /-- Puts all captures of the body into one table. -/
  | collect (body : Pattern)

/-- Where the matching of a grammar starts. -/
inductive Root where
  /-- At the rule of that name. -/
  | rule (name : String)
  /-- At a pattern of its own. -/
  | inline (p : Pattern)

/-- Named rules and a root. -/
structure Grammar where
  /-- The number that tells this grammar apart from those made separately. -/
  ident : Nat
  /-- The rules, in the order in which they were given. -/
  rules : List (String × Pattern)
  /-- Where matching starts. -/
  root : Root

end

namespace Value

/-- The null value. -/
@[match_pattern]
abbrev null : Value := .scalar .null

/-- A truth value. -/
@[match_pattern]
abbrev bool (b : Bool) : Value := .scalar (.bool b)

/-- An integer. -/
@[match_pattern]
abbrev int (i : Int) : Value := .scalar (.int i)

/-- A text. -/
@[match_pattern]
abbrev text (s : String) : Value := .scalar (.text s)

/-- Whether a value counts as true: all do but the null value, `false`, zero and the values
without content. -/
def isTruthy : Value → Bool
  | .scalar s => s.isTruthy
  | .list xs => !xs.isEmpty
  | .tuple xs => !xs.isEmpty
  | .dict es => !es.isEmpty
  | .table xs _ => !xs.isEmpty
  | .pattern _ => true
  | .grammar _ => true

end Value

/-- The key of a looked-up field as a value. -/
def FieldName.value : FieldName → Value
  | .text s => .text s
  | .int i => .int i

namespace Grammar

/-- The body of the rule of a given name. -/
def rule? (g : Grammar) (name : String) : Option Pattern :=
  g.rules.lookup name

/-- The name of the rule at which a grammar starts, if its root is a rule. -/
def rootName? (g : Grammar) : Option String :=
  match g.root with
  | .rule name => some name
  | .inline _ => none

/-- The pattern at which a grammar starts, unless its root names no rule. -/
def rootPattern? (g : Grammar) : Option Pattern :=
  match g.root with
  | .rule name => g.rule? name
  | .inline p => some p

end Grammar

end Peg
