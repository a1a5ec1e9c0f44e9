import Peg.Signature
import Peg.Value.Display

/-!
# Errors

Every error of the library is an `Error`, which says what was wrong.  `Error.message` words it,
`Error.kind` sorts it into the hierarchy of kinds, and `Error.report` puts both together with
the details that a caller can read off.

There are two families, apart from mistakes in the use of a table or of the entry points.
Building a pattern or a grammar can fail (`PatternFault`, `GrammarFault` and undefined rules),
and a match can be stopped (`Fault`).  A match that merely fails is not an error.
-/

namespace Peg

/-- The kinds of errors. -/
inductive ErrorKind where
  | peg
  | invalidPattern
  | invalidGrammar
  | undefinedRule
  | exhausted
  | depthExceeded
  | stepsExceeded
  | leftRecursion
  | type
  | value
  | key
  | index
deriving DecidableEq

namespace ErrorKind

/-- The name of a kind. -/
def name : ErrorKind → String
  | peg => "PegError"
  | invalidPattern => "InvalidPatternArgument"
  | invalidGrammar => "InvalidGrammarDefinition"
  | undefinedRule => "UndefinedRule"
  | exhausted => "ResourceExhausted"
  | depthExceeded => "MatchDepthExceeded"
  | stepsExceeded => "MatchStepsExceeded"
  | leftRecursion => "LeftRecursionDetected"
  | type => "TypeError"
  | value => "ValueError"
  | key => "KeyError"
  | index => "IndexError"

/-- All kinds. -/
def all : List ErrorKind :=
  [peg, invalidPattern, invalidGrammar, undefinedRule, exhausted, depthExceeded, stepsExceeded,
    leftRecursion, type, value, key, index]

/-- The kind of a given name. -/
def ofName? (s : String) : Option ErrorKind :=
  all.find? fun k => k.name == s

/-- The names of a kind and of the ever wider kinds it belongs to. -/
def lineage : ErrorKind → List String
  | peg => ["PegError", "Exception"]
  | invalidPattern => ["InvalidPatternArgument", "PegError", "ValueError", "Exception"]
  | invalidGrammar => ["InvalidGrammarDefinition", "PegError", "ValueError", "Exception"]
  | undefinedRule =>
    ["UndefinedRule", "InvalidGrammarDefinition", "PegError", "ValueError", "Exception"]
  | exhausted => ["ResourceExhausted", "PegError", "RuntimeError", "Exception"]
  | depthExceeded =>
    ["MatchDepthExceeded", "ResourceExhausted", "PegError", "RuntimeError", "Exception"]
  | stepsExceeded =>
    ["MatchStepsExceeded", "ResourceExhausted", "PegError", "RuntimeError", "Exception"]
  | leftRecursion =>
    ["LeftRecursionDetected", "ResourceExhausted", "PegError", "RuntimeError", "Exception"]
  | type => ["TypeError", "Exception"]
  | value => ["ValueError", "Exception"]
  | key => ["KeyError", "LookupError", "Exception"]
  | index => ["IndexError", "LookupError", "Exception"]

end ErrorKind

/-- Where a rule is referred to. -/
inductive Site where
  /-- In the body of a rule. -/
  | rule (name : String)
  /-- In the root of a grammar. -/
  | root
  /-- In a pattern that is matched with no grammar in scope. -/
  | noGrammar
deriving DecidableEq

/-- The wording of a site. -/
def Site.describe : Site → String
  | rule name => "rule '" ++ name ++ "'"
  | root => "grammar root"
  | noGrammar => "a pattern matched outside any grammar"

/-- Why an argument does not make a pattern. -/
inductive PatternFault where
  /-- The value is no pattern, nor does it stand for one. -/
  | notAPattern (arg : Value)
  /-- A set is given by something else than a text or a dictionary. -/
  | setSource (arg : Value)
  /-- A member of a set is not a single character. -/
  | setMember (arg : Value)
  /-- No range is given. -/
  | noRange
  /-- A range is not a text of two characters. -/
  | rangeShape (arg : Value)
  /-- The first character of a range lies above the second one. -/
  | emptyRange (text : String)
  /-- A field is selected by something else than a text, an integer or a pattern. -/
  | fieldKey (arg : Value)
  /-- A rule is referred to by something else than a non-empty text. -/
  | ruleName (arg : Value)
  /-- A group is named by something else than a non-empty text. -/
  | groupName (arg : Value)
  /-- A combination of no patterns at all. -/
  | noOperand (combination : String)
  /-- The bound of a repetition is no integer. -/
  | bound (arg : Value)

/-- The wording of a fault in a pattern. -/
def PatternFault.message : PatternFault → String
  | notAPattern v => "P: cannot make a pattern from " ++ v.typeName ++ " " ++ v.display
  | setSource v => "S: expected a string or mapping, got " ++ v.typeName
  | setMember v => "S: set keys must be single characters, got " ++ v.display
  | noRange => "R: at least one range is required"
  | rangeShape v => "R: ranges must be two-character strings, got " ++ v.display
  | emptyRange s =>
    "R: empty range " ++ Quoted.text s ++ " (low bound above high bound)"
  | fieldKey v => "O: key must be a str/int literal or a pattern, got " ++ v.typeName
  | ruleName v => "V: rule name must be a non-empty string, got " ++ v.display
  | groupName v => "Cg: group name must be a non-empty string, got " ++ v.display
  | noOperand c => c ++ ": at least one pattern is required"
  | bound v => "rep: bound must be an int, got " ++ v.display

/-- Why rules do not make a grammar. -/
inductive GrammarFault where
  /-- The rules are not given by a dictionary. -/
  | notRules (arg : Value)
  /-- A rule is named by something else than a non-empty text. -/
  | ruleName (arg : Value)
  /-- A rule has the name that stands for the root. -/
  | reservedName
  /-- The body of a rule does not make a pattern. -/
  | ruleBody (name : String) (fault : PatternFault)
  /-- There are no rules. -/
  | noRules

/-- The wording of a fault in a grammar. -/
def GrammarFault.message : GrammarFault → String
  | notRules v => "rules must be a mapping, got " ++ v.typeName
  | ruleName v => "rule names must be non-empty strings, got " ++ v.display
  | reservedName => "'0' is reserved for the grammar root"
  | ruleBody name fault => "rule '" ++ name ++ "': " ++ fault.message
  | noRules => "empty grammar"

/-- Why a match is stopped. -/
inductive Fault where
  /-- More evaluations than allowed. -/
  | stepsExceeded (limit : Nat)
  /-- Evaluations nested as deeply as is not allowed. -/
  | depthExceeded (limit : Nat)
  /-- Evaluations nested more deeply than the evaluator supports. -/
  | tooDeep
  /-- A rule was applied again at the same place while it was still in progress. -/
  | leftRecursion (rule : String) (pos : Nat)
  /-- A rule was referred to that is not in scope. -/
  | undefinedRule (name : String) (site : Option Site)
deriving DecidableEq

/-- An error. -/
inductive Error where
  | pattern (fault : PatternFault)
  | grammar (fault : GrammarFault)
  | undefinedRule (name : String) (site : Option Site)
  | fault (fault : Fault)
  /-- The outer grammar is no grammar. -/
  | outerGrammar (arg : Value)
  /-- The start position is no integer. -/
  | start (arg : Value)
  /-- A ceiling is neither absent nor a positive integer. -/
  | ceiling (option : String) (arg : Value)
  /-- A key of a dictionary, or a part of a key, of a type that cannot be one. -/
  | unhashable (typeName : String)
  /-- A table is subscripted by something else than a text or an integer. -/
  | subscript (arg : Value)
  /-- A table has no item at the position. -/
  | itemRange
  /-- A position lies beyond those that any table can have. -/
  | itemNumber
  /-- Nothing is stored under the key. -/
  | missingKey (key : Value)
  /-- A construction is given a wrong number of arguments. -/
  | argumentCount (signature : Signature) (given : Nat)

/-- What a caller learns of an error: its kind, its wording, and details by their names. -/
structure ErrorReport where
  kind : ErrorKind
  message : String
  details : List (String × Value) := []

/-- The report on an undefined rule. -/
def ErrorReport.undefinedRule (name : Value) (site : Option String) : ErrorReport where
  kind := .undefinedRule
  message := "undefined rule '" ++ name.plain ++ "'" ++
    match site with
    | none => ""
    | some s => " (referenced from " ++ s ++ ")"
  details := [("name", name)]

/-- The report on a left recursion. -/
def ErrorReport.leftRecursion (rule pos : Value) : ErrorReport where
  kind := .leftRecursion
  message := "rule '" ++ rule.plain ++ "' re-entered at position " ++ pos.plain
    ++ " without consuming input"
  details := [("rule", rule), ("pos", pos)]

/-- The report on a stopped match. -/
def Fault.report : Fault → ErrorReport
  | stepsExceeded n =>
    ⟨.stepsExceeded, "more than " ++ toString n ++ " evaluation steps", []⟩
  | depthExceeded n => ⟨.depthExceeded, "pattern nesting deeper than " ++ toString n, []⟩
  | tooDeep => ⟨.depthExceeded, "host recursion limit reached while matching", []⟩
  | leftRecursion rule pos => .leftRecursion (.text rule) (.int pos)
  | undefinedRule name site => .undefinedRule (.text name) (site.map Site.describe)

namespace Error

/-- The report on an error. -/
def report : Error → ErrorReport
  | pattern f => ⟨.invalidPattern, f.message, []⟩
  | grammar f => ⟨.invalidGrammar, f.message, []⟩
  | undefinedRule name site => .undefinedRule (.text name) (site.map Site.describe)
  | fault f => f.report
  | outerGrammar v => ⟨.type, "grammar must be a Grammar, got " ++ v.typeName, []⟩
  | start v => ⟨.type, "init must be an int, got " ++ v.display, []⟩
  | ceiling option v =>
    ⟨.value, option ++ " must be a positive int or None, got " ++ v.display, []⟩
  | unhashable t => ⟨.type, "unhashable type: '" ++ t ++ "'", []⟩
  | subscript v =>
    ⟨.type, "tuple indices must be integers or slices, not " ++ v.typeName, []⟩
  | itemRange => ⟨.index, "tuple index out of range", []⟩
  | itemNumber => ⟨.index, "cannot fit 'int' into an index-sized integer", []⟩
  | missingKey k => ⟨.key, k.display, []⟩
  | argumentCount s n => ⟨.type, s.complaint n, []⟩

/-- The kind of an error. -/
def kind (e : Error) : ErrorKind :=
  e.report.kind

/-- The wording of an error. -/
def message (e : Error) : String :=
  e.report.message

end Error

/-- The wording of an error that is made from arguments alone: nothing without arguments, the
text of a single one, and several as a tuple. -/
def ErrorReport.wording : List Value → String
  | [] => ""
  | [v] => v.plain
  | vs => (Value.tuple vs).display

/-- The report on an error of a given kind made from arguments.  An undefined rule takes its
name and the place of the reference, which is left out when it does not count as true; a left
recursion takes the rule and the position. -/
def ErrorReport.make : ErrorKind → List Value → ErrorReport
  | .undefinedRule, [name] => .undefinedRule name none
  | .undefinedRule, name :: site :: _ =>
    .undefinedRule name (if site.isTruthy then some site.plain else none)
  | .leftRecursion, rule :: pos :: _ => .leftRecursion rule pos
  | kind, args => ⟨kind, wording args, []⟩

end Peg
