import Peg.Pattern
import Peg.Value.Quoted

/-!
# Values as text

`Value.display` writes a value the way messages show it, and `Value.typeName` names its type.
`Value.plain` is the text of a value: a text stands for itself, and any other value is written
as messages show it.

A pattern or grammar is shown by the name of its type alone, and not by its parts.  What it takes
these for is left out: a message about a value with a pattern in it, and a key with a pattern in it
whose text is matched.
-/

namespace Peg

/-- The name of the kind of a pattern. -/
def Pattern.kindName : Pattern → String
  | .literal _ => "Literal"
  | .truth _ => "Truth"
  | .anyChars _ => "AnyChars"
  | .fewerThan _ => "FewerThan"
  | .charSet _ => "CharSet"
  | .charRange _ => "CharRange"
  | .field _ _ => "ObjectField"
  | .sequence _ _ => "Sequence"
  | .choice _ _ => "Choice"
  | .repetition _ _ => "Repeat"
  | .difference _ _ => "Difference"
  | .invert _ => "Invert"
  | .lookahead _ => "Lookahead"
  | .ruleRef _ => "RuleRef"
  | .grammar _ => "GrammarPattern"
  | .span _ => "SpanCapture"
  | .const _ => "ConstCapture"
  | .position => "PosCapture"
  | .group _ _ => "Group"
  | .collect _ => "Collect"

/-- The name of the type of a scalar. -/
def Scalar.typeName : Scalar → String
  | .null => "NoneType"
  | .bool _ => "bool"
  | .int _ => "int"
  | .float _ => "float"
  | .text _ => "str"
  | .bytes _ => "bytes"

/-- A scalar as messages show it. -/
def Scalar.display : Scalar → String
  | .null => "None"
  | .bool b => if b then "True" else "False"
  | .int i => toString i
  | .float t => t
  | .text s => Quoted.text s
  | .bytes bs => Quoted.bytes bs

namespace Value

/-- The name of the type of a value. -/
def typeName : Value → String
  | .scalar s => s.typeName
  | .list _ => "list"
  | .tuple _ => "tuple"
  | .dict _ => "dict"
  | .table _ _ => "CaptureTable"
  | .pattern p => p.kindName
  | .grammar _ => "Grammar"

/-- The members of a tuple between parentheses; a single one is followed by a comma. -/
def inParentheses : List String → String
  | [x] => "(" ++ x ++ ",)"
  | xs => "(" ++ String.intercalate ", " xs ++ ")"

/-- The entries of a dictionary between braces. -/
def inBraces (xs : List String) : String :=
  "\x7b" ++ String.intercalate ", " xs ++ "\x7d"

mutual

/-- A value as messages show it. -/
def display : Value → String
  | .scalar s => s.display
  | .list xs => "[" ++ String.intercalate ", " (displays xs) ++ "]"
  | .tuple xs => inParentheses (displays xs)
  | .dict es => inBraces (displayEntries es)
  | .table xs fs =>
    "CaptureTable(items=" ++ inParentheses (displays xs) ++ ", fields=mappingproxy("
      ++ inBraces (displayEntries fs) ++ "))"
  -- the parts are left out
  | .pattern p => "<" ++ p.kindName ++ ">"
  | .grammar _ => "<Grammar>"
termination_by structural v => v

/-- The values of a list as messages show them. -/
def displays : List Value → List String
  | [] => []
  | x :: xs => x.display :: displays xs
termination_by structural xs => xs

/-- The entries of a dictionary as messages show them. -/
def displayEntries : List (Value × Value) → List String
  | [] => []
  | (k, v) :: es => (k.display ++ ": " ++ v.display) :: displayEntries es
termination_by structural es => es

end

/-- The text of a value. -/
def plain : Value → String
  | .text s => s
  | v => v.display

end Value

end Peg
