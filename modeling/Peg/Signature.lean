/-!
# Signatures

A `Signature` tells how many arguments a construction takes: some must be given, and some more
may be.  `Signature.complaint` words what is wrong with a number of arguments that does not fit.
-/

namespace Peg

/-- The arguments that a construction takes. -/
structure Signature where
  /-- The name of the construction. -/
  name : String
  /-- The names of the arguments that must be given. -/
  required : List String
  /-- How many more arguments may be given. -/
  optional : Nat := 0

namespace Signature

/-- Names in quotes, the last two with an `and` between them. -/
def enumerate : List String → String
  | [] => ""
  | [a] => "'" ++ a ++ "'"
  | [a, b] => "'" ++ a ++ "' and '" ++ b ++ "'"
  | a :: as => "'" ++ a ++ "', " ++ enumerate as

/-- An ending that marks a plural. -/
def plural (isOne : Bool) : String :=
  if isOne then "" else "s"

/-- The number of arguments that may be given, in words. -/
def expected (s : Signature) : String :=
  if s.optional = 0 then toString s.required.length
  else "from " ++ toString s.required.length ++ " to "
    ++ toString (s.required.length + s.optional)

/-- What is wrong with giving a number of arguments that does not fit. -/
def complaint (s : Signature) (given : Nat) : String :=
  let missing := s.required.drop given
  if missing.isEmpty then
    s.name ++ "() takes " ++ s.expected ++ " positional argument"
      ++ plural (s.optional == 0 && s.required.length == 1) ++ " but " ++ toString given
      ++ (if given = 1 then " was given" else " were given")
  else
    s.name ++ "() missing " ++ toString missing.length ++ " required positional argument"
      ++ plural (missing.length == 1) ++ ": " ++ enumerate missing

end Signature

end Peg
