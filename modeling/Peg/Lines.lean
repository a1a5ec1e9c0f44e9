/-!
# Lines of a text

A line ends at a line feed, a carriage return, a vertical tab, a form feed, one of the three
separators of files, groups and records, the next-line character, or the separator of lines or
paragraphs.  A carriage return with a line feed after it is one end.  Characters after the last
end make up a last line.
-/

namespace Peg.Lines

/-- Whether a line ends at a character. -/
def isEnd (c : Char) : Bool :=
  [0x0a, 0x0b, 0x0c, 0x0d, 0x1c, 0x1d, 0x1e, 0x85, 0x2028, 0x2029].contains c.toNat

/-- Puts a character at the front of the first line. -/
def attach (c : Char) : List (List Char) → List (List Char)
  | [] => [[c]]
  | l :: ls => (c :: l) :: ls

/-- The lines of a list of characters, without their ends. -/
def split : List Char → List (List Char)
  | [] => []
  | '\r' :: '\n' :: cs => [] :: split cs
  | c :: cs => if isEnd c then [] :: split cs else attach c (split cs)

/-- The lines of a text. -/
def ofText (s : String) : List String :=
  (split s.toList).map String.ofList

end Peg.Lines
