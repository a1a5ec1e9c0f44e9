import Peg.Value.Invisible

/-!
# Quoted texts

A quoted text stands between two quotes.  They are double quotes when the text has a single
quote and no double one, and single quotes otherwise.  Inside, a backslash and the quote in
use are written with a backslash before them; line feed, carriage return and tab as `\n`, `\r`
and `\t`; any other invisible character by its number in hexadecimal digits, as few as fit of
two after `\x`, four after `\u` and eight after `\U`.

Which characters are invisible is told by `Invisible.ranges`.  Numbers that are not assigned to a
character yet are left out there, and so they are not escaped.
-/

namespace Peg.Quoted

/-- The single quote. -/
def single : Char := '\x27'

/-- The double quote. -/
def double : Char := '\x22'

/-- The backslash. -/
def backslash : Char := '\x5c'

/-- The quote to put around a text. -/
def quoteFor (cs : List Char) : Char :=
  if cs.contains single && !cs.contains double then double else single

/-- The last `width` hexadecimal digits of a number. -/
def hexDigits : (width n : Nat) → List Char
  | 0, _ => []
  | width + 1, n => hexDigits width (n / 16) ++ [Nat.digitChar (n % 16)]

/-- The number of a character in hexadecimal digits, with a backslash and the letter for their
count before them. -/
def hexEscape (n : Nat) : List Char :=
  if n < 0x100 then backslash :: 'x' :: hexDigits 2 n
  else if n < 0x10000 then backslash :: 'u' :: hexDigits 4 n
  else backslash :: 'U' :: hexDigits 8 n

/-- The characters which both texts and byte strings write in a form of their own, in that
form. -/
def named? (quote c : Char) : Option (List Char) :=
  if c = quote || c = backslash then some [backslash, c]
  else if c = '\n' then some [backslash, 'n']
  else if c = '\r' then some [backslash, 'r']
  else if c = '\t' then some [backslash, 't']
  else none

/-- A character of a text as it is written between quotes. -/
def escapeChar (quote c : Char) : List Char :=
  match named? quote c with
  | some cs => cs
  | none =>
    if Invisible.contains c then hexEscape c.toNat else [c]

/-- A byte as it is written between quotes: as the character of that number when that is a
visible one, and by its number otherwise. -/
def escapeByte (quote : Char) (b : UInt8) : List Char :=
  let c := Char.ofNat b.toNat
  match named? quote c with
  | some cs => cs
  | none => if b.toNat < 0x20 || 0x7f ≤ b.toNat then hexEscape b.toNat else [c]

/-- A text between quotes. -/
def text (s : String) : String :=
  let quote := quoteFor s.toList
  String.ofList (quote :: s.toList.flatMap (escapeChar quote) ++ [quote])

/-- A byte string between quotes, with a `b` before them. -/
def bytes (bs : List UInt8) : String :=
  let quote := quoteFor (bs.map fun b => Char.ofNat b.toNat)
  String.ofList ('b' :: quote :: bs.flatMap (escapeByte quote) ++ [quote])

end Peg.Quoted
