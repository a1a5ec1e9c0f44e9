/-!
# Decimal texts of binary numbers

A binary floating-point number with 53 significant bits is held as its shortest decimal
text: an optional minus, digits, an optional fraction and an optional exponent.
`Decimal.integer?` reads the integer which such a text stands for, when the number is an
integer.  A text with a large exponent stands for the nearest number with 53 significant
bits, of two equally near ones for the even one; `Decimal.roundToBits` is that rounding.
-/

namespace Peg.Decimal

/-- The value of a list of decimal digits. -/
def ofDigits (cs : List Char) : Nat :=
  cs.foldl (fun n c => 10 * n + (c.toNat - '0'.toNat)) 0

/-- Whether a list of characters is a non-empty list of decimal digits. -/
def isDigits (cs : List Char) : Bool :=
  !cs.isEmpty && cs.all Char.isDigit

/-- The number nearest to `n` among those with at most `bits` significant bits; a tie goes to
the one whose last significant bit is zero. -/
def roundToBits (bits n : Nat) : Nat :=
  if n < 1 <<< bits then n
  else
    let shift := n.log2 + 1 - bits
    let unit := 1 <<< shift
    let quotient := n / unit
    let twice := 2 * (n % unit)
    if twice < unit || (twice == unit && quotient % 2 == 0) then quotient * unit
    else (quotient + 1) * unit

/-- The integer `mantissa * 10 ^ exponent`, when it is one. -/
def scaled? (mantissa : Nat) (exponent : Int) : Option Nat :=
  match exponent with
  | .ofNat k => some (mantissa * Nat.pow 10 k)
  | .negSucc k =>
    let unit := Nat.pow 10 (k + 1)
    if mantissa % unit = 0 then some (mantissa / unit) else none

/-- The exponent written after an `e`: digits with an optional sign. -/
def exponent? : List Char → Option Int
  | '+' :: cs => if isDigits cs then some (ofDigits cs) else none
  | '-' :: cs => if isDigits cs then some (-(ofDigits cs : Int)) else none
  | cs => if isDigits cs then some (ofDigits cs) else none

/-- The non-negative integer which an unsigned decimal text stands for. -/
def unsigned? (cs : List Char) : Option Nat := do
  let mantissa := cs.takeWhile (· != 'e')
  let whole := mantissa.takeWhile (· != '.')
  let fraction := (mantissa.dropWhile (· != '.')).drop 1
  let exponent ← match (cs.dropWhile (· != 'e')).drop 1 with
    | [] => some 0
    | ds => exponent? ds
  if isDigits (whole ++ fraction) then
    let n ← scaled? (ofDigits (whole ++ fraction)) (exponent - fraction.length)
    return roundToBits 53 n
  else none

/-- The integer which a decimal text stands for, when the number it stands for is an
integer. -/
def integer? (text : String) : Option Int :=
  match text.toList with
  | '-' :: cs => (unsigned? cs).map fun n => -(n : Int)
  | cs => (unsigned? cs).map fun n => (n : Int)

end Peg.Decimal
