import Peg.Error

/-!
# Constructions

A construction makes a value or fails with an error, and draws the numbers by which grammars
are told apart.  The numbers drawn by a construction that fails are not drawn again.
-/

namespace Peg

/-- A construction; its state is the next number to be drawn. -/
abbrev Build : Type → Type :=
  EStateM Error Nat

namespace Build

/-- Draws a number that was not drawn before. -/
def fresh : Build Nat :=
  fun n => .ok n (n + 1)

/-- A construction whose errors are replaced. -/
def mapError {α : Type} (f : Error → Error) (x : Build α) : Build α :=
  fun n =>
    match x n with
    | .ok a m => .ok a m
    | .error e m => .error (f e) m

/-- The result of a computation without state. -/
def ofExcept {α : Type} : Except Error α → Build α
  | .ok a => pure a
  | .error e => throw e

end Build

end Peg
