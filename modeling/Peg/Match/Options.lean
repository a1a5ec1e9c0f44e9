import Peg.Error

/-!
# Options of a match

A match can be given ceilings on how deeply evaluations nest and on how many there are.  It can
remember the outcome of rule applications, and it can print a trace.
-/

namespace Peg

/-- The options of a match. -/
structure Options where
  /-- Evaluations may nest only below this depth. -/
  maxDepth : Option Nat := none
  /-- There may be only so many evaluations. -/
  maxSteps : Option Nat := none
  /-- Whether outcomes of rule applications are remembered. -/
  memoize : Bool := false
  /-- Whether a trace is printed. -/
  debug : Bool := false
deriving DecidableEq

/-- The options of a match as they are asked for. -/
structure OptionValues where
  maxDepth : Value := .null
  maxSteps : Value := .null
  memoize : Value := .bool false
  debug : Value := .bool false

namespace OptionValues

/-- A ceiling that is asked for: none, or a positive integer. -/
def ceiling (option : String) : Value → Except Error (Option Nat)
  | .null => .ok none
  | .int (.ofNat (n + 1)) => .ok (some (n + 1))
  | v => .error (.ceiling option v)

/-- The options that are asked for. -/
def options (o : OptionValues) : Except Error Options := do
  let maxDepth ← ceiling "max_depth" o.maxDepth
  let maxSteps ← ceiling "max_steps" o.maxSteps
  return ⟨maxDepth, maxSteps, o.memoize.isTruthy, o.debug.isTruthy⟩

end OptionValues

end Peg
