import Peg.Construction
import Peg.Value.Fields

/-!
# Expressions

An `Expr` describes how a value is built: from scalars, by putting values together, by naming
values built before, and by applying constructors.  `Expr.eval` builds the value, from left to
right, and stops at the first error.

A dictionary is built entry by entry, key before value; a key must be hashable.
-/

namespace Peg

/-- A description of how a value is built. -/
inductive Expr where
  /-- A scalar. -/
  | scalar (s : Scalar)
  /-- A list of values. -/
  | list (items : List Expr)
  /-- A tuple of values. -/
  | tuple (items : List Expr)
  /-- A dictionary. -/
  | dict (entries : List (Expr × Expr))
  /-- A table of captures. -/
  | table (items : List Expr) (fields : List (Expr × Expr))
  /-- The value bound to a name. -/
  | ref (name : String)
  /-- What a constructor makes of some values. -/
  | call (constructor : Constructor) (args : List Expr)

/-- The values bound to names, the latest first. -/
abbrev Env : Type :=
  List (String × Value)

/-- The value bound to a name. -/
def Env.value (env : Env) (name : String) : Build Value :=
  match env.lookup name with
  | some v => pure v
  | none => throw (.missingKey (.text name))

/-- Writes an entry of a dictionary, if its key can be one. -/
def Entries.writeChecked (key value : Value) (es : List (Value × Value)) :
    Build (List (Value × Value)) :=
  match key.unhashable? with
  | some typeName => throw (.unhashable typeName)
  | none => pure (Entries.write key value es)

mutual

/-- Builds the value that an expression describes. -/
def Expr.eval (env : Env) : Expr → Build Value
  | .scalar s => pure (.scalar s)
  | .list xs => do
    let vs ← Expr.evalAll env xs
    return .list vs
  | .tuple xs => do
    let vs ← Expr.evalAll env xs
    return .tuple vs
  | .dict es => do
    let fs ← Expr.evalEntries env es []
    return .dict fs
  | .table xs es => do
    let vs ← Expr.evalAll env xs
    let fs ← Expr.evalEntries env es []
    return .table vs fs
  | .ref name => env.value name
  | .call c xs => do
    let vs ← Expr.evalAll env xs
    c.apply vs
termination_by structural e => e

/-- Builds the values of a list of expressions, in order. -/
def Expr.evalAll (env : Env) : List Expr → Build (List Value)
  | [] => pure []
  | x :: xs => do
    let v ← x.eval env
    let vs ← Expr.evalAll env xs
    return v :: vs
termination_by structural xs => xs

/-- Builds entries of a dictionary, in order, and writes each one to those before it. -/
def Expr.evalEntries (env : Env) :
    List (Expr × Expr) → List (Value × Value) → Build (List (Value × Value))
  | [], fs => pure fs
  | (k, v) :: es, fs => do
    let key ← k.eval env
    let value ← v.eval env
    let fs ← Entries.writeChecked key value fs
    Expr.evalEntries env es fs
termination_by structural es => es

end

end Peg
