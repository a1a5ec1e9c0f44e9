import Peg.Expression
import Peg.Match.Matcher
import Peg.Table

/-!
# Sessions

A session answers requests one after the other.  It holds the values bound to names, which later
requests can refer to, and the next number by which a grammar will be told apart.

An `Operation` is one thing that a session can be asked for, its arguments given as expressions;
`Operation.perform` says what it comes to.  A request may bind names first.
-/

namespace Peg

/-- The options of a match, given by expressions. -/
structure OptionExprs where
  maxDepth : Expr := .scalar .null
  maxSteps : Expr := .scalar .null
  memoize : Expr := .scalar (.bool false)
  debug : Expr := .scalar (.bool false)

/-- What can be done to a list of captures. -/
inductive CaptureEdit where
  /-- Adds a capture at the end. -/
  | push (value : Expr) (name : Option String)
  /-- Names all captures, or takes their names away. -/
  | relabel (name : Option String)
  /-- Replaces the captures by the one of their table. -/
  | collect

/-- What a session can be asked for. -/
inductive Operation where
  /-- Matches a pattern once. -/
  | matchOnce (pattern subject outer start : Expr) (options : OptionExprs)
  /-- Makes a matcher and matches it against several subjects. -/
  | matchEach (pattern outer : Expr) (options : OptionExprs) (runs : List (Expr × Expr))
  /-- Makes a matcher and matches it from each position of a text. -/
  | scan (pattern outer : Expr) (options : OptionExprs) (text : String)
  /-- Builds a value. -/
  | build (expr : Expr)
  /-- Compares two values. -/
  | compare (left right : Expr)
  /-- Defines a grammar and asks for some of its rules. -/
  | defineGrammar (rules root : Expr) (required : List String)
  /-- Lists the references of a pattern. -/
  | references (pattern : Expr)
  /-- Makes a table and queries it. -/
  | queryTable (items : List Expr) (fields : List (Expr × Expr))
    (queries : List (TableQuery Expr))
  /-- Edits a list of captures that is empty at first. -/
  | editCaptures (edits : List CaptureEdit)
  /-- Checks options. -/
  | checkOptions (options : OptionExprs)
  /-- Makes an error of a kind from arguments. -/
  | makeError (kind : ErrorKind) (args : List Expr)

/-- What an operation comes to. -/
inductive Reply where
  | answer (answer : Answer)
  | answers (answers : List Answer)
  | ends (ends : List (Except Fault (Option Nat)))
  | built (value : Value)
  | compared (alike : Bool)
  | grammar (grammar : Grammar) (required : List (Except Error Pattern))
  | references (names : List String)
  | queried (table : Table) (results : List (Except Error Value))
  | edited (states : List (List Capture))
  | options (options : OptionValues)
  | error (report : ErrorReport)

/-- Evaluates expressions for options. -/
def OptionExprs.eval (env : Env) (o : OptionExprs) : Build OptionValues := do
  let maxDepth ← o.maxDepth.eval env
  let maxSteps ← o.maxSteps.eval env
  let memoize ← o.memoize.eval env
  let debug ← o.debug.eval env
  return ⟨maxDepth, maxSteps, memoize, debug⟩

/-- Evaluates and checks options. -/
def OptionExprs.checked (env : Env) (o : OptionExprs) : Build Options := do
  let values ← o.eval env
  Build.ofExcept values.options

/-- Evaluates the arguments of a query. -/
def TableQuery.eval (env : Env) : TableQuery Expr → Build (TableQuery Value)
  | .subscript k => do
    let key ← k.eval env
    return .subscript key
  | .get k d => do
    let key ← k.eval env
    let default ← d.eval env
    return .get key default
  | .length => pure .length
  | .items => pure .items
  | .contains v => do
    let value ← v.eval env
    return .contains value
  | .hasField k => do
    let key ← k.eval env
    return .hasField key
  | .equals v => do
    let value ← v.eval env
    return .equals value
  | .hash => pure .hash

/-- Applies an edit to a list of captures. -/
def CaptureEdit.apply (env : Env) (cs : List Capture) : CaptureEdit → Build (List Capture)
  | .push v name => do
    let value ← v.eval env
    return cs ++ [⟨value, name⟩]
  | .relabel name => pure (Capture.relabel name cs)
  | .collect => pure [Capture.collect cs]

/-- The lists of captures after each of some edits. -/
def CaptureEdit.states (env : Env) (cs : List Capture) :
    List CaptureEdit → Build (List (List Capture))
  | [] => pure []
  | e :: es => do
    let next ← e.apply env cs
    let rest ← CaptureEdit.states env next es
    return next :: rest

/-- The rule of a grammar that is asked for by name. -/
def Grammar.required (g : Grammar) (name : String) : Except Error Pattern :=
  match g.rule? name with
  | some p => .ok p
  | none => .error (.undefinedRule name none)

/-- Makes a matcher of expressions. -/
def Matcher.ofExprs (env : Env) (pattern outer : Expr) (options : OptionExprs) :
    Build Matcher := do
  let p ← pattern.eval env
  let g ← outer.eval env
  let o ← options.checked env
  Matcher.ofValues p g o

/-- Matches a subject from a position, both given by expressions. -/
def Matcher.answerTo (env : Env) (m : Matcher) (run : Expr × Expr) : Build Answer := do
  let subject ← run.1.eval env
  let start ← run.2.eval env
  return m.answer subject start

/-- What an operation comes to. -/
def Operation.perform (env : Env) : Operation → Build Reply
  | .matchOnce pattern subject outer start options => do
    let p ← pattern.eval env
    let s ← subject.eval env
    let g ← outer.eval env
    let i ← start.eval env
    let o ← options.checked env
    let m ← Matcher.ofValues p g o
    return .answer (m.answer s i)
  | .matchEach pattern outer options runs => do
    let m ← Matcher.ofExprs env pattern outer options
    let answers ← runs.mapM (m.answerTo env)
    return .answers answers
  | .scan pattern outer options text => do
    let m ← Matcher.ofExprs env pattern outer options
    return .ends ((m.scan text).map fun r => r.map fun o => o.map Success.stop)
  | .build expr => do
    let v ← expr.eval env
    return .built v
  | .compare left right => do
    let a ← left.eval env
    let b ← right.eval env
    return .compared (a.alike b)
  | .defineGrammar rules root required => do
    let rs ← rules.eval env
    let r ← root.eval env
    let g ← Grammar.ofValues rs r
    return .grammar g (required.map g.required)
  | .references pattern => do
    let v ← pattern.eval env
    let p ← v.toPattern
    return .references p.references
  | .queryTable items fields queries => do
    let xs ← Expr.evalAll env items
    let fs ← Expr.evalEntries env fields []
    let qs ← queries.mapM (TableQuery.eval env)
    let t : Table := ⟨xs, fs⟩
    return .queried t (qs.map t.answer)
  | .editCaptures edits => do
    let states ← CaptureEdit.states env [] edits
    return .edited states
  | .checkOptions options => do
    let values ← options.eval env
    let _ ← Build.ofExcept values.options
    return .options values
  | .makeError kind args => do
    let vs ← Expr.evalAll env args
    return .error (ErrorReport.make kind vs)

/-- What a session is asked: an operation, or to bind a name to a value. -/
inductive Task where
  | perform (operation : Operation)
  | define (name : String) (expr : Expr)

/-- A task, with names to be bound before it. -/
structure Request where
  bindings : List (String × Expr) := []
  task : Task

/-- The state of a session. -/
structure Session where
  env : Env := []
  next : Nat := 0

namespace Session

/-- Carries out a construction. -/
def carryOut {α : Type} (s : Session) (x : Build α) : Except Error α × Session :=
  match x s.next with
  | .ok a n => (.ok a, { s with next := n })
  | .error e n => (.error e, { s with next := n })

/-- Binds a name to the value of an expression. -/
def define (s : Session) (name : String) (expr : Expr) : Except Error Value × Session :=
  match s.carryOut (expr.eval s.env) with
  | (.ok v, s) => (.ok v, { s with env := (name, v) :: s.env })
  | (.error e, s) => (.error e, s)

/-- Binds names in order, up to the first error. -/
def defineAll (s : Session) : List (String × Expr) → Except Error Unit × Session
  | [] => (.ok (), s)
  | (name, expr) :: bs =>
    match s.define name expr with
    | (.ok _, s) => s.defineAll bs
    | (.error e, s) => (.error e, s)

/-- Carries out a task. -/
def carryOutTask (s : Session) : Task → Except Error Reply × Session
  | .perform op => s.carryOut (op.perform s.env)
  | .define name expr =>
    match s.define name expr with
    | (.ok v, s) => (.ok (.built v), s)
    | (.error e, s) => (.error e, s)

/-- Answers a request. -/
def respond (s : Session) (r : Request) : Except Error Reply × Session :=
  match s.defineAll r.bindings with
  | (.ok _, s) => s.carryOutTask r.task
  | (.error e, s) => (.error e, s)

/-- Answers requests one after the other. -/
def respondAll (s : Session) : List Request → List (Except Error Reply)
  | [] => []
  | r :: rs =>
    let (reply, s) := s.respond r
    reply :: s.respondAll rs

end Session

end Peg
