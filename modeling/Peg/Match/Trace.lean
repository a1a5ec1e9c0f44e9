import Peg.Lines
import Peg.Match.Progress
import Peg.Value.Display

/-!
# The trace of a match

A trace has a line for the start of a match, one for each completed rule application in the
order of completion, and one for the end unless the match was stopped.  The name of a
rule may hold the end of a line, which breaks the line of the rule there.
-/

namespace Peg.Trace

/-- A line of a trace. -/
def line (text : String) : String :=
  "[DEBUG] " ++ text

/-- The line for the start of a match. -/
def started (subject : Value) (pos : Nat) : String :=
  line ("match start | subject=" ++ subject.typeName ++ " pos=" ++ toString pos)

/-- The line for a completed rule application. -/
def completed (key : Key) (outcome : Outcome) : String :=
  line ("rule " ++ key.rule ++ " @ " ++ toString key.pos ++ " -> " ++
    match outcome with
    | none => "fail"
    | some r => "ok end=" ++ toString r.stop)

/-- The line for the end of a match. -/
def ended (outcome : Outcome) (steps : Nat) : String :=
  line (match outcome with
    | none => "match fail | steps=" ++ toString steps
    | some r =>
      "match ok | end=" ++ toString r.stop ++ " captures=" ++ toString r.captures.length
        ++ " steps=" ++ toString steps)

/-- What is printed of a match that started at a position of a subject. -/
def printed (subject : Value) (pos : Nat) (outcome : Except Fault Outcome) (st : Progress) :
    List String :=
  started subject pos :: st.completions.map (fun c => completed c.1 c.2) ++
    match outcome with
    | .ok r => [ended r st.steps]
    | .error _ => []

/-- The lines of a match that started at a position of a subject. -/
def lines (subject : Value) (pos : Nat) (outcome : Except Fault Outcome) (st : Progress) :
    List String :=
  (printed subject pos outcome st).flatMap Lines.ofText

end Peg.Trace
