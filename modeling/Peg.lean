import Peg.Session
import Peg.Proofs.Likeness
import Peg.Proofs.Path
import Peg.Proofs.Plan
import Peg.Proofs.Asking
import Peg.Proofs.Agreement
import Peg.Proofs.Parallel
import Peg.Proofs.Alongside
import Peg.Proofs.Resemblance
import Peg.Proofs.Unguarded
import Peg.Proofs.Ceilings
import Peg.Proofs.Derivation.Completeness
import Peg.Proofs.Guard
import Peg.Proofs.Memory
import Peg.Proofs.Reach
import Peg.Proofs.Stations
import Peg.Proofs.Termination
import Peg.Proofs.Nesting
import Peg.Proofs.Positions
import Peg.Proofs.Scoping
import Peg.Proofs.Inheriting
import Peg.Proofs.Sessions
import Peg.Proofs.Building
import Peg.Proofs.Lockstep
import Peg.Proofs.Idling
import Peg.Proofs.Slice
import Peg.Proofs.Erasure
import Peg.Proofs.Completions
import Peg.Proofs.Packrat
import Peg.Proofs.Whereabouts
import Peg.Proofs.Descent
import Peg.Proofs.Rescoping
import Peg.Proofs.Rooting
import Peg.Proofs.Copies
import Peg.Proofs.Lexical
import Peg.Proofs.Contents
import Peg.Proofs.Remaking
import Peg.Proofs.Redefining
import Peg.Proofs.Reordering
import Peg.Proofs.Alike
import Peg.Proofs.Literals
import Peg.Proofs.Views
import Peg.Proofs.Replay
import Peg.Proofs.Exchange
import Peg.Proofs.Laws
import Peg.Proofs.Repetition
import Peg.Proofs.Endings
import Peg.Proofs.Scan
import Peg.Proofs.Marks
import Peg.Proofs.Objects
import Peg.Proofs.Lookup
import Peg.Proofs.Grouping
import Peg.Proofs.Primitives
import Peg.Proofs.Tables
import Peg.Proofs.Preorder
import Peg.Proofs.Validation
import Peg.Proofs.Reading
import Peg.Proofs.Collecting
import Peg.Proofs.CallStack
import Peg.Proofs.Loops
