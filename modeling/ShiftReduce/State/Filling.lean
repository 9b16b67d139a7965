import ShiftReduce.State.Basic

/-!
# Filling a draft

A draft is filled by adding items to it one after another. An addition that fails leaves the draft
as it was, and the next one goes on from there.
-/

namespace ShiftReduce

/-- An item that is to be added to a state. -/
structure Addition where
  rule : Rule
  dot : Nat
  lookaheads : OrderedSet Symbol
  deriving DecidableEq, Repr

namespace State

/-- Makes an addition, unless it fails. -/
def accept (s : State) (a : Addition) : State :=
  match s.add a.rule a.dot a.lookaheads with
  | .ok (t, _) => t
  | .error _ => s

/-- Makes additions one after another. -/
def fill (s : State) (additions : List Addition) : State := additions.foldl accept s

end State

end ShiftReduce
