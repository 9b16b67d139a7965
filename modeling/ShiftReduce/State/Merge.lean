import ShiftReduce.State.Basic

/-!
# Merging states

Two states match if they have the same cores in the same order and, in canonical LR(1), the same
lookaheads. Merging a state into one that it matches unites the lookaheads pair by pair.
-/

namespace ShiftReduce.State

def itemsMatch (method : Method) (i j : Item) : Bool :=
  i.core = j.core && (method ≠ .lr1 || i.lookaheads.sameMembers j.lookaheads)

def mergeable (s t : State) : Bool :=
  s.method = t.method && s.items.length == t.items.length &&
    (s.items.zip t.items).all fun (i, j) => itemsMatch s.method i j

/-- The items of `s` with the lookaheads of the items of `t`. -/
def absorb (s t : State) : State :=
  { s with items := s.items.zipWith (fun i j => i.unite j.lookaheads) t.items }

/-- Answers the merged state and whether a set of lookaheads grew. -/
def merge (s t : State) : Except Fault (State × Bool) :=
  if s.mergeable t then
    let merged := s.absorb t
    .ok (merged, decide (s.lookaheadCount < merged.lookaheadCount))
  else .error .unrelatedStates

end ShiftReduce.State
