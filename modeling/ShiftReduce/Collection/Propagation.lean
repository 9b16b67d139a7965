import ShiftReduce.Collection.Basic
import ShiftReduce.State.Successors
import ShiftReduce.Worklist

/-!
# Propagation

When the lookaheads of a state have grown, its successors are formed anew and merged into the
recorded ones. A successor whose lookaheads grow is propagated in turn. A symbol whose successor
is not recorded yet is passed over: its successor will be formed from the grown lookaheads.
-/

namespace ShiftReduce.Collection

variable (u : Setup)

/-- Carries the lookaheads of `source` over one symbol. -/
def carry (source : StateId) (cw : Collection × Worklist StateId) (draft : Symbol × State) :
    Except Fault (Collection × Worklist StateId) := do
  let (c, w) := cw
  match (← c.state source).successor? draft.1 with
  | none => .ok (c, w)
  | some target =>
    let formed := draft.2.close u
    let recorded ← c.state target
    if recorded.mergeable formed then
      let (merged, grew) ← recorded.merge formed
      let c := c.setState target merged
      if grew then .ok (c.note (.carried source target), (w.push target).1) else .ok (c, w)
    else .ok (c.note (.unmatched source target), w)

/-- Carries the lookaheads of a state to all its recorded successors. -/
def carryAll (source : StateId) (c : Collection) (w : Worklist StateId) :
    Except Fault (Collection × Worklist StateId) := do
  (← c.state source).successors.foldlM (carry u source) (c, w)

/-- Works until no state is waiting. -/
def propagateLoop : Nat → Collection → Worklist StateId → Except Fault Collection
  | bound, c, w =>
    match w.pop? with
    | none => .ok c
    | some (source, w) =>
      match bound with
      | 0 => .error .unsettled
      | bound + 1 => do
        let (c, w) ← carryAll u source c w
        propagateLoop bound c w

/-- A state is queued when a set of lookaheads has grown. A state has no more items than there are
cores, and their lookaheads are terminals of the rules and the end of input. -/
def propagationBound (c : Collection) : Nat :=
  c.states.size * u.coreCount * (u.coreCount + 1) + 1

def propagate (c : Collection) (source : StateId) : Except Fault Collection :=
  propagateLoop u (propagationBound u c) (c.note (.propagated source))
    (Worklist.empty.push source).1

end ShiftReduce.Collection
