/-!
# Faults

A fault is a step taken outside its contract. Operations that have a contract answer in
`Except Fault`, so a caller sees which condition failed. A construction also fails if there is
nothing to start from.
-/

namespace ShiftReduce

inductive Fault where
  /-- An item was asked for with its dot behind the end of the rule. -/
  | dotOutOfRule
  /-- A closed state was given an item with a new core. -/
  | closedState
  /-- Two states that do not match were merged. -/
  | unrelatedStates
  | missingRule (id : Nat)
  | missingState (id : Nat)
  /-- Every rule number is taken. -/
  | ruleNumbersExhausted
  /-- Every state number is taken. -/
  | tooManyStates
  /-- A loop was cut off at its bound before it had settled. -/
  | unsettled
  deriving DecidableEq, Repr

namespace Fault

def message : Fault → String
  | dotOutOfRule => "the dot is out of the rule"
  | closedState => "adding a new item to a closed state"
  | unrelatedStates => "merging unrelated states"
  | missingRule id => "there is no rule " ++ toString id
  | missingState id => "there is no state " ++ toString id
  | ruleNumbersExhausted => "every rule number is taken"
  | tooManyStates => "too many states"
  | unsettled => "a loop reached its bound"

end Fault

/-- Why no table was built. -/
inductive BuildError where
  | missingStartRule (name : String)
  | fault (f : Fault)
  deriving DecidableEq, Repr

namespace BuildError

def message : BuildError → String
  | missingStartRule name => "the grammar has no start rule `" ++ name ++ "'"
  | fault f => f.message

end BuildError

end ShiftReduce
