import ShiftReduce.Collection.Construction
import ShiftReduce.State.Action
import ShiftReduce.State.Conflicts

/-!
# Tables

The complete collection of states of a grammar, ready to be looked up.
-/

namespace ShiftReduce

structure Table where
  grammar : Grammar
  config : Config
  states : Array State
  deriving DecidableEq, Repr

namespace Table

def build (g : Grammar) (config : Config) : Except BuildError Table := do
  .ok ⟨g, config, (← Collection.build (.new g config)).states⟩

/-- The number of the state that parsing begins in. -/
def startState : StateId := 0

def size (t : Table) : Nat := t.states.size

def state (t : Table) (id : StateId) : Except Fault State :=
  match t.states[id]? with
  | some s => .ok s
  | none => .error (.missingState id)

def action (t : Table) (id : StateId) (terminal : String) : Except Fault Action := do
  .ok ((← t.state id).action terminal t.config.endOfInput)

def goto? (t : Table) (id : StateId) (intermediate : String) : Except Fault (Option StateId) := do
  .ok ((← t.state id).goto? intermediate)

/-- The conflicts of all states. -/
def check (t : Table) : List Diagnostic := t.states.toList.flatMap State.check

end Table

end ShiftReduce
