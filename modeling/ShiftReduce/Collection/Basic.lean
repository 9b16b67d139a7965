import ShiftReduce.State.Closure
import ShiftReduce.State.Merge

/-!
# Collections

The states found so far, numbered by their places. An index leads from a list of cores to the
states that have it, and `visited` counts the states whose successors are all recorded.
-/

namespace ShiftReduce

/-- The number of different state numbers, which have 32 bits. -/
def stateLimit : Nat := 0x100000000

/-! ## Looking up states by their cores -/

/-- Buckets of states with the same list of cores. -/
structure CoreIndex where
  buckets : Std.TreeMap (List Core) (List StateId)

namespace CoreIndex

def empty : CoreIndex := ⟨∅⟩

/-- The states with the given cores in the order in which they were added. -/
def candidates (x : CoreIndex) (cores : List Core) : List StateId := x.buckets.getD cores []

def add (x : CoreIndex) (cores : List Core) (id : StateId) : CoreIndex :=
  ⟨x.buckets.insert cores (x.candidates cores ++ [id])⟩

theorem candidates_empty (cores : List Core) : empty.candidates cores = [] := by
  simp [candidates, empty]

theorem candidates_add (x : CoreIndex) (cores key : List Core) (id : StateId) :
    (x.add cores id).candidates key =
      if key = cores then x.candidates cores ++ [id] else x.candidates key := by
  by_cases h : key = cores
  · simp [candidates, add, h]
  · have hne : compare cores key ≠ .eq := fun he => h (Std.LawfulEqOrd.eq_of_compare he).symm
    simp [candidates, add, h, Std.TreeMap.getD_insert, hne]

end CoreIndex

/-! ## Collections -/

/-- What happens to the states during a construction. -/
inductive Event where
  | added (id : StateId)
  /-- A new state brought lookaheads to the state that it was merged into. -/
  | merged (id : StateId)
  /-- The lookaheads of a state are carried to its successors. -/
  | propagated (source : StateId)
  /-- The lookaheads of `target` grew. -/
  | carried (source target : StateId)
  /-- The recorded successor does not match. -/
  | unmatched (source target : StateId)
  deriving DecidableEq, Repr

structure Collection where
  states : Array State
  index : CoreIndex
  visited : Nat
  /-- The newest event is the first. -/
  events : List Event

namespace Collection

def empty : Collection := ⟨#[], .empty, 0, []⟩

def state (c : Collection) (id : StateId) : Except Fault State :=
  match c.states[id]? with
  | some s => .ok s
  | none => .error (.missingState id)

def setState (c : Collection) (id : StateId) (s : State) : Collection :=
  { c with states := c.states.setIfInBounds id s }

def note (c : Collection) (e : Event) : Collection := { c with events := e :: c.events }

/-- Adds a state behind the others. -/
def append (c : Collection) (s : State) : Except Fault (Collection × StateId) :=
  let id := c.states.size
  if id < stateLimit then
    let c := { c with
      states := c.states.push { s with number := some id }
      index := c.index.add s.cores id }
    .ok (c.note (.added id), id)
  else .error .tooManyStates

/-- The first of the states `ids` that `s` can be merged into. -/
def firstMergeable? (c : Collection) (s : State) : List StateId → Except Fault (Option StateId)
  | [] => .ok none
  | id :: rest => do
    if (← c.state id).mergeable s then .ok (some id) else c.firstMergeable? s rest

/-- The first state that `s` can be merged into. -/
def match? (c : Collection) (s : State) : Except Fault (Option StateId) :=
  c.firstMergeable? s (c.index.candidates s.cores)

end Collection

end ShiftReduce
