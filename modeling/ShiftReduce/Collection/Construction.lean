import ShiftReduce.Collection.Propagation

/-!
# Construction

The states are visited in the order of their numbers. The successors of a state are closed and
placed: a successor is merged into a state that it matches, or else it joins the collection. When
every state has been visited, the collection is complete.
-/

namespace ShiftReduce.Collection

variable (u : Setup)

/-- Finds a place for a closed state, and answers its number. -/
def placeClosed (c : Collection) (s : State) : Except Fault (Collection × StateId) := do
  match ← c.match? s with
  | none => c.append s
  | some id =>
    let (merged, grew) ← (← c.state id).merge s
    let c := c.setState id merged
    if grew then .ok (← (c.note (.merged id)).propagate u id, id) else .ok (c, id)

def place (c : Collection) (s : State) : Except Fault (Collection × StateId) :=
  c.placeClosed u (s.close u)

/-- Places a successor of the state `id` and records where it is. -/
def record (id : StateId) (c : Collection) (draft : Symbol × State) :
    Except Fault Collection := do
  let (c, target) ← c.place u draft.2
  .ok (c.setState id ((← c.state id).assign draft.1 target))

/-- Visits the next state. Lookaheads that the state itself has gained on the way are not in the
successors formed at the start, so they are propagated at the end. -/
def visit (c : Collection) : Except Fault Collection := do
  let id := c.visited
  let s ← c.state id
  let c ← s.successors.foldlM (record u id) c
  let c ← if (← c.state id).lookaheadCount = s.lookaheadCount then .ok c else c.propagate u id
  .ok { c with visited := id + 1 }

/-- Visits states until all have been visited. -/
def visitAll : Nat → Collection → Except Fault Collection
  | bound, c =>
    if c.visited < c.states.size then
      match bound with
      | 0 => .error .unsettled
      | bound + 1 => do visitAll bound (← c.visit u)
    else .ok c

/-- The collection that holds nothing but the start state. -/
def initial (s : State) : Except Fault Collection :=
  Prod.fst <$> empty.place u s

/-- Visits all states, beginning with the start state. There are no more visits than state
numbers. -/
def construct (s : State) : Except Fault Collection :=
  match initial u s with
  | .error f => .error f
  | .ok c => visitAll u stateLimit c

/-- The complete collection of states. -/
def build : Except BuildError Collection :=
  match u.start u.config.method with
  | .error e => .error e
  | .ok s =>
    match construct u s with
    | .error f => .error (.fault f)
    | .ok c => .ok c

/-- The states of a collection on request. They are built if it has none yet. -/
def generate (c : Collection) : Except BuildError Collection :=
  if c.states.isEmpty then build u else .ok c

/-- What is there after `n` requests. One that fails leaves the collection as it is. -/
def requested (c : Collection) : Nat → Collection
  | 0 => c
  | n + 1 => ((requested c n).generate u).toOption.getD (requested c n)

end ShiftReduce.Collection
