import ShiftReduce.Collection.Reached
import ShiftReduce.Turns

/-!
# Stages of the construction

A stage is a collection and what the construction is about to do with it: to begin the next visit,
to place the drafts of the visited state that are left, or to propagate. Propagation interrupts the
visit, so it comes with what is to be done afterwards. A step begins a visit, places one draft,
carries the lookaheads of one state, or goes on after these; no loop is hidden in it but those over
the symbols of one state.
-/

namespace ShiftReduce.Collection

/-- What is left to be done when lookaheads have been propagated. -/
inductive Resume where
  /-- The draft behind `x` has been merged into `target`. -/
  | record (id : StateId) (s : State) (x : Symbol) (target : StateId)
      (rest : List (Symbol × State))
  | finish (id : StateId)

inductive Task where
  | visit
  /-- The state `id` had the items of `s` when its visit began, and `drafts` are to be placed. -/
  | place (id : StateId) (s : State) (drafts : List (Symbol × State))
  | propagate (w : Worklist StateId) (k : Resume)

structure Stage where
  collection : Collection
  task : Task

namespace Stage

def record (c : Collection) (id : StateId) (s : State) (x : Symbol) (target : StateId)
    (rest : List (Symbol × State)) : Except Fault Stage := do
  .ok ⟨c.setState id ((← c.state id).assign x target), .place id s rest⟩

def finish (c : Collection) (id : StateId) : Stage := ⟨{ c with visited := id + 1 }, .visit⟩

def propagate (c : Collection) (source : StateId) (k : Resume) : Stage :=
  ⟨c.note (.propagated source), .propagate (Worklist.empty.push source).1 k⟩

def resume (c : Collection) : Resume → Except Fault Stage
  | .record id s x target rest => record c id s x target rest
  | .finish id => .ok (finish c id)

/-- Finds a place for what the draft behind `x` has been closed to. -/
def place (c : Collection) (id : StateId) (s : State) (x : Symbol) (rest : List (Symbol × State))
    (formed : State) : Except Fault Stage := do
  match ← c.match? formed with
  | none => do
    let (c, target) ← c.append formed
    record c id s x target rest
  | some target => do
    let (merged, grew) ← (← c.state target).merge formed
    let c := c.setState target merged
    if grew then .ok (propagate (c.note (.merged target)) target (.record id s x target rest))
    else record c id s x target rest

/-- One step of the construction. There is none when all states have been visited. -/
def step (u : Setup) (a : Stage) : Except Fault (Option Stage) :=
  let c := a.collection
  match a.task with
  | .visit =>
    if c.visited < c.states.size then do
      let s ← c.state c.visited
      .ok (some ⟨c, .place c.visited s s.successors⟩)
    else .ok none
  | .place id s [] => do
    if (← c.state id).lookaheadCount = s.lookaheadCount then .ok (some (finish c id))
    else .ok (some (propagate c id (.finish id)))
  | .place id s ((x, draft) :: rest) => do .ok (some (← place c id s x rest (draft.close u)))
  | .propagate w k =>
    match w.pop? with
    | none => do .ok (some (← resume c k))
    | some (source, w) => do
      let (c, w) ← carryAll u source c w
      .ok (some ⟨c, .propagate w k⟩)

/-- The drafts that are to be closed. -/
def drafts (a : Stage) : List State :=
  match a.task with
  | .visit => []
  | .place _ _ drafts => drafts.map Prod.snd
  | .propagate w _ =>
    match w.pop? with
    | none => []
    | some (source, _) => a.collection.states[source]?.toList.flatMap (·.successors.map Prod.snd)

/-- The states whose lookaheads are to be carried to their successors. -/
def queue (a : Stage) : List StateId :=
  match a.task with
  | .visit => []
  | .place _ _ _ => []
  | .propagate w _ => w.queue

/-- The stage at which the construction begins. -/
def first (u : Setup) : Except BuildError Stage :=
  match u.start u.config.method with
  | .error e => .error e
  | .ok s =>
    match initial u s with
    | .error f => .error (.fault f)
    | .ok c => .ok ⟨c, .visit⟩

/-- `n` steps of the construction lead to the stage `a`. -/
def Reached (u : Setup) (n : Nat) (a : Stage) : Prop :=
  ∃ b, first u = .ok b ∧ Turns (step u) n b a

end Stage

end ShiftReduce.Collection
