import ShiftReduce.Item

/-!
# States

A state is a list of items with pairwise different cores. It begins as a draft, is closed once,
and gets its number when it joins the collection of states. From then on only the lookaheads and
the recorded successors of its items change.
-/

namespace ShiftReduce

/-- How states are closed and merged. -/
inductive Method where
  /-- Items carry no lookaheads. -/
  | lr0
  /-- States are merged only if all their lookaheads agree. -/
  | lr1
  /-- States with the same cores are merged, and their lookaheads united. -/
  | lalr1
  deriving DecidableEq, Repr

namespace Method

def text : Method → String
  | lr0 => "LR(0)"
  | lr1 => "LR(1)"
  | lalr1 => "LALR(1)"

end Method

structure State where
  method : Method
  /-- The place in the collection of states. -/
  number : Option StateId
  items : List Item
  closed : Bool
  deriving DecidableEq, Repr

namespace State

/-- A state without items. -/
def draft (method : Method) : State := ⟨method, none, [], false⟩

def cores (s : State) : List Core := s.items.map Item.core

def item? (s : State) (c : Core) : Option Item := s.items.find? (·.core = c)

def lookaheadCount (s : State) : Nat := s.items.foldr (fun i n => i.lookaheads.size + n) 0

/-- The items, one a line. -/
def text (s : State) : String := Text.lines (s.items.map Item.text)

/-! ## Adding items -/

/-- The lookaheads that the items of a method carry. -/
def carried : Method → OrderedSet Symbol → OrderedSet Symbol
  | .lr0, _ => ∅
  | .lr1, la => la
  | .lalr1, la => la

/-- Gives more lookaheads to the item with the core `c`. -/
def unite (s : State) (c : Core) (la : OrderedSet Symbol) : State :=
  { s with items := s.items.map fun i => if i.core = c then i.unite la else i }

/-- Adds an item behind the others, or unites the lookaheads with those of the item that has the
same core. Answers the state and whether it changed. -/
def add (s : State) (r : Rule) (dot : Nat) (lookaheads : OrderedSet Symbol) :
    Except Fault (State × Bool) :=
  let la := carried s.method lookaheads
  match s.item? ⟨r.id, dot⟩ with
  | some i => .ok (s.unite i.core la, decide (i.lookaheads.size < (i.unite la).lookaheads.size))
  | none =>
    if s.closed then .error .closedState
    else do
      let i ← Item.new r dot la
      .ok ({ s with items := s.items ++ [i] }, true)

/-- The draft from which the construction starts. -/
def start (method : Method) (r : Rule) (endOfInput : String) : State :=
  { draft method with items := [.ofRule r (carried method (.ofList [.terminal endOfInput]))] }

end State

end ShiftReduce
