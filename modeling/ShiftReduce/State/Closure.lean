import ShiftReduce.Setup

/-!
# Closing a state

A closed state holds, for each item whose dot is before an intermediate, an item for each of its
alternatives; the lookaheads of these include the terminals that can follow the intermediate.
The alternatives of one intermediate all come to have the same lookaheads, so what closing finds
out is a family: the lookaheads of the alternatives by the intermediate. Closing goes over the
items, those of the alternatives found on the way included, until a pass changes nothing.
-/

namespace ShiftReduce.State

variable (u : Setup)

/-- Adds what an item says: its lookaheads and the rest of its rule decide what follows the
alternatives of the intermediate behind the dot. -/
def expand (method : Method) (found : Family String Symbol) (i : Item) : Family String Symbol :=
  match i.nextSymbol? with
  | some (.intermediate name) =>
    found.extend name (carried method (u.first.firstWith i.rest i.lookaheads))
  | _ => found

/-! ## Items of the draft -/

/-- An item of the draft as it is to be. One that begins a rule is itself an alternative. -/
def adjust (found : Family String Symbol) (i : Item) : Item :=
  if i.dot = 0 then
    match u.grammar.rule i.rule.id with
    | .ok r => i.unite (found.get r.left)
    | .error _ => i
  else i

/-- The rules that items of the draft begin. -/
def begun (s : State) : List RuleId := (s.items.filter (·.dot = 0)).map (·.rule.id)

/-- The items of the alternatives of `name` that the draft does not hold. -/
def added (begun : List RuleId) (found : Family String Symbol) (name : String) : List Item :=
  ((u.alternatives name).filter (·.id ∉ begun)).map (Item.ofRule · (found.get name))

/-! ## Passes -/

/-- Expands the alternatives of `name`, each with the lookaheads as they are at its turn. -/
def expandAlternatives (method : Method) (begun : List RuleId) (found : Family String Symbol)
    (name : String) : Family String Symbol :=
  ((u.alternatives name).filter (·.id ∉ begun)).foldl
    (fun found r => expand u method found (.ofRule r (found.get name))) found

/-- Expands the alternatives of the names found from the place `n` on. -/
def expandFrom (method : Method) (begun : List RuleId) :
    Nat → Nat → Family String Symbol → Family String Symbol
  | 0, _, found => found
  | bound + 1, n, found =>
    match found.keys.toArray[n]? with
    | none => found
    | some name =>
      expandFrom method begun bound (n + 1) (expandAlternatives u method begun found name)

/-- There are no more names than items of the draft and rules. -/
def nameBound (s : State) : Nat := s.items.length + u.coreCount

/-- One pass over the items of the draft and those of the alternatives found. -/
def pass (s : State) (found : Family String Symbol) : Family String Symbol :=
  let found := s.items.foldl (fun found i => expand u s.method found (adjust u found i)) found
  expandFrom u s.method s.begun (s.nameBound u) 0 found

/-- There are no more lookaheads than symbols in the rules and in the draft. -/
def symbolBound (s : State) : Nat :=
  u.coreCount + s.items.foldr (fun i n => i.rule.right.length + i.lookaheads.size + n) 0

/-- Each pass but the last finds a name, or a lookahead for one of the names. -/
def passBound (s : State) : Nat := s.nameBound u * (s.symbolBound u + 1)

/-- The lookaheads of the alternatives that closing a draft adds. -/
def expansions (s : State) : Family String Symbol := settle (s.pass u) (s.passBound u) ∅

/-- Closes a state, unless it is closed. -/
def close (s : State) : State :=
  if s.closed then s
  else
    let found := s.expansions u
    { s with
      items := s.items.map (adjust u found) ++
        found.keys.toList.flatMap (added u s.begun found)
      closed := true }

end ShiftReduce.State
