import ShiftReduce.State.Basic

/-!
# Actions

What a parser does in a state: the first item that admits the next terminal decides.
-/

namespace ShiftReduce

inductive Action where
  | shift (state : StateId)
  | reduce (rule : RuleId)
  | accept
  | error
  deriving DecidableEq, Repr

namespace State

/-- Whether a complete item may be reduced before `terminal`. -/
def reducibleBefore (method : Method) (terminal : String) (i : Item) : Bool :=
  method = .lr0 || i.lookaheads.toList.any (·.name = terminal)

/-- What an item says about `terminal`, if it admits it. -/
def verdict (method : Method) (terminal endOfInput : String) (i : Item) : Option Action :=
  match i.nextSymbol? with
  | some x => if x = .terminal terminal then i.next.map .shift else none
  | none =>
    if i.accepting then (if terminal = endOfInput then some .accept else none)
    else if reducibleBefore method terminal i then some (.reduce i.rule.id) else none

def action (s : State) (terminal endOfInput : String) : Action :=
  (s.items.findSome? (verdict s.method terminal endOfInput)).getD .error

/-- The state in which parsing goes on after `intermediate` has been reduced. -/
def goto? (s : State) (intermediate : String) : Option StateId :=
  (s.items.find? (·.nextSymbol? = some (.intermediate intermediate))).bind Item.next

/-- The terminals of a grammar, and the end of input if it is not one of them. -/
def inputs (g : Grammar) (endOfInput : String) : List String :=
  (g.terminals.insert endOfInput).toList

/-- Whether the action is the same for all that can be read next. -/
def sameAction (s : State) (g : Grammar) (endOfInput : String) : Bool :=
  match (inputs g endOfInput).map (s.action · endOfInput) with
  | [] => true
  | a :: rest => rest.all (· = a)

end State

end ShiftReduce
