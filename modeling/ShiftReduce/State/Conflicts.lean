import ShiftReduce.Diagnostic
import ShiftReduce.State.Basic

/-!
# Conflicts

Two items that complete different rules conflict if a lookahead admits both. Without lookaheads
any two of them conflict.
-/

namespace ShiftReduce.State

def overlap (method : Method) (i j : Item) : Bool :=
  method = .lr0 || !i.lookaheads.disjoint j.lookaheads

/-- The reducing items that conflict with another one. -/
def conflicting (s : State) : List Item :=
  let reducing := s.items.filter Item.reducing
  reducing.filter fun i => reducing.any fun j => i.core ≠ j.core && overlap s.method i j

def accepting (s : State) : List Item := s.items.filter Item.accepting

/-- The conflicts of a state that has its number. -/
def check (s : State) : List Diagnostic :=
  match s.number with
  | none => []
  | some id =>
    let conflicts := s.conflicting.map Item.text
    let accepts := s.accepting.map Item.text
    (if conflicts = [] then [] else [.reduceReduceConflict id conflicts]) ++
      (if accepts.length ≤ 1 then [] else [.multipleAccept id accepts])

end ShiftReduce.State
