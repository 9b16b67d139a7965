import ShiftReduce.State.Closure
import ShiftReduce.Turns

/-!
# Closing item by item

A state can also be closed by adding items to it one after another. A sweep goes over the items,
those that it has added itself included, and adds the alternatives of what each of them waits for;
sweeps are repeated until one changes nothing. In LR(0) there is one sweep, and it passes over what
has been waited for before. Neither loop has a bound.
-/

namespace ShiftReduce

/-- Adds the rules with nothing read, and answers whether anything changed. -/
def State.addAll (s : State) (rules : List Rule) (la : OrderedSet Symbol) :
    Except Fault (State × Bool) :=
  rules.foldlM
    (fun p r => do
      let (t, grew) ← p.1.add r 0 la
      .ok (t, p.2 || grew))
    (s, false)

/-- A closing under way: the items so far, the place of the next one, and whether this sweep has
changed anything. -/
structure Sweep where
  state : State
  place : Nat
  changed : Bool
  /-- In LR(0), the names whose alternatives have been added. -/
  seen : OrderedSet String

namespace Sweep

def see (w : Sweep) (name : String) : OrderedSet String :=
  if w.state.method = .lr0 then w.seen.insert name else w.seen

/-- Adds the alternatives of what the item at the place waits for. There is nothing to do at the end
of the list. -/
def advance (u : Setup) (w : Sweep) : Except Fault (Option Sweep) :=
  match w.state.items[w.place]? with
  | none => .ok none
  | some i =>
    match i.nextSymbol? with
    | some (.intermediate name) =>
      if name ∈ w.seen then .ok (some { w with place := w.place + 1 })
      else do
        let (s, grew) ←
          w.state.addAll (u.alternatives name) (u.first.firstWith i.rest i.lookaheads)
        .ok (some ⟨s, w.place + 1, w.changed || grew, w.see name⟩)
    | _ => .ok (some { w with place := w.place + 1 })

/-- At the end of the list a sweep that has changed anything is followed by another one, except in
LR(0). -/
def turn (u : Setup) (w : Sweep) : Except Fault (Option Sweep) := do
  match ← w.advance u with
  | some v => .ok (some v)
  | none =>
    .ok (if w.changed ∧ w.state.method ≠ .lr0 then some { w with place := 0, changed := false }
      else none)

end Sweep

namespace State

/-- Closing `s` item by item ends, and leads to `t`. -/
def Closes (u : Setup) (s t : State) : Prop :=
  ∃ n w, Ends (Sweep.turn u) n ⟨s, 0, false, ∅⟩ w ∧ t = { w.state with closed := true }

/-- Adding the items of `s` one after another, to a state without items, forms `s`. -/
def Gathered (s : State) : Prop :=
  s.items.foldlM (fun t i => Prod.fst <$> t.add i.rule i.dot i.lookaheads) (draft s.method) = .ok s

end State

end ShiftReduce
