/-!
# Queueing

Values wait until they are taken out, first in first out, and a value that is waiting is not queued
again. This can be kept in several ways. Each way is asked to push and to pop, in any order, and a
log says what came of it.
-/

namespace ShiftReduce

universe u

/-- A way of keeping values that wait, in states of type `σ`. -/
structure Queueing (σ α : Type u) where
  empty : σ
  isEmpty : σ → Bool
  /-- Also answers whether the value has been queued. -/
  push : σ → α → σ × Bool
  pop? : σ → Option (α × σ)
  /-- The values in the order in which they will be taken out. -/
  queue : σ → List α
  /-- The values that are known to be waiting. -/
  Pending : σ → α → Prop

namespace Queueing

inductive Move (α : Type u) where
  | push (a : α)
  | pop
  deriving DecidableEq, Repr

/-- What comes of a move. -/
inductive Event (α : Type u) where
  | queued (a : α)
  | refused (a : α)
  | taken (a : α)
  /-- There was nothing to take out. -/
  | idle
  deriving DecidableEq, Repr

variable {σ α : Type u}

def Event.queued? : Event α → Option α
  | queued a => some a
  | _ => none

def Event.taken? : Event α → Option α
  | taken a => some a
  | _ => none

/-- The values that have been queued. -/
def entered (log : List (Event α)) : List α := log.filterMap Event.queued?

/-- The values that have been taken out. -/
def left (log : List (Event α)) : List α := log.filterMap Event.taken?

variable (q : Queueing σ α)

def make (s : σ) : Move α → σ × Event α
  | .push a =>
    let (t, fresh) := q.push s a
    (t, if fresh then .queued a else .refused a)
  | .pop =>
    match q.pop? s with
    | some (a, t) => (t, .taken a)
    | none => (s, .idle)

def run (s : σ) : List (Move α) → σ × List (Event α)
  | [] => (s, [])
  | m :: moves =>
    let (t, e) := q.make s m
    let (r, log) := run t moves
    (r, e :: log)

/-- What moves lead to when nothing is waiting. -/
def after (moves : List (Move α)) : σ × List (Event α) := q.run q.empty moves

/-- A list, searched for a value before it is put behind the others. -/
def plain [DecidableEq α] : Queueing (List α) α where
  empty := []
  isEmpty := List.isEmpty
  push l a := if a ∈ l then (l, false) else (l ++ [a], true)
  pop?
    | [] => none
    | a :: l => some (a, l)
  queue l := l
  Pending l a := a ∈ l

end Queueing

end ShiftReduce
