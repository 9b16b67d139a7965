import Std.Data.TreeSet

/-!
# Worklists

A queue of values that are to be worked on, first in first out. A value that is waiting is not
queued again; once it has been taken out it may be queued anew.
-/

namespace ShiftReduce

universe u

structure Worklist (α : Type u) [Ord α] where
  queue : List α
  /-- The values that are waiting. -/
  pending : Std.TreeSet α

namespace Worklist

variable {α : Type u} [Ord α]

def empty : Worklist α := ⟨[], ∅⟩

def isEmpty (w : Worklist α) : Bool := w.queue.isEmpty

/-- Queues `a`, and answers whether it was not waiting before. -/
def push (w : Worklist α) (a : α) : Worklist α × Bool :=
  if w.pending.contains a then (w, false) else (⟨w.queue ++ [a], w.pending.insert a⟩, true)

/-- Takes out the value that has waited longest. -/
def pop? (w : Worklist α) : Option (α × Worklist α) :=
  match w.queue with
  | [] => none
  | a :: rest => some (a, ⟨rest, w.pending.erase a⟩)

end Worklist

end ShiftReduce
