import ShiftReduce.OrderedSet
import ShiftReduce.Queueing
import ShiftReduce.Worklist

/-!
# Dockets

A docket is a worklist with an ordered set of what is waiting. A value that is taken out of the set
leaves its place to the last one, so the set does not keep the order of the queue.
-/

namespace ShiftReduce

universe u

variable {α : Type u}

namespace OrderedSet

theorem perm_swapIfInBounds (l : Array α) (n k : Nat) :
    (l.swapIfInBounds n k).toList.Perm l.toList := by
  rw [Array.swapIfInBounds_def]
  split
  · split
    · exact (Array.swap_perm _ _).toList
    · exact .refl _
  · exact .refl _

theorem nodup_swap_pop {l : Array α} (h : l.toList.Nodup) (n k : Nat) :
    (l.swapIfInBounds n k).pop.toList.Nodup := by
  rw [Array.toList_pop]
  exact ((perm_swapIfInBounds l n k).nodup_iff.mpr h).sublist (List.dropLast_sublist _)

variable [Ord α]

/-- Takes out the member at the place `n`. The last member moves there. -/
def swapRemoveAt (s : OrderedSet α) (n : Nat) : OrderedSet α :=
  let kept := (s.toArray.swapIfInBounds n (s.size - 1)).pop
  ⟨kept, places kept.toList, nodup_swap_pop s.nodup n (s.size - 1), rfl⟩

/-- Takes out `a`, if it is a member. -/
def swapRemove (s : OrderedSet α) (a : α) : OrderedSet α :=
  match s.place? a with
  | some n => s.swapRemoveAt n
  | none => s

end OrderedSet

structure Docket (α : Type u) [Ord α] where
  queue : List α
  pending : OrderedSet α

namespace Docket

variable [Ord α]

def empty : Docket α := ⟨[], ∅⟩

def isEmpty (d : Docket α) : Bool := d.queue.isEmpty

/-- Takes out the value that has waited longest. -/
def pop? (d : Docket α) : Option (α × Docket α) :=
  match d.queue with
  | [] => none
  | a :: rest => some (a, ⟨rest, d.pending.swapRemove a⟩)

variable [Std.TransOrd α] [Std.LawfulEqOrd α]

/-- Queues `a`, and answers whether it was not waiting before. -/
def push (d : Docket α) (a : α) : Docket α × Bool :=
  let fresh := decide (a ∉ d.pending)
  (⟨if fresh then d.queue ++ [a] else d.queue, d.pending.insert a⟩, fresh)

def queueing : Queueing (Docket α) α where
  empty := empty
  isEmpty := isEmpty
  push := push
  pop? := pop?
  queue := queue
  Pending d a := a ∈ d.pending

end Docket

def Worklist.queueing [Ord α] : Queueing (Worklist α) α where
  empty := empty
  isEmpty := isEmpty
  push := push
  pop? := pop?
  queue := queue
  Pending w a := a ∈ w.pending

end ShiftReduce
