import Mathlib.Data.List.Nodup
import ShiftReduce.Worklist

/-!
# What is waiting

A worklist keeps its values twice, in the queue and among those that are pending. Both hold the same
values at all times, and none of them twice.
-/

namespace ShiftReduce

universe u

namespace Worklist

variable {α : Type u} [Ord α] {w v : Worklist α} {a b : α}

/-- What is waiting is what is queued. -/
structure InStep (w : Worklist α) : Prop where
  nodup : w.queue.Nodup
  pending : ∀ a, a ∈ w.pending ↔ a ∈ w.queue

theorem inStep_empty : (empty : Worklist α).InStep :=
  ⟨List.nodup_nil, fun a => by simp [empty]⟩

theorem InStep.push_of_mem (h : w.InStep) (ha : a ∈ w.queue) : (w.push a).1 = w := by
  have hp := Std.TreeSet.mem_iff_contains.mp ((h.pending a).mpr ha)
  simp [push, hp]

theorem InStep.queue_push_of_not_mem (h : w.InStep) (ha : a ∉ w.queue) :
    (w.push a).1.queue = w.queue ++ [a] := by
  have hp : w.pending.contains a = false := by
    rw [Bool.eq_false_iff]
    exact fun hp => ha ((h.pending a).mp (Std.TreeSet.mem_iff_contains.mpr hp))
  simp [push, hp]

theorem InStep.push_iff (h : w.InStep) : (w.push a).2 = true ↔ a ∉ w.queue := by
  rw [← h.pending, Std.TreeSet.mem_iff_contains, push]
  split <;> simp [*]

theorem InStep.mem_push (h : w.InStep) : b ∈ (w.push a).1.queue ↔ b ∈ w.queue ∨ b = a := by
  by_cases ha : a ∈ w.queue
  · rw [h.push_of_mem ha]
    refine ⟨.inl, ?_⟩
    rintro (hb | rfl) <;> assumption
  · rw [h.queue_push_of_not_mem ha, List.mem_append, List.mem_singleton]

theorem InStep.length_push (h : w.InStep) (a : α) :
    (w.push a).1.queue.length ≤ w.queue.length + 1 := by
  by_cases ha : a ∈ w.queue
  · rw [h.push_of_mem ha]
    exact Nat.le_succ _
  · rw [h.queue_push_of_not_mem ha, List.length_append]
    exact Nat.le_refl _

theorem pop?_eq_none : w.pop? = none ↔ w.queue = [] := by
  unfold pop?
  split <;> simp [*]

theorem pop?_of_cons {l : List α} (hq : w.queue = a :: l) :
    w.pop? = some (a, ⟨l, w.pending.erase a⟩) := by
  rw [pop?, hq]

variable [Std.TransOrd α] [Std.LawfulEqOrd α]

theorem InStep.push (h : w.InStep) (a : α) : (w.push a).1.InStep := by
  by_cases ha : a ∈ w.queue
  · rwa [h.push_of_mem ha]
  · have hp : w.pending.contains a = false := by
      rw [Bool.eq_false_iff]
      exact fun hp => ha ((h.pending a).mp (Std.TreeSet.mem_iff_contains.mpr hp))
    refine ⟨?_, fun b => ?_⟩
    · rw [h.queue_push_of_not_mem ha, ← List.concat_eq_append]
      exact h.nodup.concat ha
    · rw [h.mem_push]
      simp only [Worklist.push, hp, Bool.false_eq_true, if_false, Std.TreeSet.mem_insert,
        Std.LawfulEqOrd.compare_eq_iff_eq, h.pending]
      rw [or_comm, @eq_comm _ a]

theorem InStep.pop? (h : w.InStep) (hw : w.pop? = some (a, v)) :
    w.queue = a :: v.queue ∧ v.InStep := by
  unfold Worklist.pop? at hw
  split at hw
  · cases hw
  · rename_i b rest hq
    cases hw
    obtain ⟨ha, hrest⟩ := List.nodup_cons.mp (hq ▸ h.nodup)
    refine ⟨hq, hrest, fun b => ?_⟩
    rw [Std.TreeSet.mem_erase, h.pending, hq, List.mem_cons]
    constructor
    · rintro ⟨hne, rfl | hb⟩
      · exact absurd Std.ReflOrd.compare_self hne
      · exact hb
    · intro hb
      refine ⟨fun he => ?_, .inr hb⟩
      rw [Std.LawfulEqOrd.eq_of_compare he] at ha
      exact ha hb

end Worklist

end ShiftReduce
