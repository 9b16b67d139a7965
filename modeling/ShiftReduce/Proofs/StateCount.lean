import Mathlib.Data.Finset.Card
import Mathlib.Data.Finset.Powerset
import Mathlib.Data.Finset.Prod
import ShiftReduce.Proofs.Stepping

/-!
# How many states there can be

States are told apart by their sets of cores and, in LR(1), by their sets of lookaheads. A grammar
has finitely many of both, whatever numbers there are for states. So the measure of a stage cannot
rise above a limit that the grammar sets.
-/

namespace ShiftReduce

/-- The number of sets of cores and, in LR(1), of sets of lookaheads. -/
def Setup.stateBound (u : Setup) : Nat :=
  2 ^ u.coreCount *
    if u.config.method = .lr1 then 2 ^ (u.coreCount * (u.coreCount + 1)) else 1

namespace State

variable {u : Setup} {s t : State}

/-- What tells states apart. -/
def marks (s : State) : Finset Core × Finset (Core × Symbol) :=
  (s.cores.toFinset, if s.method = .lr1 then s.pairs.toFinset else ∅)

/-- What can tell states apart. -/
def allMarks (u : Setup) : Finset (Finset Core × Finset (Core × Symbol)) :=
  u.cores.toFinset.powerset ×ˢ
    if u.config.method = .lr1 then u.pairs.toFinset.powerset else {∅}

theorem card_allMarks_le (u : Setup) : (allMarks u).card ≤ u.stateBound := by
  have hcores : u.cores.toFinset.card ≤ u.coreCount :=
    (List.toFinset_card_le _).trans_eq u.length_cores
  have hpairs : u.pairs.toFinset.card ≤ u.coreCount * (u.coreCount + 1) :=
    (List.toFinset_card_le _).trans u.length_pairs_le
  rw [allMarks, Finset.card_product, Finset.card_powerset, Setup.stateBound]
  refine Nat.mul_le_mul (Nat.pow_le_pow_right Nat.two_pos hcores) ?_
  split
  · rw [Finset.card_powerset]
    exact Nat.pow_le_pow_right Nat.two_pos hpairs
  · exact Nat.le_refl 1

theorem Built.marks_mem (h : Built u s) : s.marks ∈ allMarks u := by
  refine Finset.mem_product.mpr ⟨Finset.mem_powerset.mpr fun c hc => ?_, ?_⟩
  · exact List.mem_toFinset.mpr (h.cores_subset (List.mem_toFinset.mp hc))
  · change (if s.method = .lr1 then s.pairs.toFinset else ∅) ∈ _
    rw [h.method]
    split
    · refine Finset.mem_powerset.mpr fun p hp => ?_
      exact List.mem_toFinset.mpr (h.pairs_subset (List.mem_toFinset.mp hp))
    · exact Finset.mem_singleton_self ∅

theorem Built.alike_of_marks_eq (hs : Built u s) (ht : Built u t) (h : s.marks = t.marks) :
    s.Alike t := by
  obtain ⟨hcores, hpairs⟩ := Prod.mk.inj h
  refine ⟨cores_eq_of_mem_iff rfl hs.kernel ht.kernel fun c => ?_, fun h1 => Set.ext fun p => ?_⟩
  · rw [← List.mem_toFinset, hcores, List.mem_toFinset]
  · rw [if_pos h1, if_pos (by rw [ht.method, ← hs.method, h1])] at hpairs
    rw [mem_itemSet_lookaheads, mem_itemSet_lookaheads, ← List.mem_toFinset, hpairs,
      List.mem_toFinset]

end State

namespace Collection

variable {u : Setup} {c : Collection}

theorem Inv.size_le_stateBound (h : Inv u c) : c.size ≤ u.stateBound := by
  have hcard : (Finset.range c.size).card ≤ (State.allMarks u).card := by
    refine Finset.card_le_card_of_injOn (fun i => (c.get i).marks) (fun i hi => ?_)
      fun i hi j hj hmarks => ?_
    · exact (h.built i (Finset.mem_range.mp hi)).marks_mem
    · have hi := Finset.mem_range.mp hi
      have hj := Finset.mem_range.mp hj
      exact h.distinct i j hi hj ((h.built i hi).alike_of_marks_eq (h.built j hj) hmarks)
  rw [Finset.card_range] at hcard
  exact hcard.trans (State.card_allMarks_le u)

namespace Stage

/-- No run has more steps. -/
def stepBound (u : Setup) : Nat :=
  u.stateBound * (2 * u.coreCount + 4 + u.coreCount * (u.coreCount + 1)) + 2 * u.coreCount + 3

theorem Sound.visited_le {a : Stage} (h : Sound u a) : a.collection.visited ≤ a.collection.size := by
  cases h with
  | visit h => exact h.visited_le
  | place _ _ h _ _ => exact h.lt.le
  | record _ _ _ h _ _ _ hext hsize _ =>
    exact hext.visited.trans_le (h.lt.le.trans_eq hsize.symm)
  | finish _ _ h _ hext hsize => exact hext.visited.trans_le (h.lt.le.trans_eq hsize.symm)

theorem progress_le (h : Inv u c) (hvisited : c.visited ≤ c.size) : progress u c ≤
    (u.stateBound * (2 * u.coreCount + 4 + u.coreCount * (u.coreCount + 1)) : Nat) := by
  have htotal := h.total_le
  have hsize := h.size_le_stateBound
  have hle : c.visited * (2 * u.coreCount + 4) + c.total ≤
      u.stateBound * (2 * u.coreCount + 4 + u.coreCount * (u.coreCount + 1)) := by
    rw [Nat.mul_add u.stateBound]
    exact Nat.add_le_add (Nat.mul_le_mul_right _ (hvisited.trans hsize))
      (htotal.trans (Nat.mul_le_mul_right _ hsize))
  rw [progress]
  exact_mod_cast hle

theorem Sound.measure_le {a : Stage} (h : Sound u a) : a.measure u ≤ stepBound u := by
  have hprogress := progress_le h.inv h.visited_le
  rw [stepBound]
  unfold measure
  split <;> omega

end Stage

end Collection

end ShiftReduce
