import Mathlib.Data.Prod.Lex
import ShiftReduce.Proofs.CollectionView

/-!
# The order of the state numbers

The successors of a state are recorded in the order of its next symbols, and the states are visited
in the order of their numbers. So each recorded successor has its turn, and a state gets the next
free number at the first turn that leads to it.
-/

namespace ShiftReduce

variable {get get' : StateId → State} {i j k : StateId} {x y : Symbol} {size n : Nat}

/-- When the successor of the state `i` behind `x` is recorded: the state decides, and then the
place of the symbol. -/
def turn (get : StateId → State) (i : StateId) (x : Symbol) : Nat ×ₗ Nat :=
  toLex (i, (get i).nextSymbols.toList.idxOf x)

theorem turn_congr (h : (get' i).nextSymbols = (get i).nextSymbols) :
    turn get' i x = turn get i x := by
  rw [turn, turn, h]

theorem turn_lt_of_lt (h : i < j) : turn get i x < turn get j y := Prod.Lex.left _ _ h

/-- What is dealt with earlier has an earlier turn. -/
theorem turn_lt_of_mem {done rest : List Symbol}
    (h : (get i).nextSymbols.toList = done ++ x :: rest) (hy : y ∈ done) (hx : x ∉ done) :
    turn get i y < turn get i x := by
  refine Prod.Lex.right _ ?_
  rw [h, List.idxOf_append_of_mem hy, List.idxOf_append_of_notMem hx]
  exact (List.idxOf_lt_length_of_mem hy).trans_le (Nat.le_add_right _ _)

/-- Recorded successors with the same turn are the same. -/
theorem eq_of_turn_eq (hx : (get i).successor? x = some j) (h : turn get i x = turn get k y) :
    i = k ∧ x = y := by
  obtain ⟨rfl, hplace⟩ := Prod.mk.inj (toLex.injective h)
  exact ⟨rfl, List.idxOf_inj (State.mem_nextSymbols_of_successor? hx) |>.mp hplace⟩

/-- Every state but the first has been led to by one before it, and whatever had its turn until then
leads to states with smaller numbers. -/
def Numbered (get : StateId → State) (size : Nat) : Prop :=
  ∀ j, 0 < j → j < size → ∃ i x, i < j ∧ (get i).successor? x = some j ∧
    ∀ k y l, (get k).successor? y = some l → turn get k y < turn get i x → l < j

namespace Numbered

theorem congr (h : Numbered get size)
    (hsucc : ∀ i x, (get' i).successor? x = (get i).successor? x)
    (hnext : ∀ i x j, (get i).successor? x = some j → (get' i).nextSymbols = (get i).nextSymbols) :
    Numbered get' size := by
  intro j hj hlt
  obtain ⟨i, x, hi, hx, hfirst⟩ := h j hj hlt
  refine ⟨i, x, hi, (hsucc i x).trans hx, fun k y l hl hturn => ?_⟩
  rw [hsucc] at hl
  rw [turn_congr (hnext k y l hl), turn_congr (hnext i x j hx)] at hturn
  exact hfirst k y l hl hturn

/-- A successor whose turn comes after all others is recorded. If it has joined just now, it has
got the next number. -/
theorem recorded {c d : Collection} (h : Numbered c.get n) (hd : c.Recorded i x j d) (hi : i < n)
    (hn : size = n ∨ j = n ∧ size = n + 1)
    (hlt : ∀ k y l, (c.get k).successor? y = some l → l < n ∧ turn c.get k y < turn c.get i x) :
    Numbered d.get size := by
  have hturn (k : StateId) (y : Symbol) : turn d.get k y = turn c.get k y :=
    turn_congr (hd.nextSymbols k)
  intro m hm hlm
  by_cases hold : m < n
  · obtain ⟨k, y, hk, hy, hfirst⟩ := h m hm hold
    have hbefore := (hlt k y m hy).2
    have hne : k ≠ i ∨ y ≠ x := by
      by_contra hne
      obtain ⟨rfl, rfl⟩ : k = i ∧ y = x := by simpa [not_or] using hne
      exact lt_irrefl _ hbefore
    refine ⟨k, y, hk, (hd.other k y hne).trans hy, fun k' y' l hl hearlier => ?_⟩
    rw [hturn, hturn] at hearlier
    rcases hd.successor?_eq_some hl with ⟨rfl, rfl, -⟩ | hl
    · exact absurd hearlier (lt_asymm hbefore)
    · exact hfirst k' y' l hl hearlier
  · obtain ⟨rfl, rfl⟩ : m = n ∧ m = j := by
      rcases hn with rfl | ⟨rfl, rfl⟩
      · exact absurd hlm hold
      · have hmj := Nat.le_antisymm (Nat.le_of_lt_succ hlm) (Nat.le_of_not_lt hold)
        exact ⟨hmj, hmj⟩
    refine ⟨i, x, hi, hd.self, fun k y l hl hearlier => ?_⟩
    rcases hd.successor?_eq_some hl with ⟨rfl, rfl, -⟩ | hl
    · exact absurd hearlier (lt_irrefl _)
    · exact (hlt k y l hl).1

end Numbered

end ShiftReduce
