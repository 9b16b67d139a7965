import Mathlib.Data.List.Nodup
import Mathlib.Data.List.Perm.Subperm
import ShiftReduce.Proofs.ItemSet
import ShiftReduce.State.Basic

/-!
# States as item sets

`s.itemSet` is what a state says without the order of its items and the recorded successors.
`s.pairs` lists its lookaheads, each with its core, so that the count of lookaheads is a length.
A state is `Proper` for a grammar if its items are items of the grammar with different cores.
-/

namespace ShiftReduce

namespace State

theorem mem_cores {s : State} {c : Core} : c ∈ s.cores ↔ ∃ i ∈ s.items, i.core = c := List.mem_map

/-- The lookaheads of a state, each with its core. -/
def pairs (s : State) : List (Core × Symbol) :=
  s.items.flatMap fun i => i.lookaheads.toList.map (Prod.mk i.core)

theorem mem_pairs {s : State} {c : Core} {y : Symbol} :
    (c, y) ∈ s.pairs ↔ ∃ i ∈ s.items, i.core = c ∧ y ∈ i.lookaheads := by
  simp only [pairs, List.mem_flatMap, List.mem_map, Prod.mk.injEq]
  constructor
  · rintro ⟨i, hi, z, hz, rfl, rfl⟩
    exact ⟨i, hi, rfl, hz⟩
  · rintro ⟨i, hi, rfl, hy⟩
    exact ⟨i, hi, y, hy, rfl, rfl⟩

theorem length_pairs (s : State) : s.pairs.length = s.lookaheadCount := by
  unfold pairs lookaheadCount
  induction s.items with
  | nil => rfl
  | cons i items ih =>
    rw [List.flatMap_cons, List.length_append, ih, List.length_map, OrderedSet.length_toList]
    rfl

theorem nodup_pairs {s : State} (h : s.cores.Nodup) : s.pairs.Nodup := by
  unfold pairs
  rw [List.nodup_flatMap]
  refine ⟨fun i _ => i.lookaheads.nodup.map (fun a b hab => (Prod.mk.inj hab).2), ?_⟩
  refine (List.pairwise_map.mp h).imp fun hne => ?_
  rintro ⟨c, y⟩ hi hj
  obtain ⟨z, -, hz⟩ := List.mem_map.mp hi
  obtain ⟨w, -, hw⟩ := List.mem_map.mp hj
  exact hne ((Prod.mk.inj hz).1.trans (Prod.mk.inj hw).1.symm)

def itemSet (s : State) : ItemSet := ⟨{c | c ∈ s.cores}, {p | p ∈ s.pairs}⟩

@[simp] theorem mem_itemSet_cores {s : State} {c : Core} : c ∈ s.itemSet.cores ↔ c ∈ s.cores :=
  Iff.rfl

@[simp] theorem mem_itemSet_lookaheads {s : State} {p : Core × Symbol} :
    p ∈ s.itemSet.lookaheads ↔ p ∈ s.pairs := Iff.rfl

theorem itemSet_cores_eq {s t : State} (h : s.cores = t.cores) :
    s.itemSet.cores = t.itemSet.cores := by
  ext c
  simp [h]

/-- A state that has all lookaheads of another one has at least as many, and no more only if it
brings nothing new. -/
theorem lookaheadCount_le {s t : State} (hs : s.cores.Nodup)
    (h : s.itemSet.lookaheads ⊆ t.itemSet.lookaheads) : s.lookaheadCount ≤ t.lookaheadCount := by
  rw [← length_pairs, ← length_pairs]
  exact ((nodup_pairs hs).subperm h).length_le

theorem lookaheads_eq_of_count_le {s t : State} (hs : s.cores.Nodup)
    (h : s.itemSet.lookaheads ⊆ t.itemSet.lookaheads) (hc : t.lookaheadCount ≤ s.lookaheadCount) :
    t.itemSet.lookaheads = s.itemSet.lookaheads := by
  rw [← length_pairs, ← length_pairs] at hc
  have hp := ((nodup_pairs hs).subperm h).perm_of_length_le hc
  ext p
  exact hp.symm.mem_iff

/-! ## Items of a grammar -/

structure Proper (g : Grammar) (s : State) : Prop where
  rules : ∀ i ∈ s.items, i.rule ∈ g.rules
  nodup : s.cores.Nodup

end State

/-- The dot of an item of the grammar stands before its next symbol. -/
theorem Item.waits_iff {g : Grammar} {i : Item} (h : i.rule ∈ g.rules) {x : Symbol}
    {rest : List Symbol} : g.Waits i.core x rest ↔ i.nextSymbol? = some x ∧ i.rest = rest := by
  constructor
  · rintro ⟨r, hr, hid, hd⟩
    obtain rfl : r = i.rule := Grammar.eq_of_id_eq hr h hid
    have hafter : i.after = x :: rest := hd
    simp [nextSymbol?, Item.rest, hafter]
  · rintro ⟨hx, rfl⟩
    exact ⟨i.rule, h, rfl, after_eq_cons hx⟩

/-- Items with the same core wait for the same symbol. -/
theorem Item.rule_eq_of_core_eq {g : Grammar} {i j : Item} (hi : i.rule ∈ g.rules)
    (hj : j.rule ∈ g.rules) (h : i.core = j.core) : i.rule = j.rule ∧ i.dot = j.dot :=
  ⟨Grammar.eq_of_id_eq hi hj (congrArg Core.rule h), congrArg Core.dot h⟩

namespace State

variable {g : Grammar} {s : State}

theorem Proper.item_eq (h : s.Proper g) {i j : Item} (hi : i ∈ s.items) (hj : j ∈ s.items)
    (hc : i.core = j.core) : i = j :=
  List.inj_on_of_nodup_map h.nodup hi hj hc

theorem Proper.mem_lookaheads_iff (h : s.Proper g) {i : Item} (hi : i ∈ s.items) {y : Symbol} :
    y ∈ i.lookaheads ↔ (i.core, y) ∈ s.itemSet.lookaheads := by
  rw [mem_itemSet_lookaheads, mem_pairs]
  constructor
  · exact fun hy => ⟨i, hi, rfl, hy⟩
  · rintro ⟨j, hj, hc, hy⟩
    rwa [h.item_eq hj hi hc] at hy

theorem Proper.exists_item_of_waits (h : s.Proper g) {c : Core} {x : Symbol} {rest : List Symbol}
    (hc : c ∈ s.cores) (hw : g.Waits c x rest) :
    ∃ i ∈ s.items, i.core = c ∧ i.nextSymbol? = some x ∧ i.rest = rest := by
  obtain ⟨i, hi, rfl⟩ := mem_cores.mp hc
  exact ⟨i, hi, rfl, (Item.waits_iff (h.rules i hi)).mp hw⟩

end State

end ShiftReduce
