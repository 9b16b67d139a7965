import ShiftReduce.Proofs.ClosureMerge
import ShiftReduce.Proofs.Tables

/-!
# Saturation

At the beginning of every visit, and when all states have been visited, nothing is left to be
carried: a visited state leads to states that have all the lookaheads of its closed successors, the
other states have recorded nothing, and closing a state again would add nothing. While a state is
visited its own lookaheads may grow. The number of lookaheads tells whether they did.
-/

namespace ShiftReduce

namespace State

variable {u : Setup} {g : Grammar} {s t : State}

/-- A state that is built is the closure of its own items. -/
theorem Built.saturated_again (h : Built u s) : Saturated u s := by
  refine saturated_of_closure h.proper h.closed ?_
  rw [h.method]
  exact h.saturated

/-! ## States that have all lookaheads of another one -/

/-- `s` has the cores of `t` in the same order, and each has all its lookaheads. -/
structure Covers (s t : State) : Prop where
  cores : s.cores = t.cores
  lookaheads : ∀ i ∈ s.items, ∀ j ∈ t.items, i.core = j.core → ∀ y ∈ j.lookaheads, y ∈ i.lookaheads

theorem covers_iff (hs : s.Proper g) (ht : t.Proper g) (hc : s.cores = t.cores) :
    s.Covers t ↔ t.itemSet.lookaheads ⊆ s.itemSet.lookaheads := by
  constructor
  · rintro h ⟨c, y⟩ hy
    obtain ⟨j, hj, rfl, hmem⟩ := mem_pairs.mp hy
    obtain ⟨i, hi, hij⟩ := mem_cores.mp (hc ▸ mem_cores.mpr ⟨j, hj, rfl⟩)
    exact mem_pairs.mpr ⟨i, hi, hij, h.lookaheads i hi j hj hij y hmem⟩
  · refine fun h => ⟨hc, fun i hi j hj hij y hy => ?_⟩
    rw [hs.mem_lookaheads_iff hi, hij]
    exact h ((ht.mem_lookaheads_iff hj).mp hy)

end State

namespace Collection

variable {u : Setup} {c d : Collection} {i : StateId}

/-! ## Between visits -/

/-- What holds of a collection of which the states before `c.visited` have been visited. -/
structure Saturated (u : Setup) (c : Collection) : Prop where
  visited_le : c.visited ≤ c.size
  recorded : ∀ i, i < c.visited → ∀ x ∈ (c.get i).nextSymbols, ∃ j, j < c.size ∧
    (∀ k ∈ (c.get i).items, k.nextSymbol? = some x → k.next = some j) ∧
    (c.get j).Covers ((c.get i).closedSuccessor u x)
  unrecorded : ∀ i, c.visited ≤ i → ∀ k ∈ (c.get i).items, k.next = none
  closed : ∀ i, i < c.size → (c.get i).reopened.close u = c.get i
  /-- While the successors of the next state are recorded, its lookaheads can only grow, and they
  have grown if and only if their number has changed. -/
  counted : c.visited < c.size →
    Yields u.Crowded ((c.get c.visited).successors.foldlM (record u c.visited) c) fun d =>
      (d.get c.visited).Covers (c.get c.visited) ∧
        ((d.get c.visited).lookaheadCount = (c.get c.visited).lookaheadCount ↔
          (c.get c.visited).Covers (d.get c.visited))

theorem AtRest.unrecorded (h : AtRest u c) (hi : c.visited ≤ i) :
    ∀ k ∈ (c.get i).items, k.next = none := by
  intro k hk
  have hlt : i < c.size := by
    by_contra hle
    rw [get_of_le (Nat.le_of_not_lt hle)] at hk
    exact List.not_mem_nil hk
  have hbuilt := h.inv.built i hlt
  cases hx : k.nextSymbol? with
  | none => exact hbuilt.ended k hk hx
  | some x => exact (hbuilt.uniform k hk x hx).trans (h.unlinked i x hi)

theorem AtRest.recorded (h : AtRest u c) (hi : i < c.visited) {x : Symbol}
    (hx : x ∈ (c.get i).nextSymbols) : ∃ j, j < c.size ∧
      (∀ k ∈ (c.get i).items, k.nextSymbol? = some x → k.next = some j) ∧
      (c.get j).Covers ((c.get i).closedSuccessor u x) := by
  have hbuilt := h.inv.built i (hi.trans_le h.visited_le)
  obtain ⟨j, hj⟩ := Option.isSome_iff_exists.mp (h.linked i hi x hx)
  obtain ⟨hlt, hstands⟩ := h.inv.leads i x j hj
  refine ⟨j, hlt, fun k hk hkx => (hbuilt.uniform k hk x hkx).trans hj, ?_⟩
  rw [State.covers_iff (h.inv.built j hlt).proper (State.proper_closedSuccessor hbuilt.proper x)
    hstands.1, hbuilt.itemSet_closedSuccessor]
  exact h.carried i x j hj

/-- Only a state that has gained nothing has as many lookaheads as at the beginning of its visit. -/
theorem Visiting.lookaheadCount_eq_iff {s : State} {done : List Symbol} (h : Visiting u s done c)
    (hs : State.Built u s) :
    (c.get c.visited).lookaheadCount = s.lookaheadCount ↔ s.Covers (c.get c.visited) := by
  have hproper := (h.inv.built _ h.lt).proper
  rw [State.covers_iff hs.proper hproper h.stands.1.symm]
  constructor
  · intro hcount
    rw [State.lookaheads_eq_of_count_le hs.proper.nodup h.lookaheads hcount.le]
  · intro hsub
    exact Nat.le_antisymm (State.lookaheadCount_le hproper.nodup hsub)
      (State.lookaheadCount_le hs.proper.nodup h.lookaheads)

theorem AtRest.saturated (h : AtRest u c) : Saturated u c where
  visited_le := h.visited_le
  recorded _ hi _ hx := h.recorded hi hx
  unrecorded _ hi := h.unrecorded hi
  closed i hi := (h.inv.built i hi).saturated_again.again
  counted hlt := by
    have hs := h.inv.built _ hlt
    refine (h.record_yields hlt).mono fun d hd => ?_
    obtain ⟨hvisited, hd⟩ := hd
    rw [← hvisited] at hd hs ⊢
    exact ⟨(State.covers_iff (hd.inv.built _ hd.lt).proper hs.proper hd.stands.1).mpr hd.lookaheads,
      hd.lookaheadCount_eq_iff hs⟩

/-- Whatever the construction works on at the beginning of a visit or at its end is saturated. -/
theorem saturated_of_reached (h : Reached u c) : Saturated u c := h.atRest.saturated

/-- After the first visit the start state has its successors recorded, and the others wait. -/
theorem saturated_sample : ∃ c, Reached (.new (.ofEdits sampleEdits) ⟨.lalr1, "EOI"⟩) c ∧
    c.visited = 1 ∧ c.size = 5 ∧ Saturated (.new (.ofEdits sampleEdits) ⟨.lalr1, "EOI"⟩) c := by
  have hrun : ((Setup.new (.ofEdits sampleEdits) ⟨.lalr1, "EOI"⟩).start .lalr1).map (fun s =>
      (initial (.new (.ofEdits sampleEdits) ⟨.lalr1, "EOI"⟩) s).map fun c =>
        (c.visited, c.states.size,
          (c.visit (.new (.ofEdits sampleEdits) ⟨.lalr1, "EOI"⟩)).map fun d =>
            (d.visited, d.states.size))) = .ok (.ok (0, 1, .ok (1, 5))) := by
    decide +kernel
  obtain ⟨s, hs, hrun⟩ := exists_of_map_eq_ok hrun
  obtain ⟨c, hc, hrun⟩ := exists_of_map_eq_ok hrun
  obtain ⟨hvisited, hrun⟩ := Prod.mk.inj hrun
  obtain ⟨hsize, hrun⟩ := Prod.mk.inj hrun
  obtain ⟨d, hd, hrun⟩ := exists_of_map_eq_ok hrun
  obtain ⟨hvisited', hsize'⟩ := Prod.mk.inj hrun
  have hreached : Reached (.new (.ofEdits sampleEdits) ⟨.lalr1, "EOI"⟩) d :=
    .visit (.initial hs hc) (by omega) hd
  exact ⟨d, hreached, hvisited', hsize', saturated_of_reached hreached⟩

end Collection

end ShiftReduce
