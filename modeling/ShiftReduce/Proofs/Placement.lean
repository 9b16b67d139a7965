import ShiftReduce.Collection.Construction
import ShiftReduce.Proofs.Propagation

/-!
# Placing states

A closed state finds its place: it is merged into the state that it matches, or else it joins.
Either way the invariant is kept, and what was carried before is carried afterwards.
-/

namespace ShiftReduce.Collection

variable {u : Setup} {c d : Collection} {i j : StateId} {s : State} {x : Symbol}

/-! ## Looking for a match -/

theorem Inv.match?_yields {full : Prop} (h : Inv u c) (hs : State.Built u s) :
    Yields full (c.match? s) fun r => (∀ i, r = some i → i < c.size ∧ (c.get i).Alike s) ∧
      (r = none → ∀ i, i < c.size → ¬(c.get i).Alike s) := by
  have halike (i : StateId) (hi : i < c.size) : (c.get i).mergeable s = true ↔ (c.get i).Alike s :=
    State.mergeable_iff (h.built i hi).proper.nodup ((h.method hi).trans hs.method.symm)
  have hids : ∀ i ∈ c.index.candidates s.cores, i < c.size := fun i hi =>
    ((h.index _ i).mp hi).1
  rw [match?, firstMergeable?_eq hids]
  refine .ok ⟨fun i hi => ?_, fun hn i hi ha => ?_⟩
  · have hlt := hids i (List.mem_of_find?_eq_some hi)
    exact ⟨hlt, (halike i hlt).mp (List.find?_some (p := fun i => (c.get i).mergeable s) hi)⟩
  · exact List.find?_eq_none.mp hn i ((h.index _ i).mpr ⟨hi, ha.1⟩) ((halike i hi).mpr ha)

/-- Unless lookaheads are united, states that match have the same items. -/
theorem Inv.standsFor (h : Inv u c) (hi : i < c.size) (hs : State.Built u s)
    (ha : (c.get i).Alike s) : StandsFor u (c.get i) s := by
  refine ⟨ha.1, fun hm => ItemSet.ext (State.itemSet_cores_eq ha.1) ?_⟩
  cases hmethod : u.config.method with
  | lr0 =>
    rw [Setup.lookaheads_eq_empty hmethod (h.built i hi).bounded,
      Setup.lookaheads_eq_empty hmethod hs.bounded]
  | lr1 => exact ha.2 ((h.method hi).trans hmethod)
  | lalr1 => exact absurd hmethod hm

/-! ## Placing a closed state -/

/-- What has become of `c` when `s` has been placed at `id`. -/
structure Placed (u : Setup) (exempt : Set StateId) (c : Collection) (s : State) (d : Collection)
    (id : StateId) : Prop where
  inv : Inv u d
  extended : c.Extends u d
  lt : id < d.size
  stands : StandsFor u (d.get id) s
  lookaheads : s.itemSet.lookaheads ⊆ (d.get id).itemSet.lookaheads
  carried : ∀ i, i ∉ exempt → Carried u d i
  size : d.size = c.size ∨ id = c.size ∧ d.size = c.size + 1

variable {exempt : Set StateId}

theorem Inv.append_placed (h : Inv u c) (hs : State.Built u s) (hnext : ∀ x, s.successor? x = none)
    (hcarried : ∀ i, i ∉ exempt → Carried u c i) (hnew : ∀ i, i < c.size → ¬(c.get i).Alike s) :
    Yields u.Crowded (c.append s) fun p => Placed u exempt c s p.1 p.2 := by
  refine (append_yields (h.crowded hs hnew) s).mono fun p hp => ?_
  obtain ⟨hid, hlimit, hd⟩ := hp
  have hext : c.Extends u p.1 := hd.extends hnext
  refine ⟨h.append hs hnext hnew hlimit hd, hext, ?_, ?_, ?_, fun i hi => ?_, .inr ⟨hid, hd.size⟩⟩
  · rw [hid, hd.size]
    exact Nat.lt_succ_self _
  · rw [hid, hd.last]
    exact ⟨rfl, fun _ => rfl⟩
  · rw [hid, hd.last]
    exact subset_rfl
  · by_cases hlast : i = c.size
    · intro x j hj
      rw [hext.successor, hlast] at hj
      exact absurd (lt_of_successor? hj) (Nat.lt_irrefl _)
    · exact (hcarried i hi).extends hext (by rw [hd.others i hlast])

/-- Only where lookaheads are united does merging bring a lookahead. -/
theorem Inv.lalr1_of_grew (h : Inv u c) (hi : i < c.size) (hs : State.Built u s)
    (ha : (c.get i).Alike s)
    (hgrew : (c.get i).lookaheadCount < ((c.get i).absorb s).lookaheadCount) :
    u.config.method = .lalr1 := by
  by_contra hm
  have hsub : ((c.get i).absorb s).itemSet.lookaheads ⊆ (c.get i).itemSet.lookaheads := by
    rw [State.lookaheads_absorb ha.1, ← (h.standsFor hi hs ha).2 hm, Set.union_self]
  have hle := State.lookaheadCount_le (State.proper_absorb (h.built i hi).proper ha.1).nodup hsub
  omega

/-- A state that is merged into one that it matches is placed there. -/
theorem Inv.absorb_placed (h : Inv u c) (hi : i < c.size) (hs : State.Built u s)
    (ha : (c.get i).Alike s) (hext : (c.setState i ((c.get i).absorb s)).Extends u d)
    (hinv : Inv u d) (hsize : d.size = c.size) (hcarried : ∀ i, i ∉ exempt → Carried u d i) :
    Placed u exempt c s d i := by
  have hstands := h.standsFor hi hs ha
  have hext' := (extends_absorb (u := u) hi ha.1 fun hm => by rw [hstands.2 hm]).trans hext
  refine ⟨hinv, hext', hsize ▸ hi, ⟨(hext'.cores i hi).trans hstands.1, fun hm =>
    (hext'.exact hm i hi).trans (hstands.2 hm)⟩, ?_, hcarried, .inl hsize⟩
  have hin := hext.lookaheads i
  rw [get_setState_self hi, State.lookaheads_absorb ha.1] at hin
  exact Set.subset_union_right.trans hin

theorem Inv.placeClosed_yields (h : Inv u c) (hs : State.Built u s)
    (hnext : ∀ x, s.successor? x = none) (hcarried : ∀ i, i ∉ exempt → Carried u c i) :
    Yields u.Crowded (c.placeClosed u s) fun p => Placed u exempt c s p.1 p.2 := by
  refine (h.match?_yields hs).bind fun r hr => ?_
  cases r with
  | none => exact h.append_placed hs hnext hcarried (hr.2 rfl)
  | some id =>
    obtain ⟨hid, ha⟩ := hr.1 id rfl
    have hmergeable := (State.mergeable_iff (h.built id hid).proper.nodup
      ((h.method hid).trans hs.method.symm)).mpr ha
    simp only [state_eq hid, State.merge, hmergeable, if_true, bind, Except.bind]
    have hsub : u.config.method ≠ .lalr1 → s.itemSet.lookaheads ⊆ (c.get id).itemSet.lookaheads :=
      fun hm => by rw [(h.standsFor hid hs ha).2 hm]
    have hext := extends_absorb (u := u) hid ha.1 hsub
    have hinv := h.absorb hid hs ha.1 hsub
    rcases h.absorb_cases hid ha.1 with ⟨hgrew, -⟩ | ⟨hgrew, hself⟩
    · rw [if_pos (decide_eq_true hgrew)]
      have hcar : ∀ i, i ≠ id → i ∉ exempt →
          Carried u ((c.setState id ((c.get id).absorb s)).note (.merged id)) i := fun i hi he =>
        (hcarried i he).extends (hext.trans (.note _ _)) (by rw [get_note, get_setState_of_ne hi])
      have hlt : id < ((c.setState id ((c.get id).absorb s)).note (.merged id)).size := by
        rw [size_note, size_setState]
        exact hid
      refine (propagate_yields (h.lalr1_of_grew hid hs ha hgrew) (hinv.note (.merged id)) hlt
        hcar).bind fun d hd => ?_
      obtain ⟨hinvd, hextd, hsize, hcard⟩ := hd
      exact .ok (h.absorb_placed hid hs ha ((Extends.note _ _).trans hextd) hinvd
        (hsize.trans size_setState) hcard)
    · rw [if_neg (by simpa using hgrew)]
      refine .ok (h.absorb_placed hid hs ha (.refl _) hinv size_setState
        fun i hi => (hcarried i hi).extends hext ?_)
      rw [hself, setState_get hid]

end ShiftReduce.Collection
