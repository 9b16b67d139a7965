import ShiftReduce.Proofs.Stepping

/-!
# The index and the plain scan

The index leads from a list of cores to the states that have it. A state joins under its cores, and
whatever happens to it later leaves them alone; a state that matches another one has the same cores.
So to look for a match among the states that the index gives is to look among all of them.
-/

namespace ShiftReduce.Collection

variable {u : Setup} {c d : Collection} {i source target : StateId} {s t : State} {x : Symbol}
  {w v : Worklist StateId}

/-- The first of all states that `s` can be merged into. -/
def scan? (c : Collection) (s : State) : Option StateId := c.states.findIdx? (·.mergeable s)

/-- Each list of cores leads to the states that have it, and to no others, in ascending order. -/
def Indexed (c : Collection) : Prop :=
  ∀ cs, c.index.candidates cs = (List.range c.size).filter fun i => (c.get i).cores = cs

/-! ## Looking for a match -/

theorem scan?_eq : c.scan? s = (List.range c.size).find? fun i => (c.get i).mergeable s := by
  refine Option.ext fun i => ?_
  rw [scan?, Array.findIdx?_eq_some_iff_getElem, List.find?_range_eq_some, List.mem_range]
  have hget {k : Nat} (hk : k < c.states.size) : c.states[k] = c.get k := by
    have h := getElem?_eq_get (c := c) hk
    rw [Array.getElem?_eq_getElem hk] at h
    exact Option.some.inj h
  constructor
  · rintro ⟨hi, hm, hfirst⟩
    rw [hget hi] at hm
    refine ⟨hm, hi, fun k hk => ?_⟩
    have hno := hfirst k hk
    rw [hget (hk.trans hi)] at hno
    simpa using hno
  · rintro ⟨hm, hi, hfirst⟩
    refine ⟨hi, by rwa [hget hi], fun k hk => ?_⟩
    rw [hget (hk.trans hi)]
    simpa using hfirst k hk

/-- The index finds what a scan of all states finds. -/
theorem Indexed.match?_eq (h : c.Indexed) (s : State) : c.match? s = .ok (c.scan? s) := by
  have hids : ∀ i ∈ c.index.candidates s.cores, i < c.size := by
    intro i hi
    rw [h] at hi
    exact List.mem_range.mp (List.mem_filter.mp hi).1
  rw [match?, firstMergeable?_eq hids, h, List.find?_filter, scan?_eq]
  refine congrArg (fun p => Except.ok ((List.range c.size).find? p)) (funext fun i => ?_)
  by_cases hm : (c.get i).mergeable s = true
  · simp [hm, State.cores_eq_of_mergeable hm]
  · simp [hm]

/-! ## What keeps the index -/

theorem indexed_empty : empty.Indexed := fun cs => CoreIndex.candidates_empty cs

theorem Indexed.append (h : c.Indexed) (hd : c.append s = .ok (d, i)) : d.Indexed := by
  have hyields : Yields True (c.append s) _ := append_yields (fun _ => trivial) s
  obtain ⟨-, -, hd⟩ := hyields.of_eq_ok hd
  intro cs
  have hold : (List.range c.size).filter (fun k => (d.get k).cores = cs) =
      c.index.candidates cs := by
    rw [h]
    exact List.filter_congr fun k hk => by rw [hd.get_eq (List.mem_range.mp hk)]
  rw [hd.index, CoreIndex.candidates_add, hd.size, List.range_succ, List.filter_append, hold,
    List.filter_singleton, hd.last]
  change _ = _ ++ bif decide (s.cores = cs) then [c.size] else []
  by_cases hcs : cs = s.cores
  · simp [hcs]
  · simp [hcs, Ne.symm hcs]

/-- A state may be replaced by one with the same cores. -/
theorem Indexed.setState (h : c.Indexed) (ht : c.state i = .ok t) (hc : s.cores = t.cores) :
    (c.setState i s).Indexed := by
  intro cs
  rw [index_setState, h, size_setState]
  refine List.filter_congr fun k _ => ?_
  rw [get_setState (lt_of_state ht)]
  split
  · rename_i hk
    rw [hk, get_of_state ht, hc]
  · rfl

theorem Indexed.merge {m : State} {grew : Bool} (h : c.Indexed) (ht : c.state i = .ok t)
    (hm : t.merge s = .ok (m, grew)) : (c.setState i m).Indexed := by
  obtain ⟨hmergeable, rfl, -⟩ := State.merge_eq_ok_iff.mp hm
  exact h.setState ht (State.cores_absorb (State.cores_eq_of_mergeable hmergeable))

theorem Indexed.carry {draft : Symbol × State} (h : c.Indexed)
    (hd : carry u source (c, w) draft = .ok (d, v)) : d.Indexed := by
  obtain ⟨t, -, hd⟩ := exists_of_bind_eq_ok hd
  split at hd
  · cases hd
    exact h
  · obtain ⟨r, hr, hd⟩ := exists_of_bind_eq_ok hd
    split at hd
    · obtain ⟨⟨m, grew⟩, hm, hd⟩ := exists_of_bind_eq_ok hd
      have hmerged := h.merge hr hm
      cases grew with
      | true =>
        cases hd
        exact hmerged
      | false =>
        cases hd
        exact hmerged
    · cases hd
      exact h

theorem Indexed.carries {drafts : List (Symbol × State)} (h : c.Indexed)
    (hd : drafts.foldlM (Collection.carry u source) (c, w) = .ok (d, v)) : d.Indexed :=
  foldlM_keeps (p := fun p => p.1.Indexed) (fun _ _ _ hp hstep => hp.carry hstep) hd h

namespace Stage

variable {n : Nat} {a b : Stage} {id : StateId} {rest : List (Symbol × State)}

theorem indexed_record (h : c.Indexed) (ha : record c id s x target rest = .ok a) :
    a.collection.Indexed := by
  obtain ⟨t, ht, ha⟩ := exists_of_bind_eq_ok ha
  obtain rfl := Except.ok.inj ha
  exact h.setState ht State.cores_assign

theorem indexed_place {formed : State} (h : c.Indexed)
    (ha : place c id s x rest formed = .ok a) : a.collection.Indexed := by
  obtain ⟨r, -, ha⟩ := exists_of_bind_eq_ok ha
  cases r with
  | none =>
    obtain ⟨⟨d, k⟩, hd, ha⟩ := exists_of_bind_eq_ok ha
    exact indexed_record (h.append hd) ha
  | some target =>
    obtain ⟨t, ht, ha⟩ := exists_of_bind_eq_ok ha
    obtain ⟨⟨m, grew⟩, hm, ha⟩ := exists_of_bind_eq_ok ha
    have hmerged := h.merge ht hm
    cases grew with
    | true =>
      obtain rfl := Except.ok.inj ha
      exact hmerged
    | false => exact indexed_record hmerged ha

theorem indexed_step (h : a.collection.Indexed) (hstep : step u a = .ok (some b)) :
    b.collection.Indexed := by
  obtain ⟨c, task⟩ := a
  cases task with
  | visit =>
    simp only [step] at hstep
    split at hstep
    · obtain ⟨s, -, hstep⟩ := exists_of_bind_eq_ok hstep
      cases hstep
      exact h
    · cases hstep
  | place id s drafts =>
    cases drafts with
    | nil =>
      obtain ⟨t, -, hstep⟩ := exists_of_bind_eq_ok hstep
      split at hstep
      · cases hstep
        exact h
      · cases hstep
        exact h
    | cons draft rest =>
      obtain ⟨b', hb, hstep⟩ := exists_of_bind_eq_ok hstep
      cases hstep
      exact indexed_place h hb
  | propagate w k =>
    simp only [step] at hstep
    split at hstep
    · obtain ⟨b', hb, hstep⟩ := exists_of_bind_eq_ok hstep
      cases hstep
      cases k with
      | record id s x target rest => exact indexed_record h hb
      | finish id =>
        cases hb
        exact h
    · obtain ⟨⟨d, v⟩, hd, hstep⟩ := exists_of_bind_eq_ok hstep
      cases hstep
      obtain ⟨t, -, hd⟩ := exists_of_bind_eq_ok hd
      exact h.carries hd

theorem indexed_of_first (h : first u = .ok a) : a.collection.Indexed := by
  unfold first at h
  split at h
  · cases h
  · split at h
    · cases h
    · rename_i s _ _ c hc
      cases h
      obtain ⟨⟨d, i⟩, hplace, rfl⟩ :=
        exists_of_map_eq_ok (x := empty.place u s) (f := Prod.fst) hc
      have hmatch : empty.match? (s.close u) = .ok none := by
        rw [indexed_empty.match?_eq, scan?_eq]
        rfl
      simp only [Collection.place, placeClosed, hmatch, bind, Except.bind] at hplace
      exact indexed_empty.append hplace

/-- In every stage of the construction the index is right. -/
theorem Reached.indexed (h : Reached u n a) : a.collection.Indexed := by
  obtain ⟨b, hb, hturns⟩ := h
  exact hturns.keeps (p := fun a => a.collection.Indexed)
    (fun _ _ hc hstep => indexed_step hc hstep) (indexed_of_first hb)

/-- What it means that the index stands in for a scan of all states, whenever a state is offered. -/
structure LooksUp (u : Setup) : Prop where
  /-- The start state is offered first. -/
  start : ∀ s, empty.match? s = .ok (empty.scan? s)
  offered : ∀ n a s, Reached u n a → a.collection.match? s = .ok (a.collection.scan? s)
  index : ∀ n a, Reached u n a → a.collection.Indexed
  /-- The index is right before the state that has joined, or that the draft has been merged into,
  is recorded. -/
  joined : ∀ n a s d i, Reached u n a → a.collection.append s = .ok (d, i) → d.Indexed
  merged : ∀ n a s i t m grew, Reached u n a → a.collection.state i = .ok t →
    t.merge s = .ok (m, grew) → (a.collection.setState i m).Indexed
  /-- It is right while the lookaheads of a state are carried over one symbol after another. -/
  carried : ∀ n c w k source v (drafts : List (Symbol × State)) d v',
    Reached u n ⟨c, .propagate w k⟩ → drafts.foldlM (carry u source) (c, v) = .ok (d, v') →
      d.Indexed

theorem looksUp (u : Setup) : LooksUp u where
  start s := indexed_empty.match?_eq s
  offered _ _ s h := h.indexed.match?_eq s
  index _ _ h := h.indexed
  joined _ _ _ _ _ h hd := h.indexed.append hd
  merged _ _ _ _ _ _ _ h ht hm := h.indexed.merge ht hm
  carried _ _ _ _ _ _ _ _ _ h hd := h.indexed.carries hd

/-- In LR(1) the two states `C ::= d •` have the same cores, so they are found one after the
other. -/
theorem looksUp_sample : ∃ n a, Reached (.new (.ofEdits sampleEdits) ⟨.lr1, "EOI"⟩) n a ∧
    a.collection.size = 10 ∧ a.collection.index.candidates (a.collection.get 4).cores = [4, 7] ∧
      ∀ s, a.collection.match? s = .ok (a.collection.scan? s) := by
  have hrun : (build (.new (.ofEdits sampleEdits) ⟨.lr1, "EOI"⟩)).map (fun c =>
      (c.size, (List.range c.size).filter fun i => (c.get i).cores = (c.get 4).cores)) =
        .ok (10, [4, 7]) := by
    decide +kernel
  obtain ⟨c, hc, hrun⟩ := exists_of_map_eq_ok hrun
  obtain ⟨hsize, hfilter⟩ := Prod.mk.inj hrun
  obtain ⟨b, n, hb, hends⟩ := ends_of_build hc
  have hreached : Reached _ n ⟨c, .visit⟩ := ⟨b, hb, hends.turns⟩
  have hlooks := looksUp (.new (.ofEdits sampleEdits) ⟨.lr1, "EOI"⟩)
  refine ⟨n, _, hreached, hsize, ?_, fun s => hlooks.offered _ _ s hreached⟩
  rw [hlooks.index _ _ hreached]
  exact hfilter

end Stage

end ShiftReduce.Collection
