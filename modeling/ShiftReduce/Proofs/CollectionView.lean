import ShiftReduce.Collection.Basic
import ShiftReduce.Proofs.Merging
import ShiftReduce.Proofs.Outcome
import ShiftReduce.Proofs.Successors

/-!
# Looking at collections

`c.get i` is the state `i`, or a state without items if there is none. `Extends` says what placing
a state and carrying lookaheads may do: states join behind the others, and the lookaheads of a state
may grow.
-/

namespace ShiftReduce

/-- A loop over the successors of a state keeps an invariant that speaks of the symbols dealt with
so far. They are dealt with in their order, and none of them twice. -/
theorem State.foldlM_successors_yields {α : Type} {full : Prop} (s : State)
    {f : α → Symbol × State → Except Fault α} (inv : List Symbol → α → Prop)
    (hstep : ∀ done x rest a, s.nextSymbols.toList = done ++ x :: rest → x ∉ done → inv done a →
      Yields full (f a (x, s.successorDraft x)) (inv (done ++ [x]))) {a : α} (ha : inv [] a) :
    Yields full (s.successors.foldlM f a) (inv s.nextSymbols.toList) := by
  have hall : s.successors.map Prod.fst = s.nextSymbols.toList := by
    rw [State.successors_eq, List.map_map]
    exact List.map_id _
  rw [← hall]
  refine Yields.foldlM (fun done b => inv (done.map Prod.fst) b)
    (fun done draft rest b hl hb => ?_) ha
  have hmem : draft ∈ s.successors := by
    rw [hl]
    exact List.mem_append_right _ List.mem_cons_self
  rw [State.successors_eq] at hmem
  obtain ⟨x, -, rfl⟩ := List.mem_map.mp hmem
  have hsplit : s.nextSymbols.toList = done.map Prod.fst ++ x :: rest.map Prod.fst := by
    rw [← hall, hl, List.map_append, List.map_cons]
  have hnew : x ∉ done.map Prod.fst := by
    have hnodup := s.nextSymbols.nodup
    change s.nextSymbols.toList.Nodup at hnodup
    rw [hsplit] at hnodup
    exact fun hx => (List.nodup_append.mp hnodup).2.2 x hx x List.mem_cons_self rfl
  rw [List.map_append]
  exact hstep _ x _ b hsplit hnew hb

/-- What is dealt with is a next symbol. -/
theorem State.mem_nextSymbols_of_split {s : State} {done rest : List Symbol} {x : Symbol}
    (h : s.nextSymbols.toList = done ++ x :: rest) : x ∈ s.nextSymbols := by
  rw [← OrderedSet.mem_toList, h]
  exact List.mem_append_right _ List.mem_cons_self

namespace Collection

def size (c : Collection) : Nat := c.states.size

def get (c : Collection) (i : StateId) : State := c.states[i]?.getD (.draft .lr0)

variable {c d : Collection} {i j : StateId} {s : State}

theorem get_of_le (h : c.size ≤ i) : c.get i = .draft .lr0 := by
  rw [get, Array.getElem?_eq_none h]
  rfl

theorem getElem?_eq_get (h : i < c.size) : c.states[i]? = some (c.get i) := by
  rw [get, Array.getElem?_eq_getElem h]
  rfl

theorem state_eq (h : i < c.size) : c.state i = .ok (c.get i) := by
  rw [state, getElem?_eq_get h]

theorem lt_of_state {t : State} (h : c.state i = .ok t) : i < c.size := by
  by_contra hi
  simp [state, Array.getElem?_eq_none (Nat.le_of_not_lt hi)] at h

theorem get_of_state {t : State} (h : c.state i = .ok t) : c.get i = t :=
  Except.ok.inj ((state_eq (lt_of_state h)).symm.trans h)

/-- Looking for a match looks at one state after another. -/
theorem firstMergeable?_eq {ids : List StateId} (hids : ∀ i ∈ ids, i < c.size) :
    c.firstMergeable? s ids = .ok (ids.find? fun i => (c.get i).mergeable s) := by
  induction ids with
  | nil => rfl
  | cons k ids ih =>
    obtain ⟨hk, hids⟩ := List.forall_mem_cons.mp hids
    simp only [firstMergeable?, state_eq hk, bind, Except.bind, List.find?_cons]
    cases (c.get k).mergeable s with
    | true => rfl
    | false => exact ih hids

theorem lt_of_successor? {x : Symbol} (h : (c.get i).successor? x = some j) : i < c.size := by
  by_contra hi
  rw [get_of_le (Nat.le_of_not_lt hi)] at h
  cases h

theorem lt_of_mem_nextSymbols {x : Symbol} (h : x ∈ (c.get i).nextSymbols) : i < c.size := by
  by_contra hi
  rw [get_of_le (Nat.le_of_not_lt hi)] at h
  exact OrderedSet.not_mem_empty x h

/-! ## Changing a collection -/

@[simp] theorem size_setState : (c.setState i s).size = c.size := Array.size_setIfInBounds

theorem get_setState_self (h : i < c.size) : (c.setState i s).get i = s := by
  have h : i < c.states.size := h
  simp [get, setState, h]

theorem get_setState_of_ne (h : j ≠ i) : (c.setState i s).get j = c.get j := by
  simp [get, setState, Array.getElem?_setIfInBounds_ne h.symm]

theorem get_setState (h : i < c.size) (j : StateId) :
    (c.setState i s).get j = if j = i then s else c.get j := by
  by_cases hj : j = i
  · rw [if_pos hj, hj, get_setState_self h]
  · rw [if_neg hj, get_setState_of_ne hj]

theorem setState_get (h : i < c.size) : c.setState i (c.get i) = c := by
  have h' : i < c.states.size := h
  have hget : c.states[i] = c.get i := by
    have hsome := getElem?_eq_get h
    rw [Array.getElem?_eq_getElem h'] at hsome
    exact Option.some.inj hsome
  have hstates : c.states.setIfInBounds i (c.get i) = c.states := by
    rw [← hget, Array.setIfInBounds_def, dif_pos h', Array.set_getElem_self]
  rw [setState, hstates]

@[simp] theorem index_setState : (c.setState i s).index = c.index := rfl

@[simp] theorem get_note (e : Event) : (c.note e).get i = c.get i := rfl

@[simp] theorem size_note (e : Event) : (c.note e).size = c.size := rfl

/-- What becomes of a collection when a state joins. -/
structure Appended (c : Collection) (s : State) (d : Collection) : Prop where
  size : d.size = c.size + 1
  visited : d.visited = c.visited
  index : d.index = c.index.add s.cores c.size
  last : d.get c.size = { s with number := some c.size }
  others : ∀ i, i ≠ c.size → d.get i = c.get i

namespace Appended

theorem get_eq (h : c.Appended s d) (hi : i < c.size) : d.get i = c.get i :=
  h.others i (Nat.ne_of_lt hi)

theorem eq_or_lt (h : c.Appended s d) (hi : i < d.size) : i = c.size ∨ i < c.size := by
  rw [h.size] at hi
  exact (Nat.lt_succ_iff_lt_or_eq.mp hi).symm

/-- The index goes on leading to the states with the given cores. -/
theorem mem_candidates (h : c.Appended s d)
    (hc : ∀ cs i, i ∈ c.index.candidates cs ↔ i < c.size ∧ (c.get i).cores = cs) (cs : List Core) :
    i ∈ d.index.candidates cs ↔ i < d.size ∧ (d.get i).cores = cs := by
  rw [h.index, CoreIndex.candidates_add, h.size]
  by_cases hi : i = c.size
  · subst hi
    rw [h.last]
    have hnot : c.size ∉ c.index.candidates cs := fun hmem =>
      absurd ((hc cs c.size).mp hmem).1 (Nat.lt_irrefl _)
    change _ ↔ _ ∧ s.cores = cs
    split
    · rename_i hcs
      simp [hcs]
    · rename_i hcs
      simp only [hnot, false_iff, not_and]
      exact fun _ he => hcs he.symm
  · rw [h.others i hi, Nat.lt_succ_iff_lt_or_eq, or_iff_left hi, ← hc cs i]
    split
    · rename_i hcs
      simp [hcs, hi]
    · rfl

end Appended

theorem append_yields {full : Prop} (hfull : stateLimit ≤ c.size → full) (s : State) :
    Yields full (c.append s) fun p =>
      p.2 = c.size ∧ c.size < stateLimit ∧ c.Appended s p.1 := by
  by_cases h : c.states.size < stateLimit
  · simp only [append, if_pos h]
    refine .ok ⟨rfl, h, Array.size_push _, rfl, rfl, ?_, fun i hi => ?_⟩
    · simp [get, note, size]
    · have hi : i ≠ c.states.size := hi
      simp [get, note, Array.getElem?_push, hi]
  · simp only [append, if_neg h]
    exact ⟨rfl, hfull (Nat.le_of_not_lt h)⟩

/-- What becomes of a collection when the state `i` records `j` as its successor behind `x`. -/
structure Recorded (c : Collection) (i : StateId) (x : Symbol) (j : StateId) (d : Collection) :
    Prop where
  size : d.size = c.size
  visited : d.visited = c.visited
  index : d.index = c.index
  state : ∀ k, d.get k = if k = i then (c.get k).assign x j else c.get k
  self : (d.get i).successor? x = some j
  other : ∀ k y, k ≠ i ∨ y ≠ x → (d.get k).successor? y = (c.get k).successor? y

theorem recorded_assign {x : Symbol} (hx : x ∈ (c.get i).nextSymbols) :
    c.Recorded i x j (c.setState i ((c.get i).assign x j)) := by
  have hi := lt_of_mem_nextSymbols hx
  refine ⟨size_setState, rfl, rfl, fun k => ?_, ?_, fun k y h => ?_⟩
  · rw [get_setState hi]
    split
    · rename_i hk
      rw [hk]
    · rfl
  · rw [get_setState_self hi]
    exact State.successor?_assign_self hx
  · by_cases hk : k = i
    · subst hk
      rw [get_setState_self hi]
      exact State.successor?_assign_of_ne (h.resolve_left fun hne => hne rfl)
    · rw [get_setState_of_ne hk]

namespace Recorded

variable {x : Symbol}

theorem cores (h : c.Recorded i x j d) (k : StateId) : (d.get k).cores = (c.get k).cores := by
  rw [h.state]
  split
  · exact State.cores_assign
  · rfl

theorem itemSet (h : c.Recorded i x j d) (k : StateId) :
    (d.get k).itemSet = (c.get k).itemSet := by
  rw [h.state]
  split
  · exact State.itemSet_assign
  · rfl

theorem nextSymbols (h : c.Recorded i x j d) (k : StateId) :
    (d.get k).nextSymbols = (c.get k).nextSymbols := by
  rw [h.state]
  split
  · exact State.nextSymbols_assign
  · rfl

theorem method (h : c.Recorded i x j d) (k : StateId) : (d.get k).method = (c.get k).method := by
  rw [h.state]
  split <;> rfl

theorem number (h : c.Recorded i x j d) (k : StateId) : (d.get k).number = (c.get k).number := by
  rw [h.state]
  split <;> rfl

/-- A recorded successor was recorded before, or it is the new one. -/
theorem successor?_eq_some (h : c.Recorded i x j d) {k l : StateId} {y : Symbol}
    (hl : (d.get k).successor? y = some l) :
    k = i ∧ y = x ∧ l = j ∨ (c.get k).successor? y = some l := by
  by_cases hk : k = i ∧ y = x
  · obtain ⟨rfl, rfl⟩ := hk
    rw [h.self] at hl
    exact .inl ⟨rfl, rfl, (Option.some.inj hl).symm⟩
  · rw [h.other k y (not_and_or.mp hk)] at hl
    exact .inr hl

end Recorded

/-! ## Collections that extend others -/

structure Extends (u : Setup) (c d : Collection) : Prop where
  size : c.size ≤ d.size
  visited : d.visited = c.visited
  cores : ∀ i, i < c.size → (d.get i).cores = (c.get i).cores
  lookaheads : ∀ i, (c.get i).itemSet.lookaheads ⊆ (d.get i).itemSet.lookaheads
  exact : u.config.method ≠ .lalr1 → ∀ i, i < c.size → (d.get i).itemSet = (c.get i).itemSet
  successor : ∀ i x, (d.get i).successor? x = (c.get i).successor? x

namespace Extends

variable {u : Setup} {e : Collection}

theorem refl (c : Collection) : c.Extends u c :=
  ⟨Nat.le_refl _, rfl, fun _ _ => rfl, fun _ => subset_rfl, fun _ _ _ => rfl, fun _ _ => rfl⟩

theorem trans (h1 : c.Extends u d) (h2 : d.Extends u e) : c.Extends u e where
  size := h1.size.trans h2.size
  visited := h2.visited.trans h1.visited
  cores i hi := (h2.cores i (hi.trans_le h1.size)).trans (h1.cores i hi)
  lookaheads i := (h1.lookaheads i).trans (h2.lookaheads i)
  exact hm i hi := (h2.exact hm i (hi.trans_le h1.size)).trans (h1.exact hm i hi)
  successor i x := (h2.successor i x).trans (h1.successor i x)

theorem le (h : c.Extends u d) (hi : i < c.size) : (c.get i).itemSet ≤ (d.get i).itemSet :=
  ⟨(State.itemSet_cores_eq (h.cores i hi)).superset, h.lookaheads i⟩

theorem note (c : Collection) (e : Event) : c.Extends u (c.note e) :=
  ⟨Nat.le_refl _, rfl, fun _ _ => rfl, fun _ => subset_rfl, fun _ _ _ => rfl, fun _ _ => rfl⟩

end Extends

/-- A state that is merged into an equal list of cores brings nothing but lookaheads. -/
theorem extends_absorb {u : Setup} (hi : i < c.size) (hc : (c.get i).cores = s.cores)
    (he : u.config.method ≠ .lalr1 → s.itemSet.lookaheads ⊆ (c.get i).itemSet.lookaheads) :
    c.Extends u (c.setState i ((c.get i).absorb s)) := by
  refine ⟨size_setState.ge, rfl, fun j _ => ?_, fun j => ?_, fun hm j _ => ?_, fun j x => ?_⟩
  · rw [get_setState hi]
    split
    · rename_i h
      rw [h, State.cores_absorb hc]
    · rfl
  · rw [get_setState hi]
    split
    · rename_i h
      rw [h, State.lookaheads_absorb hc]
      exact Set.subset_union_left
    · exact subset_rfl
  · rw [get_setState hi]
    split
    · rename_i h
      rw [h]
      refine ItemSet.ext (State.itemSet_cores_eq (State.cores_absorb hc)) ?_
      rw [State.lookaheads_absorb hc]
      exact Set.union_eq_self_of_subset_right (he hm)
    · rfl
  · rw [get_setState hi]
    split
    · rename_i h
      rw [h, State.successor?_absorb hc]
    · rfl

theorem Appended.extends {u : Setup} (h : c.Appended s d) (hs : ∀ x, s.successor? x = none) :
    c.Extends u d := by
  refine ⟨by rw [h.size]; exact Nat.le_succ _, h.visited, fun i hi => by rw [h.get_eq hi],
    fun i => ?_, fun _ i hi => h.get_eq hi ▸ rfl, fun i x => ?_⟩
  · by_cases hi : i = c.size
    · rw [hi, get_of_le (Nat.le_refl c.size)]
      exact fun p hp => absurd hp (List.not_mem_nil)
    · rw [h.others i hi]
  · by_cases hi : i = c.size
    · rw [hi, h.last, get_of_le (Nat.le_refl c.size)]
      exact hs x
    · rw [h.others i hi]

end Collection

end ShiftReduce
