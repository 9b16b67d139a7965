import ShiftReduce.Proofs.CollectionView

/-!
# The invariant of the construction

`Built` is what holds of every state that the construction forms: it is closed, it comes from a
kernel, and what it says can be traced to paths from the start. `Inv` is what holds of the
collection all the time. `Carried` says that the successors of a state have got all its lookaheads;
the states for which this fails are those that are still to be worked on.
-/

namespace ShiftReduce

namespace Setup

variable (u : Setup)

/-- Whether the items carry lookaheads. -/
def ahead : Bool := u.config.method.looksAhead

/-- The item set that a path from the start leads to. -/
def along (path : List Symbol) : ItemSet := u.grammar.along u.ahead u.config.endOfInput path

/-- The item set behind `x`. -/
def successor (I : ItemSet) (x : Symbol) : ItemSet := I.successor u.grammar u.ahead x

/-- In LR(0) there are no lookaheads. -/
theorem lookaheads_eq_empty {u : Setup} (hm : u.config.method = .lr0) {I : ItemSet}
    (h : I.Bounded u.grammar u.ahead u.config.endOfInput) : I.lookaheads = ∅ := by
  have hahead : u.ahead = false := by
    rw [ahead, hm]
    rfl
  rw [hahead] at h
  exact h.lookaheads_eq_empty

/-- No state can have the items of both. Where lookaheads are united, only the cores keep item sets
apart. -/
def Apart (I J : ItemSet) : Prop :=
  I.cores ≠ J.cores ∨ u.config.method ≠ .lalr1 ∧ I ≠ J

/-- More item sets than there are state numbers lie on paths from the start, and each of them needs
a state of its own. -/
def Crowded : Prop :=
  ∃ path : Fin (stateLimit + 1) → List Symbol, (∀ n, ∃ c, c ∈ (u.along (path n)).cores) ∧
    ∀ n k, n ≠ k → u.Apart (u.along (path n)) (u.along (path k))

end Setup

/-! ## States -/

namespace State

/-- What an item set says can be traced to paths that lead to the same cores. -/
structure Grounded (u : Setup) (I : ItemSet) : Prop where
  path : ∃ path, (u.along path).cores = I.cores ∧
    (u.config.method ≠ .lalr1 → u.along path = I)
  lookaheads : ∀ p ∈ I.lookaheads, ∃ path, (u.along path).cores = I.cores ∧
    p ∈ (u.along path).lookaheads

structure Built (u : Setup) (s : State) : Prop where
  proper : s.Proper u.grammar
  method : s.method = u.config.method
  saturated : s.itemSet.closure u.grammar u.ahead = s.itemSet
  kernel : s.FromKernel u
  bounded : s.itemSet.Bounded u.grammar u.ahead u.config.endOfInput
  grounded : Grounded u s.itemSet
  uniform : s.Uniform
  ended : s.Ended
  closed : s.closed = true

variable {u : Setup} {s t : State} {x : Symbol}

theorem Grounded.successor {I : ItemSet} (h : Grounded u I) (x : Symbol) :
    Grounded u (u.successor I x) := by
  have hcores (path : List Symbol) (hp : (u.along path).cores = I.cores) :
      (u.along (path ++ [x])).cores = (u.successor I x).cores := by
    rw [Setup.along, Grammar.along_append_singleton]
    exact ItemSet.cores_successor_congr hp x
  obtain ⟨path, hp, hexact⟩ := h.path
  refine ⟨⟨path ++ [x], hcores path hp, fun hm => ?_⟩, fun p hpx => ?_⟩
  · rw [Setup.along, Grammar.along_append_singleton]
    exact congrArg (u.successor · x) (hexact hm)
  obtain ⟨J, ⟨path, hpath, rfl⟩, hJ⟩ := ItemSet.exists_source_successor
    (S := {J | ∃ path, (u.along path).cores = I.cores ∧ J = u.along path})
    ⟨_, path, hp, rfl⟩ (by rintro J ⟨path, hp, rfl⟩; exact hp.superset)
    (fun p hp => (h.lookaheads p hp).elim fun path hp => ⟨_, ⟨path, hp.1, rfl⟩, hp.2⟩) hpx
  refine ⟨path ++ [x], hcores path hpath, ?_⟩
  rw [Setup.along, Grammar.along_append_singleton]
  exact hJ

theorem FromKernel.congr (h : s.FromKernel u) (hc : s.cores = t.cores) : t.FromKernel u := by
  obtain ⟨d, hd, hdc, hk, hs⟩ := h
  exact ⟨d, hd, hdc, hk, hc.symm.trans hs⟩

/-- No item that closing produces has recorded a successor, if none of the draft has. -/
theorem next_close (hc : s.closed = false) (h : ∀ i ∈ s.items, i.next = none) :
    ∀ i ∈ (s.close u).items, i.next = none := by
  intro k hk
  rcases (mem_items_close hc).mp hk with ⟨i, hi, rfl⟩ | ⟨r, -, -, -, rfl⟩
  · have hnext : (adjust u (s.expansions u) i).next = i.next := by
      unfold adjust
      split
      · split <;> rfl
      · rfl
    rw [hnext]
    exact h i hi
  · rfl

theorem next_closedSuccessor (hs : s.Proper u.grammar) :
    ∀ i ∈ (s.closedSuccessor u x).items, i.next = none := by
  refine next_close closed_successorDraft fun k hk => ?_
  obtain ⟨i, -, -, hk⟩ := (mem_items_successorDraft hs.nodup).mp hk
  exact (Item.advance?_eq_some.mp hk).2.2.2.2

namespace Built

theorem itemSet_closedSuccessor (h : Built u s) (x : Symbol) :
    (s.closedSuccessor u x).itemSet = u.successor s.itemSet x := by
  rw [State.itemSet_closedSuccessor h.proper x, h.method]
  rfl

theorem closedSuccessor (h : Built u s) (hx : x ∈ s.nextSymbols) :
    Built u (s.closedSuccessor u x) where
  proper := proper_closedSuccessor h.proper x
  method := method_close.trans h.method
  saturated := by
    rw [h.itemSet_closedSuccessor]
    exact ItemSet.closure_closure
  kernel := fromKernel_closedSuccessor h.proper hx
  bounded := by
    rw [h.itemSet_closedSuccessor]
    exact h.bounded.successor x
  grounded := by
    rw [h.itemSet_closedSuccessor]
    exact h.grounded.successor x
  uniform := uniform_of_next_none (next_closedSuccessor h.proper)
  ended := ended_of_next_none (next_closedSuccessor h.proper)
  closed := closed_close

theorem absorb (h : Built u s) (ht : Built u t) (hc : s.cores = t.cores)
    (he : u.config.method ≠ .lalr1 → t.itemSet.lookaheads ⊆ s.itemSet.lookaheads) :
    Built u (s.absorb t) := by
  have hcores : (s.absorb t).itemSet.cores = s.itemSet.cores := itemSet_cores_eq (cores_absorb hc)
  have hmem {p : Core × Symbol} (hp : p ∈ (s.absorb t).itemSet.lookaheads) :
      p ∈ s.itemSet.lookaheads ∨ p ∈ t.itemSet.lookaheads := by
    rwa [lookaheads_absorb hc] at hp
  refine ⟨proper_absorb h.proper hc, h.method, ?_, h.kernel.congr (cores_absorb hc).symm, ?_, ?_,
    uniform_absorb h.uniform hc, ended_absorb h.ended hc, h.closed⟩
  · rw [itemSet_absorb hc, ItemSet.closure_union, h.saturated, ht.saturated]
  · exact fun p hp => (hmem hp).elim (h.bounded p) (ht.bounded p)
  · obtain ⟨path, hpath, hexact⟩ := h.grounded.path
    refine ⟨⟨path, hpath.trans hcores.symm, fun hm => ?_⟩, fun p hp => ?_⟩
    · rw [hexact hm]
      refine ItemSet.ext hcores.symm ?_
      rw [lookaheads_absorb hc]
      exact (Set.union_eq_self_of_subset_right (he hm)).symm
    rcases hmem hp with hp | hp
    · rw [hcores]
      exact h.grounded.lookaheads p hp
    · rw [hcores, itemSet_cores_eq hc]
      exact ht.grounded.lookaheads p hp

theorem assign (h : Built u s) (x : Symbol) (target : StateId) : Built u (s.assign x target) where
  proper := proper_assign h.proper
  method := h.method
  saturated := by
    rw [itemSet_assign]
    exact h.saturated
  kernel := h.kernel.congr cores_assign.symm
  bounded := by
    rw [itemSet_assign]
    exact h.bounded
  grounded := by
    rw [itemSet_assign]
    exact h.grounded
  uniform := uniform_assign h.uniform
  ended := ended_assign h.ended
  closed := h.closed

/-- States that are not alike are found on paths whose item sets keep apart. -/
theorem apart (hs : Built u s) (ht : Built u t) (hne : ¬s.Alike t) {I J : ItemSet}
    (hI : I.cores = s.itemSet.cores ∧ (u.config.method ≠ .lalr1 → I = s.itemSet))
    (hJ : J.cores = t.itemSet.cores ∧ (u.config.method ≠ .lalr1 → J = t.itemSet)) :
    u.Apart I J := by
  by_contra hno
  obtain ⟨hc, hset⟩ := not_or.mp hno
  have hcores : s.itemSet.cores = t.itemSet.cores := by
    rw [← hI.1, ← hJ.1, not_not.mp hc]
  refine hne ⟨cores_eq_of_mem_iff rfl hs.kernel ht.kernel (Set.ext_iff.mp hcores), fun h1 => ?_⟩
  have hm : u.config.method ≠ .lalr1 := by
    rw [← hs.method, h1]
    decide
  have hIJ : I = J := by
    by_contra hIJ
    exact hset ⟨hm, hIJ⟩
  rw [← hI.2 hm, hIJ, hJ.2 hm]

theorem number (h : Built u s) (n : Option StateId) : Built u { s with number := n } :=
  ⟨⟨h.proper.rules, h.proper.nodup⟩, h.method, h.saturated, h.kernel, h.bounded, h.grounded,
    h.uniform, h.ended, h.closed⟩

end Built

/-! ## The start state -/

theorem itemSet_start {r : Rule} (hr : r.id = startId) (m : Method) (e : String) :
    (start m r e).itemSet = ItemSet.start m.looksAhead e := by
  refine ItemSet.ext (Set.ext fun c => ?_) (Set.ext fun ⟨c, y⟩ => ?_)
  · simp only [mem_itemSet_cores, start, draft, cores, List.map_cons, List.map_nil,
      List.mem_singleton, Item.ofRule, Item.core, hr]
    exact Iff.rfl
  · rw [mem_itemSet_lookaheads, mem_pairs]
    simp only [start, List.mem_singleton, exists_eq_left, ItemSet.start, Set.mem_ofPred_eq]
    have hmem : y ∈ (Item.ofRule r (carried m (.ofList [.terminal e]))).lookaheads ↔
        m.looksAhead = true ∧ y = .terminal e := by
      change y ∈ carried m (.ofList [.terminal e]) ↔ _
      rw [mem_carried, OrderedSet.mem_ofList, List.mem_singleton]
    have hcore : (Item.ofRule r (carried m (.ofList [.terminal e]))).core = ⟨startId, 0⟩ :=
      congrArg (Core.mk · 0) hr
    rw [hmem, hcore, Prod.mk.injEq, @eq_comm _ c]
    exact and_left_comm

theorem start_eq_ok {d : State} (h : u.start u.config.method = .ok d) : ∃ r,
    u.grammar.startRule = .ok r ∧ d = start u.config.method r u.config.endOfInput := by
  unfold Setup.start at h
  cases hr : u.grammar.startRule with
  | error f => simp [hr, bind, Except.bind] at h
  | ok r => exact ⟨r, rfl, by simpa [hr, bind, Except.bind] using h.symm⟩

theorem proper_start {d : State} (h : u.start u.config.method = .ok d) : d.Proper u.grammar := by
  obtain ⟨r, hr, rfl⟩ := start_eq_ok h
  refine ⟨fun i hi => ?_, List.nodup_singleton _⟩
  obtain rfl := List.mem_singleton.mp hi
  exact (Grammar.startRule_eq_ok_iff.mp hr).1

theorem itemSet_close_start {d : State} (h : u.start u.config.method = .ok d) :
    (d.close u).itemSet = u.along [] := by
  have hd := proper_start h
  obtain ⟨r, hr, rfl⟩ := start_eq_ok h
  rw [itemSet_close hd rfl, itemSet_start (Grammar.startRule_eq_ok_iff.mp hr).2]
  rfl

theorem next_close_start {d : State} (h : u.start u.config.method = .ok d) :
    ∀ i ∈ (d.close u).items, i.next = none := by
  obtain ⟨r, -, rfl⟩ := start_eq_ok h
  refine next_close rfl fun i hi => ?_
  obtain rfl := List.mem_singleton.mp hi
  rfl

theorem built_start {d : State} (h : u.start u.config.method = .ok d) : Built u (d.close u) where
  proper := proper_close (proper_start h)
  method := by
    obtain ⟨r, -, rfl⟩ := start_eq_ok h
    exact method_close
  saturated := by
    rw [itemSet_close_start h]
    exact Grammar.closure_along []
  kernel := by
    refine ⟨d, proper_start h, ?_, ?_, rfl⟩
    · obtain ⟨r, -, rfl⟩ := start_eq_ok h
      rfl
    · obtain ⟨r, hr, rfl⟩ := start_eq_ok h
      exact .inl (congrArg (fun id => [Core.mk id 0]) (Grammar.startRule_eq_ok_iff.mp hr).2)
  bounded := by
    rw [itemSet_close_start h]
    exact ItemSet.bounded_start.closure
  grounded := by
    rw [itemSet_close_start h]
    exact ⟨⟨[], rfl, fun _ => rfl⟩, fun p hp => ⟨[], rfl, hp⟩⟩
  uniform := uniform_of_next_none (next_close_start h)
  ended := ended_of_next_none (next_close_start h)
  closed := closed_close

end State

/-! ## Collections -/

namespace Collection

/-- Whether the state `s` stands for `t`: with the same cores and, unless lookaheads are united,
with the same lookaheads. -/
def StandsFor (u : Setup) (s t : State) : Prop :=
  s.cores = t.cores ∧ (u.config.method ≠ .lalr1 → s.itemSet = t.itemSet)

structure Inv (u : Setup) (c : Collection) : Prop where
  size_le : c.size ≤ stateLimit
  built : ∀ i, i < c.size → State.Built u (c.get i)
  number : ∀ i, i < c.size → (c.get i).number = some i
  index : ∀ cs i, i ∈ c.index.candidates cs ↔ i < c.size ∧ (c.get i).cores = cs
  distinct : ∀ i j, i < c.size → j < c.size → (c.get i).Alike (c.get j) → i = j
  leads : ∀ i x j, (c.get i).successor? x = some j →
    j < c.size ∧ StandsFor u (c.get j) ((c.get i).closedSuccessor u x)

/-- The lookaheads of `I` have reached the successors that the state `i` has recorded. -/
def CarriedFrom (u : Setup) (I : ItemSet) (c : Collection) (i : StateId) : Prop :=
  ∀ x j, (c.get i).successor? x = some j →
    (u.successor I x).lookaheads ⊆ (c.get j).itemSet.lookaheads

def Carried (u : Setup) (c : Collection) (i : StateId) : Prop :=
  CarriedFrom u (c.get i).itemSet c i

variable {u : Setup} {c d : Collection} {i j : StateId} {s : State} {x : Symbol}

/-- Whether a state is a successor of another one depends on the cores of the two and, unless
lookaheads are united, on their item sets. -/
theorem StandsFor.congr {t s' t' : State} (h : StandsFor u t (s.closedSuccessor u x))
    (hs : State.Built u s) (hs' : State.Built u s') (hc : s'.cores = s.cores)
    (he : u.config.method ≠ .lalr1 → s'.itemSet = s.itemSet) (hc' : t'.cores = t.cores)
    (he' : u.config.method ≠ .lalr1 → t'.itemSet = t.itemSet) :
    StandsFor u t' (s'.closedSuccessor u x) := by
  refine ⟨?_, fun hm => ?_⟩
  · rw [hc', h.1]
    exact State.cores_closedSuccessor_congr rfl hs.proper hs'.proper hc.symm x
  · rw [he' hm, h.2 hm, hs.itemSet_closedSuccessor, hs'.itemSet_closedSuccessor, he hm]

theorem CarriedFrom.extends {I : ItemSet} (h : CarriedFrom u I c i) (hd : c.Extends u d) :
    CarriedFrom u I d i := by
  intro x j hj
  rw [hd.successor] at hj
  exact (h x j hj).trans (hd.lookaheads j)

theorem Carried.extends (h : Carried u c i) (hd : c.Extends u d)
    (hi : (d.get i).itemSet = (c.get i).itemSet) : Carried u d i := by
  rw [Carried, hi]
  exact CarriedFrom.extends h hd

theorem carried_of_size_le (h : c.size ≤ i) : Carried u c i := by
  intro x j hj
  exact absurd (lt_of_successor? hj) (Nat.not_lt.mpr h)

namespace Inv

theorem method (h : Inv u c) (hi : i < c.size) : (c.get i).method = u.config.method :=
  (h.built i hi).method

/-- Recorded successors stay right when the collection is extended. -/
theorem leads_extends (h : Inv u c) (hd : c.Extends u d)
    (hb : ∀ i, i < d.size → State.Built u (d.get i)) (hj : (d.get i).successor? x = some j) :
    j < d.size ∧ StandsFor u (d.get j) ((d.get i).closedSuccessor u x) := by
  rw [hd.successor] at hj
  have hi := lt_of_successor? hj
  obtain ⟨hlt, hstands⟩ := h.leads i x j hj
  refine ⟨hlt.trans_le hd.size, ?_⟩
  exact hstands.congr (h.built i hi) (hb i (hi.trans_le hd.size)) (hd.cores i hi)
    (fun hm => hd.exact hm i hi) (hd.cores j hlt) fun hm => hd.exact hm j hlt

/-- States that are alike afterwards were alike before. -/
theorem alike_of_extends (h : Inv u c) (hd : c.Extends u d)
    (hb : ∀ i, i < d.size → State.Built u (d.get i)) (hi : i < c.size) (hj : j < c.size)
    (ha : (d.get i).Alike (d.get j)) : (c.get i).Alike (c.get j) := by
  refine ⟨?_, fun h1 => ?_⟩
  · rw [← hd.cores i hi, ← hd.cores j hj]
    exact ha.1
  · have hm : u.config.method ≠ .lalr1 := by
      rw [← h.method hi, h1]
      decide
    rw [← hd.exact hm i hi, ← hd.exact hm j hj]
    exact ha.2 (by rw [(hb i (hi.trans_le hd.size)).method, ← h.method hi, h1])

/-- If no number is left for a state that is like none of the others, there is no room for the item
sets on the paths. -/
theorem crowded (h : Inv u c) (hs : State.Built u s) (hnew : ∀ i, i < c.size → ¬(c.get i).Alike s)
    (hfull : stateLimit ≤ c.size) : u.Crowded := by
  have hsize : c.size = stateLimit := Nat.le_antisymm h.size_le hfull
  obtain ⟨f, hold, hlast⟩ : ∃ f : Nat → State, (∀ n, n < c.size → f n = c.get n) ∧ f c.size = s :=
    ⟨fun n => if n < c.size then c.get n else s, fun n hn => if_pos hn, if_neg (Nat.lt_irrefl _)⟩
  have hcase (n : Fin (stateLimit + 1)) : n.val = c.size ∨ n.val < c.size := by
    have := n.isLt
    omega
  have hbuilt (n : Fin (stateLimit + 1)) : State.Built u (f n) := by
    rcases hcase n with hn | hn
    · rw [hn, hlast]
      exact hs
    · rw [hold n hn]
      exact h.built n hn
  have hdiff (n k : Fin (stateLimit + 1)) (hne : n ≠ k) : ¬(f n).Alike (f k) := by
    intro ha
    rcases hcase n with hn | hn <;> rcases hcase k with hk | hk
    · exact hne (Fin.ext (hn.trans hk.symm))
    · refine hnew k hk ?_
      have ha := ha.symm ((hbuilt n).method.trans (hbuilt k).method.symm)
      rwa [hold k hk, hn, hlast] at ha
    · refine hnew n hn ?_
      rwa [hold n hn, hk, hlast] at ha
    · rw [hold n hn, hold k hk] at ha
      exact hne (Fin.ext (h.distinct n k hn hk ha))
  choose path hpath using fun n => (hbuilt n).grounded.path
  refine ⟨path, fun n => ?_, fun n k hne =>
    (hbuilt n).apart (hbuilt k) (hdiff n k hne) (hpath n) (hpath k)⟩
  obtain ⟨core, hcore⟩ := (hbuilt n).kernel.exists_core
  exact ⟨core, by rw [(hpath n).1]; exact hcore⟩

theorem note (h : Inv u c) (e : Event) : Inv u (c.note e) :=
  ⟨h.size_le, h.built, h.number, h.index, h.distinct, h.leads⟩

theorem absorb (h : Inv u c) (hi : i < c.size) (hs : State.Built u s)
    (hc : (c.get i).cores = s.cores)
    (he : u.config.method ≠ .lalr1 → s.itemSet.lookaheads ⊆ (c.get i).itemSet.lookaheads) :
    Inv u (c.setState i ((c.get i).absorb s)) := by
  have hd := extends_absorb hi hc he
  have hb : ∀ j, j < (c.setState i ((c.get i).absorb s)).size →
      State.Built u ((c.setState i ((c.get i).absorb s)).get j) := by
    intro j hj
    rw [size_setState] at hj
    rw [get_setState hi]
    split
    · exact (h.built i hi).absorb hs hc he
    · exact h.built j hj
  refine ⟨size_setState.trans_le h.size_le, hb, fun j hj => ?_, fun cs j => ?_,
    fun j k hj hk ha => ?_, fun j x k hk => h.leads_extends hd hb hk⟩
  · rw [size_setState] at hj
    rw [get_setState hi]
    split
    · rename_i hji
      rw [hji]
      exact h.number i hi
    · exact h.number j hj
  · rw [index_setState, h.index, size_setState]
    exact and_congr_right fun hj => by rw [hd.cores j hj]
  · rw [size_setState] at hj hk
    exact h.distinct j k hj hk (h.alike_of_extends hd hb hj hk ha)

theorem append (h : Inv u c) (hs : State.Built u s) (hnext : ∀ x, s.successor? x = none)
    (hnew : ∀ i, i < c.size → ¬(c.get i).Alike s) (hlimit : c.size < stateLimit)
    (hd : c.Appended s d) : Inv u d := by
  have hext := hd.extends (u := u) hnext
  have hb : ∀ i, i < d.size → State.Built u (d.get i) := by
    intro i hi
    rcases hd.eq_or_lt hi with rfl | hi
    · rw [hd.last]
      exact hs.number _
    · rw [hd.get_eq hi]
      exact h.built i hi
  refine ⟨by rw [hd.size]; exact hlimit, hb, fun i hi => ?_,
    fun cs i => hd.mem_candidates h.index cs, fun i j hi hj ha => ?_,
    fun i x j hj => h.leads_extends hext hb hj⟩
  · rcases hd.eq_or_lt hi with rfl | hi
    · rw [hd.last]
    · rw [hd.get_eq hi]
      exact h.number i hi
  · have hnot (i : StateId) (hi : i < c.size) : ¬(d.get i).Alike (d.get c.size) := by
      rw [hd.get_eq hi, hd.last]
      exact hnew i hi
    rcases hd.eq_or_lt hi with rfl | hi' <;> rcases hd.eq_or_lt hj with rfl | hj'
    · rfl
    · exact absurd (ha.symm ((hb _ hi).method.trans (hb _ hj).method.symm)) (hnot j hj')
    · exact absurd ha (hnot i hi')
    · exact h.distinct i j hi' hj' (h.alike_of_extends hext hb hi' hj' ha)

theorem recorded (h : Inv u c) (hi : i < c.size) (hj : j < c.size)
    (hstands : StandsFor u (c.get j) ((c.get i).closedSuccessor u x)) (hd : c.Recorded i x j d) :
    Inv u d := by
  have hb (k : StateId) (hk : k < c.size) : State.Built u (d.get k) := by
    rw [hd.state]
    split
    · exact (h.built k hk).assign x j
    · exact h.built k hk
  refine ⟨hd.size.trans_le h.size_le, fun k hk => hb k (hd.size ▸ hk), fun k hk => ?_,
    fun cs k => ?_, fun k l hk hl ha => ?_, fun k y l hl => ?_⟩
  · rw [hd.number]
    exact h.number k (hd.size ▸ hk)
  · rw [hd.index, h.index, hd.size, hd.cores]
  · refine h.distinct k l (hd.size ▸ hk) (hd.size ▸ hl) ⟨?_, fun h1 => ?_⟩
    · rw [← hd.cores k, ← hd.cores l]
      exact ha.1
    · rw [← hd.itemSet k, ← hd.itemSet l]
      exact ha.2 ((hd.method k).trans h1)
  · have hk : k < c.size := hd.size ▸ lt_of_successor? hl
    have hlead : l < c.size ∧ StandsFor u (c.get l) ((c.get k).closedSuccessor u y) := by
      rcases hd.successor?_eq_some hl with ⟨rfl, rfl, rfl⟩ | hl
      · exact ⟨hj, hstands⟩
      · exact h.leads k y l hl
    rw [hd.size]
    exact ⟨hlead.1, hlead.2.congr (h.built k hk) (hb k hk) (hd.cores k) (fun _ => hd.itemSet k)
      (hd.cores l) fun _ => hd.itemSet l⟩

end Inv

end Collection

end ShiftReduce
