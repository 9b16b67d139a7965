import ShiftReduce.Collection.Reached
import ShiftReduce.Proofs.Numbering
import ShiftReduce.Proofs.Placement

/-!
# The construction comes to rest

Between two visits the collection is at rest: every state before the next one has all its
successors, the others have none, and all lookaheads have been carried. While a state is visited
only its own lookaheads may wait, and the visit ends by carrying them. So every collection that is
reached is at rest, and the construction fails for no other reason than that there are too many
states.
-/

namespace ShiftReduce.Collection

variable {u : Setup} {c d : Collection} {i j id : StateId} {s : State} {x : Symbol}
  {done : List Symbol}

/-- What a collection has from the beginning: the start state, and a way to every other state, which
has its number from the first turn that led to it. -/
structure Connected (u : Setup) (c : Collection) : Prop where
  size_pos : 0 < c.size
  start_le : u.along [] ≤ (c.get 0).itemSet
  start_cores : (c.get 0).itemSet.cores = (u.along []).cores
  start_eq : u.config.method ≠ .lalr1 → (c.get 0).itemSet = u.along []
  numbered : Numbered c.get c.size

/-- All symbols that items wait for have a recorded successor. -/
def Linked (c : Collection) (i : StateId) : Prop :=
  ∀ x ∈ (c.get i).nextSymbols, ((c.get i).successor? x).isSome = true

/-- Between visits. -/
structure AtRest (u : Setup) (c : Collection) : Prop where
  inv : Inv u c
  connected : Connected u c
  visited_le : c.visited ≤ c.size
  linked : ∀ i, i < c.visited → Linked c i
  unlinked : ∀ i x, c.visited ≤ i → (c.get i).successor? x = none
  carried : ∀ i, Carried u c i

/-- During the visit of the state `c.visited`, which had the items of `s` when it began and has now
recorded its successors behind the symbols `done`. -/
structure Visiting (u : Setup) (s : State) (done : List Symbol) (c : Collection) : Prop where
  inv : Inv u c
  connected : Connected u c
  lt : c.visited < c.size
  linked : ∀ i, i < c.visited → Linked c i
  unlinked : ∀ i x, c.visited < i → (c.get i).successor? x = none
  carried : ∀ i, i ≠ c.visited → Carried u c i
  stands : StandsFor u (c.get c.visited) s
  lookaheads : s.itemSet.lookaheads ⊆ (c.get c.visited).itemSet.lookaheads
  recorded : ∀ x, ((c.get c.visited).successor? x).isSome = true ↔ x ∈ done
  reached : CarriedFrom u s.itemSet c c.visited

/-! ## Extending a collection -/

/-- States keep their next symbols. -/
theorem Inv.nextSymbols_extends (hc : Inv u c) (hd : Inv u d) (hext : c.Extends u d)
    (hi : i < c.size) : (d.get i).nextSymbols = (c.get i).nextSymbols :=
  State.nextSymbols_congr (hd.built i (hi.trans_le hext.size)).proper (hc.built i hi).proper
    (hext.cores i hi)

/-- So their successors keep their turns. -/
theorem Inv.numbered_extends {n : Nat} (hc : Inv u c) (hd : Inv u d) (hext : c.Extends u d)
    (h : Numbered c.get n) : Numbered d.get n :=
  h.congr hext.successor fun _ _ _ hj => hc.nextSymbols_extends hd hext (lt_of_successor? hj)

theorem Connected.extends (h : Connected u c) (hc : Inv u c) (hinv : Inv u d)
    (hd : c.Extends u d) (hsize : d.size = c.size) : Connected u d := by
  have h0 := h.size_pos
  refine ⟨hsize ▸ h0, ItemSet.le_trans h.start_le (hd.le h0), ?_, fun hm => ?_,
    hsize ▸ hc.numbered_extends hinv hd h.numbered⟩
  · rw [← h.start_cores]
    exact State.itemSet_cores_eq (hd.cores 0 h0)
  · rw [hd.exact hm 0 h0]
    exact h.start_eq hm

theorem Linked.extends (h : Linked c i) (hi : i < c.size) (hc : Inv u c) (hd : Inv u d)
    (hext : c.Extends u d) : Linked d i := by
  intro x hx
  rw [hc.nextSymbols_extends hd hext hi] at hx
  rw [hext.successor]
  exact h x hx

/-! ## Recording -/

theorem Linked.recorded (h : Linked c i) (hd : c.Recorded id x j d) : Linked d i := by
  intro y hy
  rw [hd.nextSymbols] at hy
  by_cases hk : i = id ∧ y = x
  · obtain ⟨rfl, rfl⟩ := hk
    rw [hd.self]
    rfl
  · rw [hd.other i y (not_and_or.mp hk)]
    exact h y hy

theorem CarriedFrom.recorded {I : ItemSet} (h : CarriedFrom u I c i) (hd : c.Recorded id x j d)
    (hx : i = id → (u.successor I x).lookaheads ⊆ (c.get j).itemSet.lookaheads) :
    CarriedFrom u I d i := by
  intro y k hk
  rw [hd.itemSet]
  rcases hd.successor?_eq_some hk with ⟨rfl, rfl, rfl⟩ | hk
  · exact hx rfl
  · exact h y k hk

/-- A state that joins is connected by being recorded, when its turn has come. -/
theorem Connected.placed {exempt : Set StateId} {e : Collection} (h : Connected u c)
    (hc : Inv u c) (hd : Placed u exempt c s d j) (he : d.Recorded i x j e) (hi : i < c.size)
    (hlast : ∀ k y l, (c.get k).successor? y = some l → turn c.get k y < turn c.get i x) :
    Connected u e := by
  have h0 := h.size_pos
  have hext := hd.extended
  have hturn {k : StateId} (hk : k < c.size) (y : Symbol) : turn d.get k y = turn c.get k y :=
    turn_congr (hc.nextSymbols_extends hd.inv hext hk)
  refine ⟨he.size ▸ h0.trans_le hext.size, ?_, ?_, fun hm => ?_, ?_⟩
  · rw [he.itemSet]
    exact ItemSet.le_trans h.start_le (hext.le h0)
  · rw [he.itemSet, ← h.start_cores]
    exact State.itemSet_cores_eq (hext.cores 0 h0)
  · rw [he.itemSet, hext.exact hm 0 h0]
    exact h.start_eq hm
  · rw [he.size]
    refine (hc.numbered_extends hd.inv hext h.numbered).recorded he hi hd.size fun k y l hl => ?_
    rw [hext.successor] at hl
    rw [hturn (lt_of_successor? hl), hturn hi]
    exact ⟨(hc.leads k y l hl).1, hlast k y l hl⟩

theorem Visiting.nextSymbols_eq (h : Visiting u s done c) (hs : State.Built u s) :
    (c.get c.visited).nextSymbols = s.nextSymbols :=
  State.nextSymbols_congr (h.inv.built _ h.lt).proper hs.proper h.stands.1

/-- The turn of the next draft comes after all that is recorded. -/
theorem Visiting.turn_lt {rest : List Symbol} (h : Visiting u s done c) (hs : State.Built u s)
    (hl : s.nextSymbols.toList = done ++ x :: rest) (hnew : x ∉ done) {k l : StateId} {y : Symbol}
    (hk : (c.get k).successor? y = some l) : turn c.get k y < turn c.get c.visited x := by
  rcases lt_trichotomy k c.visited with hlt | rfl | hgt
  · exact turn_lt_of_lt hlt
  · refine turn_lt_of_mem (by rw [h.nextSymbols_eq hs, hl]) ((h.recorded y).mp ?_) hnew
    rw [hk]
    rfl
  · rw [h.unlinked k y hgt] at hk
    cases hk

/-- Recording where a draft of the visited state has been placed. -/
theorem Visiting.recorded_placed {target : StateId} {e : Collection} {rest : List Symbol}
    (h : Visiting u s done c) (hs : State.Built u s)
    (hl : s.nextSymbols.toList = done ++ x :: rest) (hnew : x ∉ done)
    (hp : Placed u {c.visited} c (s.closedSuccessor u x) d target)
    (hrec : d.Recorded c.visited x target e) :
    e.visited = c.visited ∧ Visiting u s (done ++ [x]) e := by
  have hext := hp.extended
  have hv : c.visited < d.size := h.lt.trans_le hext.size
  have hcores : (d.get c.visited).cores = s.cores := (hext.cores _ h.lt).trans h.stands.1
  have hexact : u.config.method ≠ .lalr1 → (d.get c.visited).itemSet = s.itemSet :=
    fun hm => (hext.exact hm _ h.lt).trans (h.stands.2 hm)
  have hstands := hp.stands.congr hs (hp.inv.built _ hv) hcores hexact rfl fun _ => rfl
  have hvisited : e.visited = c.visited := hrec.visited.trans hext.visited
  refine ⟨hvisited, ?_⟩
  constructor
  · exact hp.inv.recorded hv hp.lt hstands hrec
  · exact h.connected.placed h.inv hp hrec h.lt fun k y l hk => h.turn_lt hs hl hnew hk
  · rw [hvisited, hrec.size]
    exact hv
  · intro i hi
    rw [hvisited] at hi
    exact ((h.linked i hi).extends (hi.trans h.lt) h.inv hp.inv hext).recorded hrec
  · intro i y hi
    rw [hvisited] at hi
    rw [hrec.other i y (.inl (Nat.ne_of_gt hi)), hext.successor]
    exact h.unlinked i y hi
  · intro i hi
    rw [hvisited] at hi
    have hcar : CarriedFrom u (d.get i).itemSet d i := hp.carried i hi
    rw [← hrec.itemSet] at hcar
    exact hcar.recorded hrec fun he => absurd he hi
  · rw [hvisited]
    exact ⟨(hrec.cores _).trans hcores, fun hm => (hrec.itemSet _).trans (hexact hm)⟩
  · rw [hvisited, hrec.itemSet]
    exact h.lookaheads.trans (hext.lookaheads _)
  · intro y
    rw [hvisited, List.mem_append, List.mem_singleton]
    by_cases hy : y = x
    · rw [hy, hrec.self]
      exact ⟨fun _ => .inr rfl, fun _ => rfl⟩
    · rw [hrec.other _ y (.inr hy), hext.successor, h.recorded, or_iff_left hy]
  · rw [hvisited]
    refine (h.reached.extends hext).recorded hrec fun _ => ?_
    rw [← hs.itemSet_closedSuccessor]
    exact hp.lookaheads

/-- A draft of the visited state is placed, and recorded. -/
theorem Visiting.record {rest : List Symbol} (h : Visiting u s done c) (hs : State.Built u s)
    (hl : s.nextSymbols.toList = done ++ x :: rest) (hnew : x ∉ done) :
    Yields u.Crowded (c.record u c.visited (x, s.successorDraft x)) fun d =>
      d.visited = c.visited ∧ Visiting u s (done ++ [x]) d := by
  have hnext (y : Symbol) : (s.closedSuccessor u x).successor? y = none :=
    State.successor?_eq_none (State.next_closedSuccessor hs.proper)
  have hcarried : ∀ i, i ∉ ({c.visited} : Set StateId) → Carried u c i := fun i hi => h.carried i hi
  have hx : x ∈ s.nextSymbols := State.mem_nextSymbols_of_split hl
  refine (h.inv.placeClosed_yields (hs.closedSuccessor hx) hnext hcarried).bind fun p hp => ?_
  have hv : c.visited < p.1.size := h.lt.trans_le hp.extended.size
  have hx' : x ∈ (p.1.get c.visited).nextSymbols := by
    rw [h.inv.nextSymbols_extends hp.inv hp.extended h.lt, h.nextSymbols_eq hs]
    exact hx
  simp only [state_eq hv]
  exact .ok (h.recorded_placed hs hl hnew hp (recorded_assign hx'))

/-! ## A visit -/

theorem AtRest.visiting (h : AtRest u c) (hlt : c.visited < c.size) :
    Visiting u (c.get c.visited) [] c where
  inv := h.inv
  connected := h.connected
  lt := hlt
  linked := h.linked
  unlinked i x hi := h.unlinked i x (Nat.le_of_lt hi)
  carried i _ := h.carried i
  stands := ⟨rfl, fun _ => rfl⟩
  lookaheads := subset_rfl
  recorded x := by
    rw [h.unlinked c.visited x (Nat.le_refl _)]
    simp
  reached := h.carried c.visited

/-- When all successors are recorded and the lookaheads of the state have been carried, the visit is
over. -/
theorem Visiting.atRest (h : Visiting u s done c) (hs : State.Built u s)
    (hdone : ∀ x ∈ s.nextSymbols, x ∈ done) (hext : c.Extends u d) (hsize : d.size = c.size)
    (hinv : Inv u d) (hcarried : ∀ i, Carried u d i) :
    AtRest u { d with visited := c.visited + 1 } where
  inv := ⟨hinv.size_le, hinv.built, hinv.number, hinv.index, hinv.distinct, hinv.leads⟩
  connected := by
    have hd := h.connected.extends h.inv hinv hext hsize
    exact ⟨hd.size_pos, hd.start_le, hd.start_cores, hd.start_eq, hd.numbered⟩
  visited_le := hsize ▸ h.lt
  linked := by
    intro i hi
    rcases Nat.lt_succ_iff_lt_or_eq.mp hi with hi | rfl
    · have hlinked : Linked d i := (h.linked i hi).extends (hi.trans h.lt) h.inv hinv hext
      exact hlinked
    · intro x hx
      change x ∈ (d.get c.visited).nextSymbols at hx
      rw [h.inv.nextSymbols_extends hinv hext h.lt, h.nextSymbols_eq hs] at hx
      change ((d.get c.visited).successor? x).isSome = true
      rw [hext.successor, h.recorded]
      exact hdone x hx
  unlinked i x hi := (hext.successor i x).trans (h.unlinked i x hi)
  carried := hcarried

/-- If the state has gained no lookaheads, its recorded successors were formed from all it has. -/
theorem Visiting.carried_of_count_eq (h : Visiting u s done c) (hs : State.Built u s)
    (hcount : (c.get c.visited).lookaheadCount = s.lookaheadCount) (i : StateId) :
    Carried u c i := by
  by_cases hi : i = c.visited
  · have hla := State.lookaheads_eq_of_count_le hs.proper.nodup h.lookaheads hcount.le
    rw [hi, Carried, ItemSet.ext (State.itemSet_cores_eq h.stands.1) hla]
    exact h.reached
  · exact h.carried i hi

/-- Only where lookaheads are united can the state have gained any. -/
theorem Visiting.lalr1_of_count_ne (h : Visiting u s done c) (hs : State.Built u s)
    (hcount : (c.get c.visited).lookaheadCount ≠ s.lookaheadCount) :
    u.config.method = .lalr1 := by
  by_contra hm
  have hset := h.stands.2 hm
  have h1 := State.lookaheadCount_le (h.inv.built _ h.lt).proper.nodup (t := s) (by rw [hset])
  have h2 := State.lookaheadCount_le hs.proper.nodup h.lookaheads
  omega

/-- Lookaheads that the state has gained on the way are carried at the end. -/
theorem Visiting.carry_rest (h : Visiting u s done c) (hs : State.Built u s) :
    Yields u.Crowded (if (c.get c.visited).lookaheadCount = s.lookaheadCount then .ok c
      else c.propagate u c.visited) fun d =>
        Inv u d ∧ c.Extends u d ∧ d.size = c.size ∧ ∀ i, Carried u d i := by
  by_cases hcount : (c.get c.visited).lookaheadCount = s.lookaheadCount
  · rw [if_pos hcount]
    exact .ok ⟨h.inv, .refl c, rfl, h.carried_of_count_eq hs hcount⟩
  · rw [if_neg hcount]
    have hcarried : ∀ i, i ≠ c.visited → i ∉ (∅ : Set StateId) → Carried u c i :=
      fun i hi _ => h.carried i hi
    exact (propagate_yields (h.lalr1_of_count_ne hs hcount) h.inv h.lt hcarried).mono fun d hd =>
      ⟨hd.1, hd.2.1, hd.2.2.1, fun i => hd.2.2.2 i (Set.notMem_empty i)⟩

/-- All successors of the next state are recorded. -/
theorem AtRest.record_yields (h : AtRest u c) (hlt : c.visited < c.size) :
    Yields u.Crowded ((c.get c.visited).successors.foldlM (record u c.visited) c) fun d =>
      d.visited = c.visited ∧
        Visiting u (c.get c.visited) (c.get c.visited).nextSymbols.toList d := by
  refine State.foldlM_successors_yields _ (fun done d => d.visited = c.visited ∧
    Visiting u (c.get c.visited) done d) (fun done x rest d hl hnew hd => ?_) ⟨rfl, h.visiting hlt⟩
  have hrecord := hd.2.record (h.inv.built _ hlt) hl hnew
  rw [hd.1] at hrecord
  exact hrecord

theorem AtRest.visit_yields (h : AtRest u c) (hlt : c.visited < c.size) :
    Yields u.Crowded (c.visit u) fun d => AtRest u d ∧ d.visited = c.visited + 1 := by
  have hs := h.inv.built _ hlt
  simp only [visit, state_eq hlt]
  refine (h.record_yields hlt).bind fun d hd => ?_
  obtain ⟨hvisited, hd⟩ := hd
  have hlt' : c.visited < d.size := hvisited ▸ hd.lt
  simp only [state_eq hlt']
  have hrest := hd.carry_rest hs
  rw [hvisited] at hrest
  have hend (e : Collection) (he : Inv u e ∧ d.Extends u e ∧ e.size = d.size ∧
      ∀ i, Carried u e i) : AtRest u { e with visited := c.visited + 1 } := by
    have hatRest := hd.atRest hs (fun x hx => hx) he.2.1 he.2.2.1 he.1 he.2.2.2
    rw [hvisited] at hatRest
    exact hatRest
  simp only [bind, Except.bind]
  by_cases hcount : (d.get c.visited).lookaheadCount = (c.get c.visited).lookaheadCount
  · rw [if_pos hcount] at hrest ⊢
    exact .ok ⟨hend d hrest, rfl⟩
  · rw [if_neg hcount] at hrest ⊢
    exact hrest.bind fun e he => .ok ⟨hend e he, rfl⟩

/-! ## The whole construction -/

theorem inv_empty : Inv u empty := by
  have hno {i : StateId} (hi : i < empty.size) : False := Nat.not_lt_zero i hi
  refine ⟨Nat.zero_le _, fun i hi => (hno hi).elim, fun i hi => (hno hi).elim, fun cs i => ?_,
    fun i j hi => (hno hi).elim, fun i x j hj => (hno (lt_of_successor? hj)).elim⟩
  have hindex : empty.index.candidates cs = [] := CoreIndex.candidates_empty cs
  rw [hindex]
  exact ⟨fun h => absurd h List.not_mem_nil, fun h => (hno h.1).elim⟩

/-- A collection of the start state only is at rest. -/
theorem Placed.atRest (hs : u.start u.config.method = .ok s)
    (hp : Placed u ∅ empty (s.close u) c id) : AtRest u c ∧ c.visited = 0 := by
  obtain ⟨rfl, hsize⟩ : id = 0 ∧ c.size = 1 := by
    rcases hp.size with hsize | hsize
    · exact absurd hp.lt (hsize ▸ Nat.not_lt_zero _)
    · exact hsize
  have hset := State.itemSet_close_start hs
  have hvisited : c.visited = 0 := hp.extended.visited
  have hcores : (c.get 0).itemSet.cores = (u.along []).cores := by
    rw [← hset]
    exact State.itemSet_cores_eq hp.stands.1
  have hconnected : Connected u c := by
    refine ⟨hsize ▸ Nat.one_pos, ⟨hcores.superset, ?_⟩, hcores, fun hm => ?_, fun j hj hlt => ?_⟩
    · rw [← hset]
      exact hp.lookaheads
    · rw [← hset]
      exact hp.stands.2 hm
    · rw [hsize] at hlt
      exact absurd (Nat.le_of_lt_succ hlt) (Nat.not_le.mpr hj)
  refine ⟨⟨hp.inv, hconnected, ?_, fun i hi => ?_, fun i x _ => ?_, fun i =>
    hp.carried i (Set.notMem_empty i)⟩, hvisited⟩
  · rw [hvisited]
    exact Nat.zero_le _
  · rw [hvisited] at hi
    exact absurd hi (Nat.not_lt_zero i)
  · rw [hp.extended.successor]
    rfl

theorem initial_yields (hs : u.start u.config.method = .ok s) :
    Yields u.Crowded (initial u s) fun c => AtRest u c ∧ c.visited = 0 := by
  have hnext (x : Symbol) : (s.close u).successor? x = none :=
    State.successor?_eq_none (State.next_close_start hs)
  have hcarried : ∀ i, i ∉ (∅ : Set StateId) → Carried u empty i := fun i _ =>
    carried_of_size_le (Nat.zero_le i)
  have hplace : Yields u.Crowded (empty.place u s) fun p => Placed u ∅ empty (s.close u) p.1 p.2 :=
    inv_empty.placeClosed_yields (State.built_start hs) hnext hcarried
  have hmap : initial u s = (empty.place u s >>= fun p => .ok p.1) := by
    unfold initial
    cases empty.place u s <;> rfl
  rw [hmap]
  exact hplace.bind fun p hp => .ok (hp.atRest hs)

theorem AtRest.visitAll_yields {bound : Nat} (h : AtRest u c)
    (hbound : stateLimit ≤ c.visited + bound) :
    Yields u.Crowded (visitAll u bound c) fun d => AtRest u d ∧ d.size ≤ d.visited := by
  induction bound generalizing c with
  | zero =>
    have hle := h.inv.size_le
    have hnot : ¬c.visited < c.states.size := fun hlt => by
      change c.visited < c.size at hlt
      omega
    rw [visitAll, if_neg hnot]
    exact .ok ⟨h, Nat.le_of_not_lt hnot⟩
  | succ bound ih =>
    unfold visitAll
    split
    · rename_i hlt
      refine (h.visit_yields hlt).bind fun d hd => ih hd.1 ?_
      rw [hd.2]
      omega
    · rename_i hnot
      exact .ok ⟨h, Nat.le_of_not_lt hnot⟩

theorem construct_yields (hs : u.start u.config.method = .ok s) :
    Yields u.Crowded (construct u s) fun c => AtRest u c ∧ c.size ≤ c.visited := by
  have hinitial := initial_yields hs
  unfold construct
  cases hc : initial u s with
  | error f =>
    rw [hc] at hinitial
    exact hinitial
  | ok c =>
    rw [hc] at hinitial
    exact hinitial.1.visitAll_yields (by omega)

/-- With a start rule the construction succeeds, unless there are too many states. -/
theorem build_cases {r : Rule} (h : u.grammar.startRule = .ok r) :
    build u = .error (.fault .tooManyStates) ∧ u.Crowded ∨ ∃ c, build u = .ok c := by
  have hs : u.start u.config.method =
      .ok (State.start u.config.method r u.config.endOfInput) := by
    simp only [Setup.start, h, bind, Except.bind]
  have hyields := construct_yields hs
  cases hc : construct u (State.start u.config.method r u.config.endOfInput) with
  | error f =>
    rw [hc] at hyields
    obtain ⟨rfl, hcrowded⟩ := hyields
    exact .inl ⟨by simp only [build, hs, hc], hcrowded⟩
  | ok c => exact .inr ⟨c, by simp only [build, hs, hc]⟩

/-- Whatever is reached is at rest. -/
theorem Reached.atRest (h : Reached u c) : AtRest u c := by
  induction h with
  | initial hs hc => exact ((initial_yields hs).of_eq_ok hc).1
  | visit _ hlt hd ih => exact ((ih.visit_yields hlt).of_eq_ok hd).1

end ShiftReduce.Collection
