import ShiftReduce.Collection.Stages
import ShiftReduce.Proofs.Visits

/-!
# What a step of the construction can do

`Sound` is what holds of every stage. A step from a sound stage leads to one that is nearer to the
end, unless the construction is over or no number is left for a new state; it keeps the states with
their cores, and only in LALR(1) does it let lookaheads grow.
-/

namespace ShiftReduce

/-! ## What steps keep -/

/-- The lookaheads of the items in their order. -/
def State.lookaheads (s : State) : List (OrderedSet Symbol) := s.items.map Item.lookaheads

theorem State.lookaheadCount_assign (s : State) (x : Symbol) (target : StateId) :
    (s.assign x target).lookaheadCount = s.lookaheadCount := by
  rw [← length_pairs, pairs_assign, length_pairs]

/-- A state has no more items than there are cores. -/
theorem State.Built.length_items_le {u : Setup} {s : State} (h : Built u s) :
    s.items.length ≤ u.coreCount := by
  have hle := (h.proper.nodup.subperm h.cores_subset).length_le
  rwa [u.length_cores, cores, List.length_map] at hle

theorem State.Built.length_nextSymbols_le {u : Setup} {s : State} (h : Built u s) :
    s.nextSymbols.toList.length ≤ u.coreCount := by
  have hsize : s.nextSymbols.size ≤ (s.items.filterMap Item.nextSymbol?).length :=
    OrderedSet.size_le_length fun x hx => OrderedSet.mem_ofList.mp hx
  exact hsize.trans ((List.length_filterMap_le _ _).trans h.length_items_le)

/-- A symbol whose turn has not come has not been dealt with. -/
theorem State.not_mem_of_split {s : State} {done rest : List Symbol} {x : Symbol}
    (h : s.nextSymbols.toList = done ++ x :: rest) : x ∉ done := by
  have hnodup : s.nextSymbols.toList.Nodup := s.nextSymbols.nodup
  rw [h] at hnodup
  exact fun hx => (List.nodup_append.mp hnodup).2.2 x hx x List.mem_cons_self rfl

/-- Only LALR(1) merges lookaheads and propagates them, and no successor ever fails to match. -/
def Event.Expected (m : Method) : Event → Prop
  | .added _ => True
  | .unmatched _ _ => False
  | _ => m = .lalr1

namespace Collection

theorem append_eq_ok {c d : Collection} {s : State} {i : StateId} (h : c.append s = .ok (d, i)) :
    d = note ⟨c.states.push { s with number := some c.size }, c.index.add s.cores c.size, c.visited,
      c.events⟩ (.added c.size) := by
  by_cases hlt : c.states.size < stateLimit
  · simp only [append, if_pos hlt, Except.ok.injEq, Prod.mk.injEq] at h
    exact h.1.symm
  · simp only [append, if_neg hlt] at h
    cases h

/-- States stay, with their cores, and lose no lookaheads. Except in LALR(1) they gain none. -/
structure Keeps (u : Setup) (c d : Collection) : Prop where
  size : c.size ≤ d.size
  cores : ∀ i, i < c.size → (d.get i).cores = (c.get i).cores
  grown : ∀ i, (c.get i).itemSet.lookaheads ⊆ (d.get i).itemSet.lookaheads
  lookaheads : u.config.method ≠ .lalr1 → ∀ i, i < c.size →
    (d.get i).lookaheads = (c.get i).lookaheads
  events : ∃ new, d.events = new ++ c.events ∧ ∀ e ∈ new, e.Expected u.config.method

namespace Keeps

variable {u : Setup} {c d e : Collection} {i j : StateId} {s : State} {x : Symbol}

theorem refl (c : Collection) : c.Keeps u c :=
  ⟨Nat.le_refl _, fun _ _ => rfl, fun _ => subset_rfl, fun _ _ _ => rfl, [], rfl,
    fun _ he => absurd he List.not_mem_nil⟩

theorem trans (h1 : c.Keeps u d) (h2 : d.Keeps u e) : c.Keeps u e where
  size := h1.size.trans h2.size
  cores i hi := (h2.cores i (hi.trans_le h1.size)).trans (h1.cores i hi)
  grown i := (h1.grown i).trans (h2.grown i)
  lookaheads hm i hi := (h2.lookaheads hm i (hi.trans_le h1.size)).trans (h1.lookaheads hm i hi)
  events := by
    obtain ⟨new, hnew, hall⟩ := h1.events
    obtain ⟨new', hnew', hall'⟩ := h2.events
    refine ⟨new' ++ new, by rw [hnew', hnew, List.append_assoc], fun e he => ?_⟩
    exact (List.mem_append.mp he).elim (hall' e) (hall e)

/-- Where lookaheads are united they may grow. -/
theorem of_extends (hm : u.config.method = .lalr1) (h : c.Extends u d)
    (hevents : ∃ new, d.events = new ++ c.events ∧ ∀ e ∈ new, e.Expected u.config.method) :
    c.Keeps u d :=
  ⟨h.size, h.cores, h.lookaheads, fun hne => absurd hm hne, hevents⟩

theorem note {e : Event} (he : e.Expected u.config.method) : c.Keeps u (c.note e) :=
  ⟨Nat.le_refl _, fun _ _ => rfl, fun _ => subset_rfl, fun _ _ _ => rfl, [e], rfl, by simpa using he⟩

theorem visited (n : Nat) : c.Keeps u { c with visited := n } :=
  ⟨Nat.le_refl _, fun _ _ => rfl, fun _ => subset_rfl, fun _ _ _ => rfl, [], rfl,
    fun _ he => absurd he List.not_mem_nil⟩

theorem assign (hx : x ∈ (c.get i).nextSymbols) :
    c.Keeps u (c.setState i ((c.get i).assign x j)) := by
  have hrec := recorded_assign (j := j) hx
  refine ⟨hrec.size.ge, fun k _ => hrec.cores k, fun k => by rw [hrec.itemSet],
    fun _ k _ => ?_, [], rfl, fun _ he => absurd he List.not_mem_nil⟩
  rw [hrec.state]
  split
  · exact State.map_assign (f := Item.lookaheads) fun _ _ => rfl
  · rfl

theorem append (h : c.append s = .ok (d, i)) (hd : c.Appended s d)
    (hnext : ∀ x, s.successor? x = none) : c.Keeps u d := by
  have hext : c.Extends u d := hd.extends hnext
  refine ⟨hext.size, hext.cores, hext.lookaheads, fun _ i hi => by rw [hd.get_eq hi],
    [.added c.size], ?_, by simp [Event.Expected]⟩
  rw [append_eq_ok h]
  rfl

end Keeps

theorem total_append {c d : Collection} {s : State} {i : StateId} (h : c.append s = .ok (d, i)) :
    d.total = c.total + s.lookaheadCount := by
  rw [append_eq_ok h]
  simp [total, note, State.lookaheadCount]

theorem total_assign {c : Collection} {i j : StateId} {x : Symbol}
    (hx : x ∈ (c.get i).nextSymbols) :
    (c.setState i ((c.get i).assign x j)).total = c.total := by
  have hsum := total_setState (s := (c.get i).assign x j) (lt_of_mem_nextSymbols hx)
  rw [State.lookaheadCount_assign] at hsum
  omega

/-! ## Sound stages -/

namespace Stage

/-- The drafts behind some symbols. -/
def draftsOf (s : State) (symbols : List Symbol) : List (Symbol × State) :=
  symbols.map fun x => (x, s.successorDraft x)

/-- What holds of every stage. While lookaheads are propagated it refers to the collection `b` from
which the draft was placed, or with which the placing of drafts was over. -/
inductive Sound (u : Setup) : Stage → Prop where
  | visit {c : Collection} (h : AtRest u c) : Sound u ⟨c, .visit⟩
  | place {c : Collection} {s : State} {done rest : List Symbol} (hs : State.Built u s)
      (hsplit : s.nextSymbols.toList = done ++ rest) (h : Visiting u s done c) {id : StateId}
      (hid : id = c.visited) {drafts : List (Symbol × State)} (hdrafts : drafts = draftsOf s rest) :
      Sound u ⟨c, .place id s drafts⟩
  | record {b c : Collection} {s : State} {x : Symbol} {done rest : List Symbol}
      {target : StateId} {w : Worklist StateId} (hm : u.config.method = .lalr1)
      (hs : State.Built u s) (hsplit : s.nextSymbols.toList = done ++ x :: rest)
      (h : Visiting u s done b) (hlt : target < b.size)
      (halike : (b.get target).Alike (s.closedSuccessor u x))
      (hw : Working u {b.visited} c w)
      (hext : (b.setState target ((b.get target).absorb (s.closedSuccessor u x))).Extends u c)
      (hsize : c.size = b.size) {drafts : List (Symbol × State)} (hdrafts : drafts = draftsOf s rest) :
      Sound u ⟨c, .propagate w (.record b.visited s x target drafts)⟩
  | finish {b c : Collection} {s : State} {w : Worklist StateId} (hm : u.config.method = .lalr1)
      (hs : State.Built u s) (h : Visiting u s s.nextSymbols.toList b) (hw : Working u ∅ c w)
      (hext : b.Extends u c) (hsize : c.size = b.size) :
      Sound u ⟨c, .propagate w (.finish b.visited)⟩

/-- How far the visits have come. Each of them counts as much as its steps can be, and a lookahead
makes up for a state that it lets be queued. -/
def progress (u : Setup) (c : Collection) : Int :=
  c.visited * (2 * u.coreCount + 4 : Nat) + c.total

theorem progress_of_visited_eq {u : Setup} {c d : Collection} (h : d.visited = c.visited) :
    progress u d = progress u c + d.total - c.total := by
  rw [progress, progress, h]
  omega

theorem progress_visited_succ (u : Setup) (c : Collection) :
    progress u { c with visited := c.visited + 1 } = progress u c + (2 * u.coreCount + 4) := by
  change ((c.visited + 1 : Nat) : Int) * (2 * u.coreCount + 4 : Nat) + c.total = _
  rw [progress, Int.natCast_succ, Int.add_mul]
  omega

/-- How far the construction has come. Each draft counts twice. -/
def measure (u : Setup) (a : Stage) : Int :=
  match a.task with
  | .visit => progress u a.collection
  | .place _ _ drafts => progress u a.collection + 1 + 2 * (u.coreCount - drafts.length)
  | .propagate w (.record _ _ _ _ rest) =>
    progress u a.collection + 2 * (u.coreCount - rest.length) - w.queue.length
  | .propagate w (.finish _) => progress u a.collection + 3 + 2 * u.coreCount - w.queue.length

/-- What a step makes of a stage. -/
structure Advances (u : Setup) (a b : Stage) : Prop where
  sound : Sound u b
  rises : a.measure u + 1 ≤ b.measure u
  keeps : a.collection.Keeps u b.collection

/-- What a step can do: there is none when all states have been visited, it fails if no number is
left for a new state, and otherwise it goes on. -/
inductive Outcome (u : Setup) (a : Stage) : Prop where
  | finished (h : a.step u = .ok none) (hrest : AtRest u a.collection)
      (hall : a.collection.size ≤ a.collection.visited)
  | full (h : a.step u = .error .tooManyStates) (hsize : a.collection.size = stateLimit)
      (hcrowded : u.Crowded)
  | next (b : Stage) (h : a.step u = .ok (some b)) (hb : Advances u a b)

variable {u : Setup} {b c d : Collection} {s : State} {x : Symbol} {done rest : List Symbol}
  {id target : StateId} {w : Worklist StateId}

/-! ### The steps of a visit -/

/-- A draft that has found its place is recorded. -/
theorem record_placed (h : Visiting u s done b) (hs : State.Built u s)
    (hsplit : s.nextSymbols.toList = done ++ x :: rest)
    (hp : Placed u {b.visited} b (s.closedSuccessor u x) c target) :
    ∃ d, record c b.visited s x target (draftsOf s rest) =
        .ok ⟨d, .place b.visited s (draftsOf s rest)⟩ ∧
      Sound u ⟨d, .place b.visited s (draftsOf s rest)⟩ ∧ c.Keeps u d ∧
      d.visited = b.visited ∧ d.total = c.total := by
  have hv : b.visited < c.size := h.lt.trans_le hp.extended.size
  have hx : x ∈ (c.get b.visited).nextSymbols := by
    rw [h.inv.nextSymbols_extends hp.inv hp.extended h.lt, h.nextSymbols_eq hs]
    exact State.mem_nextSymbols_of_split hsplit
  obtain ⟨hvisited, hd⟩ := h.recorded_placed hs hsplit (State.not_mem_of_split hsplit) hp
    (recorded_assign hx)
  refine ⟨_, by simp only [record, state_eq hv, bind, Except.bind], ?_, .assign hx, hvisited,
    total_assign hx⟩
  exact .place hs (by rw [hsplit, List.append_assoc, List.singleton_append]) hd hvisited.symm rfl

theorem step_visit (h : AtRest u c) : Outcome u ⟨c, .visit⟩ := by
  by_cases hlt : c.visited < c.size
  · have hs := h.inv.built _ hlt
    refine .next ⟨c, .place c.visited (c.get c.visited) (c.get c.visited).successors⟩ ?_
      ⟨?_, ?_, .refl c⟩
    · simp only [step, if_pos (show c.visited < c.states.size from hlt), state_eq hlt, bind,
        Except.bind]
    · exact .place hs rfl (h.visiting hlt) rfl (State.successors_eq _)
    · have hle := hs.length_nextSymbols_le
      simp only [measure, State.successors_eq, List.length_map]
      omega
  · refine .finished ?_ h (Nat.le_of_not_lt hlt)
    simp only [step, if_neg (show ¬c.visited < c.states.size from hlt)]

theorem step_place : step u ⟨c, .place id s (draftsOf s (x :: rest))⟩ = (do
    Except.ok (some (← place c id s x (draftsOf s rest) (s.closedSuccessor u x)))) := rfl

/-- A draft that matches no state joins. -/
theorem step_append (h : Visiting u s done c) (hs : State.Built u s)
    (hsplit : s.nextSymbols.toList = done ++ x :: rest)
    (hmatch : c.match? (s.closedSuccessor u x) = .ok none)
    (hnew : ∀ i, i < c.size → ¬(c.get i).Alike (s.closedSuccessor u x)) :
    Outcome u ⟨c, .place c.visited s (draftsOf s (x :: rest))⟩ := by
  have hbuilt := hs.closedSuccessor (State.mem_nextSymbols_of_split hsplit)
  have hnext (y : Symbol) : (s.closedSuccessor u x).successor? y = none :=
    State.successor?_eq_none (State.next_closedSuccessor hs.proper)
  have hplaced := h.inv.append_placed hbuilt hnext
    (fun i (hi : i ∉ ({c.visited} : Set StateId)) => h.carried i hi) hnew
  have hyields := append_yields (h.inv.crowded hbuilt hnew) (s.closedSuccessor u x)
  cases happend : c.append (s.closedSuccessor u x) with
  | error f =>
    rw [happend] at hyields
    obtain ⟨rfl, hcrowded⟩ := hyields
    refine .full ?_ (Nat.le_antisymm h.inv.size_le ?_) hcrowded
    · simp only [step_place, place, hmatch, happend, bind, Except.bind]
    · by_contra hlt
      simp only [append, if_pos (show c.states.size < stateLimit from Nat.lt_of_not_le hlt)] at happend
      cases happend
  | ok p =>
    obtain ⟨d, target⟩ := p
    have hd := (hyields.of_eq_ok happend).2.2
    obtain ⟨e, hrecord, hsound, hkeeps, hvisited, htotal⟩ :=
      record_placed h hs hsplit (hplaced.of_eq_ok happend)
    refine .next _ ?_ ⟨hsound, ?_, (Keeps.append happend hd hnext).trans hkeeps⟩
    · simp only [step_place, place, hmatch, happend, hrecord, bind, Except.bind]
    · have hsum := total_append happend
      have hprogress := progress_of_visited_eq (u := u) hvisited
      change e.total = d.total at htotal
      simp only [measure, draftsOf, List.length_map, List.length_cons]
      omega

/-- A draft that matches a state and brings no lookaheads leaves it as it is. -/
theorem step_same (h : Visiting u s done c) (hs : State.Built u s)
    (hsplit : s.nextSymbols.toList = done ++ x :: rest)
    (hmatch : c.match? (s.closedSuccessor u x) = .ok (some target)) (hlt : target < c.size)
    (halike : (c.get target).Alike (s.closedSuccessor u x))
    (hmerge : (c.get target).merge (s.closedSuccessor u x) = .ok (c.get target, false))
    (hself : (c.get target).absorb (s.closedSuccessor u x) = c.get target) :
    Outcome u ⟨c, .place c.visited s (draftsOf s (x :: rest))⟩ := by
  have hbuilt := hs.closedSuccessor (State.mem_nextSymbols_of_split hsplit)
  have hset : c.setState target ((c.get target).absorb (s.closedSuccessor u x)) = c := by
    rw [hself, setState_get hlt]
  have hplaced : Placed u {c.visited} c (s.closedSuccessor u x) c target :=
    h.inv.absorb_placed hlt hbuilt halike (by rw [hset]; exact .refl c) h.inv rfl
      fun i hi => h.carried i hi
  obtain ⟨e, hrecord, hsound, hkeeps, hvisited, htotal⟩ := record_placed h hs hsplit hplaced
  refine .next _ ?_ ⟨hsound, ?_, hkeeps⟩
  · simp only [step_place, place, hmatch, state_eq hlt, hmerge, setState_get hlt, hrecord, bind,
      Except.bind, Bool.false_eq_true, if_false]
  · have hprogress := progress_of_visited_eq (u := u) hvisited
    simp only [measure, draftsOf, List.length_map, List.length_cons]
    omega

/-- A draft that brings lookaheads to the state that it matches makes them be propagated. -/
theorem step_merge (h : Visiting u s done c) (hs : State.Built u s)
    (hsplit : s.nextSymbols.toList = done ++ x :: rest)
    (hmatch : c.match? (s.closedSuccessor u x) = .ok (some target)) (hlt : target < c.size)
    (halike : (c.get target).Alike (s.closedSuccessor u x))
    (hmerge : (c.get target).merge (s.closedSuccessor u x) =
      .ok ((c.get target).absorb (s.closedSuccessor u x), true))
    (hm : u.config.method = .lalr1)
    (htotal : c.total + 1 ≤
      (c.setState target ((c.get target).absorb (s.closedSuccessor u x))).total) :
    Outcome u ⟨c, .place c.visited s (draftsOf s (x :: rest))⟩ := by
  have hbuilt := hs.closedSuccessor (State.mem_nextSymbols_of_split hsplit)
  have hext := extends_absorb (u := u) hlt halike.1 fun hne => absurd hm hne
  have hinv := h.inv.absorb hlt hbuilt halike.1 fun hne => absurd hm hne
  generalize hd : c.setState target ((c.get target).absorb (s.closedSuccessor u x)) = d
    at htotal hext hinv
  have hsize : d.size = c.size := by
    rw [← hd]
    exact size_setState
  have hcarried : ∀ i, i ≠ target → i ∉ ({c.visited} : Set StateId) →
      Carried u (d.note (.merged target)) i := by
    intro i hi he
    refine (h.carried i he).extends (hext.trans (.note d _)) ?_
    rw [get_note, ← hd, get_setState_of_ne hi]
  have hwork := Working.begin (hinv.note (.merged target)) (hsize ▸ hlt : target < d.size) hcarried
  refine .next (propagate (d.note (.merged target)) target
    (.record c.visited s x target (draftsOf s rest))) ?_ ⟨?_, ?_, ?_⟩
  · simp only [step_place, place, hmatch, state_eq hlt, hmerge, hd, bind, Except.bind, if_true]
  · refine .record hm hs hsplit h hlt halike hwork ?_ hsize rfl
    rw [hd]
    exact (Extends.note d _).trans (.note _ _)
  · have hprogress := progress_of_visited_eq (u := u) hext.visited
    have hlen := Worklist.inStep_empty.length_push target
    have hzero : (Worklist.empty : Worklist StateId).queue.length = 0 := rfl
    have hnoted : progress u ((d.note (.merged target)).note (.propagated target)) =
        progress u d := rfl
    simp only [measure, propagate, draftsOf, List.length_map, List.length_cons, hnoted]
    omega
  · have hkeeps : c.Keeps u d := .of_extends hm hext
      ⟨[], by rw [← hd]; rfl, fun _ he => absurd he List.not_mem_nil⟩
    exact (hkeeps.trans (.note (e := .merged target) hm)).trans (.note (e := .propagated target) hm)

/-- The next draft is placed. -/
theorem step_draft (h : Visiting u s done c) (hs : State.Built u s)
    (hsplit : s.nextSymbols.toList = done ++ x :: rest) :
    Outcome u ⟨c, .place c.visited s (draftsOf s (x :: rest))⟩ := by
  have hbuilt := hs.closedSuccessor (State.mem_nextSymbols_of_split hsplit)
  obtain ⟨r, hr, hsome, hnone⟩ := (h.inv.match?_yields hbuilt).exists_ok
  cases r with
  | none => exact step_append h hs hsplit hr (hnone rfl)
  | some target =>
    obtain ⟨hlt, halike⟩ := hsome target rfl
    have hmergeable := (State.mergeable_iff (h.inv.built target hlt).proper.nodup
      ((h.inv.method hlt).trans hbuilt.method.symm)).mpr halike
    have hmerge : (c.get target).merge (s.closedSuccessor u x) =
        .ok ((c.get target).absorb (s.closedSuccessor u x), decide ((c.get target).lookaheadCount <
          ((c.get target).absorb (s.closedSuccessor u x)).lookaheadCount)) := by
      rw [State.merge, if_pos hmergeable]
    rcases h.inv.absorb_cases hlt halike.1 with ⟨hgrew, htotal, -⟩ | ⟨hgrew, hself⟩
    · rw [decide_eq_true hgrew] at hmerge
      exact step_merge h hs hsplit hr hlt halike hmerge (h.inv.lalr1_of_grew hlt hbuilt halike hgrew)
        htotal
    · rw [decide_eq_false hgrew, hself] at hmerge
      exact step_same h hs hsplit hr hlt halike hmerge hself

/-- When all drafts have been placed, the visit is over, or what the state has gained on the way is
propagated first. -/
theorem step_placed (h : Visiting u s s.nextSymbols.toList c) (hs : State.Built u s) :
    Outcome u ⟨c, .place c.visited s []⟩ := by
  by_cases hcount : (c.get c.visited).lookaheadCount = s.lookaheadCount
  · refine .next (finish c c.visited) ?_ ⟨?_, ?_, .visited _⟩
    · simp only [step, state_eq h.lt, bind, Except.bind, if_pos hcount]
    · exact .visit (h.atRest hs (fun _ hx => hx) (.refl c) rfl h.inv
        (h.carried_of_count_eq hs hcount))
    · simp only [measure, finish, progress_visited_succ, List.length_nil]
      omega
  · have hm := h.lalr1_of_count_ne hs hcount
    have hwork : Working u ∅ (c.note (.propagated c.visited)) (Worklist.empty.push c.visited).1 :=
      .begin h.inv h.lt fun i hi _ => h.carried i hi
    refine .next (propagate c c.visited (.finish c.visited)) ?_ ⟨?_, ?_, ?_⟩
    · simp only [step, state_eq h.lt, bind, Except.bind, if_neg hcount]
    · exact .finish hm hs h hwork (.note c _) rfl
    · have hlen := Worklist.inStep_empty.length_push c.visited
      have hzero : (Worklist.empty : Worklist StateId).queue.length = 0 := rfl
      have hnoted : progress u (c.note (.propagated c.visited)) = progress u c := rfl
      simp only [measure, propagate, List.length_nil, hnoted]
      omega
    · exact .note (e := .propagated c.visited) hm

/-! ### The steps of propagation -/

/-- While a state is queued, the lookaheads of the first one are carried, whatever comes next. -/
theorem exists_turn {exempt : Set StateId} {source : StateId} {v : Worklist StateId} (k : Resume)
    (hm : u.config.method = .lalr1) (hw : Working u exempt c w) (hpop : w.pop? = some (source, v)) :
    ∃ d v', step u ⟨c, .propagate w k⟩ = .ok (some ⟨d, .propagate v' k⟩) ∧ Working u exempt d v' ∧
      c.Extends u d ∧ d.size = c.size ∧ c.Keeps u d ∧ Turned source c v d v' ∧
      progress u c - w.queue.length + 1 ≤ progress u d - v'.queue.length := by
  obtain ⟨hwork, hsource, hq⟩ := hw.pop hpop
  obtain ⟨d, v', hall, hwork', hext, hsize, hweight, hturned⟩ := exists_carryAll hm hsource hwork
  obtain ⟨new, hnew, hcarried⟩ := hturned.events
  have hexpected : ∀ e ∈ new, e.Expected u.config.method := by
    intro e he
    obtain ⟨j, rfl⟩ := hcarried e he
    exact hm
  refine ⟨d, v', ?_, hwork', hext, hsize, .of_extends hm hext ⟨new, hnew, hexpected⟩, hturned, ?_⟩
  · simp only [step, hpop, hall, bind, Except.bind]
  · have hprogress := progress_of_visited_eq (u := u) hext.visited
    rw [hq, List.length_cons]
    omega

/-- When all lookaheads have been carried, the draft that was merged is recorded. -/
theorem step_record (hm : u.config.method = .lalr1) (hs : State.Built u s)
    (hsplit : s.nextSymbols.toList = done ++ x :: rest) (h : Visiting u s done b)
    (hlt : target < b.size) (halike : (b.get target).Alike (s.closedSuccessor u x))
    (hw : Working u {b.visited} c w)
    (hext : (b.setState target ((b.get target).absorb (s.closedSuccessor u x))).Extends u c)
    (hsize : c.size = b.size) :
    Outcome u ⟨c, .propagate w (.record b.visited s x target (draftsOf s rest))⟩ := by
  cases hpop : w.pop? with
  | none =>
    have hbuilt := hs.closedSuccessor (State.mem_nextSymbols_of_split hsplit)
    have hplaced : Placed u {b.visited} b (s.closedSuccessor u x) c target :=
      h.inv.absorb_placed hlt hbuilt halike hext hw.inv hsize (hw.rest hpop)
    obtain ⟨e, hrecord, hsound, hkeeps, hvisited, htotal⟩ := record_placed h hs hsplit hplaced
    refine .next _ ?_ ⟨hsound, ?_, hkeeps⟩
    · simp only [step, hpop, resume, hrecord, bind, Except.bind]
    · have hprogress := progress_of_visited_eq (u := u) (hvisited.trans hext.visited.symm)
      simp only [measure, draftsOf, List.length_map]
      omega
  | some p =>
    obtain ⟨source, v⟩ := p
    obtain ⟨d, v', hstep, hwork, hext', hsize', hkeeps, -, hrises⟩ := exists_turn _ hm hw hpop
    refine .next _ hstep ⟨?_, ?_, hkeeps⟩
    · exact .record hm hs hsplit h hlt halike hwork (hext.trans hext') (hsize'.trans hsize) rfl
    · simp only [measure]
      omega

/-- When all lookaheads have been carried, the visit is over. -/
theorem step_finish (hm : u.config.method = .lalr1) (hs : State.Built u s)
    (h : Visiting u s s.nextSymbols.toList b) (hw : Working u ∅ c w) (hext : b.Extends u c)
    (hsize : c.size = b.size) : Outcome u ⟨c, .propagate w (.finish b.visited)⟩ := by
  cases hpop : w.pop? with
  | none =>
    have hrest := h.atRest hs (fun _ hx => hx) hext hsize hw.inv fun i =>
      hw.rest hpop i (Set.notMem_empty i)
    refine .next (finish c b.visited) ?_ ⟨.visit hrest, ?_, .visited _⟩
    · simp only [step, hpop, resume, bind, Except.bind]
    · have hbefore : c.visited = b.visited := hext.visited
      simp only [measure, finish, ← hbefore, progress_visited_succ]
      omega
  | some p =>
    obtain ⟨source, v⟩ := p
    obtain ⟨d, v', hstep, hwork, hext', hsize', hkeeps, -, hrises⟩ := exists_turn _ hm hw hpop
    refine .next _ hstep ⟨?_, ?_, hkeeps⟩
    · exact .finish hm hs h hwork (hext.trans hext') (hsize'.trans hsize)
    · simp only [measure]
      omega

/-- All that a step can do from a sound stage. -/
theorem Sound.outcome {a : Stage} (h : Sound u a) : Outcome u a := by
  cases h with
  | visit h => exact step_visit h
  | @place c s done rest hs hsplit h id hid drafts hdrafts =>
    subst hid hdrafts
    cases rest with
    | nil =>
      rw [List.append_nil] at hsplit
      exact step_placed (hsplit ▸ h) hs
    | cons x rest => exact step_draft h hs hsplit
  | record hm hs hsplit h hlt halike hw hext hsize hdrafts =>
    subst hdrafts
    exact step_record hm hs hsplit h hlt halike hw hext hsize
  | finish hm hs h hw hext hsize => exact step_finish hm hs h hw hext hsize

end Stage

end Collection

end ShiftReduce
