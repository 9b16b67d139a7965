import Mathlib.Data.List.ProdSigma
import Mathlib.Data.Set.BooleanAlgebra
import Mathlib.Data.Set.Insert
import Mathlib.Order.CompletePartialOrder
import ShiftReduce.Collection.Propagation
import ShiftReduce.Proofs.Growth
import ShiftReduce.Proofs.Invariant
import ShiftReduce.Proofs.Worklists

/-!
# Propagation comes to rest

Each turn of the loop carries the lookaheads of one state. A state is queued only if its lookaheads
have grown, and there is a limit to what the lookaheads of all states can hold; so the loop ends
before its bound. The states that are not queued have been carried all along, and in the end there
are no others.
-/

namespace ShiftReduce

/-! ## How many lookaheads there can be -/

namespace Setup

/-- The cores that items can have. -/
def cores (u : Setup) : List Core := Grammar.coresOf u.grammar.rules

/-- The lookaheads that items can have, each with the core of the item. -/
def pairs (u : Setup) : List (Core × Symbol) :=
  u.cores ×ˢ (.terminal u.config.endOfInput :: Grammar.rightSymbols u.grammar.rules)

theorem length_cores (u : Setup) : u.cores.length = u.coreCount := by
  rw [cores, Grammar.length_coresOf, u.coreCount_eq]

theorem length_pairs_le (u : Setup) : u.pairs.length ≤ u.coreCount * (u.coreCount + 1) := by
  have hright := Grammar.length_rightSymbols u.grammar.rules
  rw [← u.coreCount_eq] at hright
  rw [pairs, List.length_product, length_cores, List.length_cons]
  refine Nat.mul_le_mul_left _ ?_
  omega

end Setup

namespace State

variable {u : Setup} {s : State}

theorem Built.cores_subset (h : Built u s) : s.cores ⊆ u.cores := by
  intro c hc
  obtain ⟨i, hi, rfl⟩ := mem_cores.mp hc
  exact Grammar.mem_coresOf (h.proper.rules i hi) i.dot_le

theorem Built.pairs_subset (h : Built u s) : s.pairs ⊆ u.pairs := by
  rintro ⟨c, y⟩ hp
  obtain ⟨i, hi, hc, -⟩ := mem_pairs.mp hp
  exact List.mem_product.mpr ⟨h.cores_subset (mem_cores.mpr ⟨i, hi, hc⟩), (h.bounded (c, y) hp).2⟩

theorem lookaheadCount_le_limit (h : Built u s) :
    s.lookaheadCount ≤ u.coreCount * (u.coreCount + 1) := by
  rw [← length_pairs]
  exact ((nodup_pairs h.proper.nodup).subperm h.pairs_subset).length_le.trans u.length_pairs_le

end State

namespace Collection

variable {u : Setup} {c d : Collection} {i j : StateId} {s : State} {x : Symbol}

/-- The number of lookaheads in all states. -/
def total (c : Collection) : Nat := (c.states.toList.map State.lookaheadCount).sum

/-- What the lookaheads of all states can hold. -/
def limit (u : Setup) (c : Collection) : Nat := c.size * (u.coreCount * (u.coreCount + 1))

theorem total_setState (h : i < c.size) : (c.setState i s).total + (c.get i).lookaheadCount =
    c.total + s.lookaheadCount := by
  have hl : i < c.states.toList.length := h
  have hget : c.states.toList[i] = c.get i := by
    have hsome := getElem?_eq_get h
    rw [← Array.getElem?_toList, List.getElem?_eq_getElem hl] at hsome
    exact Option.some.inj hsome
  have hsum := sum_map_set State.lookaheadCount c.states.toList hl s
  rw [hget] at hsum
  rw [total, setState, Array.toList_setIfInBounds]
  exact hsum

theorem Inv.total_le (h : Inv u c) : c.total ≤ limit u c := by
  have hle : ∀ n ∈ c.states.toList.map State.lookaheadCount,
      n ≤ u.coreCount * (u.coreCount + 1) := by
    intro n hn
    obtain ⟨s, hs, rfl⟩ := List.mem_map.mp hn
    obtain ⟨i, hi, rfl⟩ := List.mem_iff_getElem.mp hs
    have hi : i < c.size := hi
    have hbuilt := h.built i hi
    rw [get, ← Array.getElem?_toList, List.getElem?_eq_getElem hi] at hbuilt
    exact State.lookaheadCount_le_limit hbuilt
  have hsum := List.sum_le_card_nsmul _ _ hle
  rwa [List.length_map, smul_eq_mul] at hsum

/-! ## Merging a successor into the recorded one -/

/-- A successor of a state that stands for `s` matches the recorded one. -/
theorem Inv.merge_yields (h : Inv u c) (hm : u.config.method = .lalr1) (hi : i < c.size)
    (hs : State.Built u s) (hc : (c.get i).cores = s.cores) :
    (c.get i).mergeable s = true ∧ (c.get i).merge s = .ok ((c.get i).absorb s,
      decide ((c.get i).lookaheadCount < ((c.get i).absorb s).lookaheadCount)) := by
  have hmerge : (c.get i).mergeable s = true := by
    rw [State.mergeable_iff (h.built i hi).proper.nodup ((h.method hi).trans hs.method.symm)]
    refine ⟨hc, fun h1 => ?_⟩
    rw [h.method hi, hm] at h1
    cases h1
  exact ⟨hmerge, by rw [State.merge, if_pos hmerge]⟩

/-- Absorbing enlarges the lookaheads of the state, or it leaves the state as it is. -/
theorem Inv.absorb_cases (h : Inv u c) (hi : i < c.size) (hc : (c.get i).cores = s.cores) :
    (c.get i).lookaheadCount < ((c.get i).absorb s).lookaheadCount ∧
        c.total + 1 ≤ (c.setState i ((c.get i).absorb s)).total ∧
        (c.get i).itemSet.lookaheads ⊂ ((c.get i).absorb s).itemSet.lookaheads ∨
      ¬(c.get i).lookaheadCount < ((c.get i).absorb s).lookaheadCount ∧
        (c.get i).absorb s = c.get i := by
  have hsum := total_setState (s := (c.get i).absorb s) hi
  have hnodup := (h.built i hi).proper.nodup
  have hla := State.lookaheads_absorb hc
  have hsub : (c.get i).itemSet.lookaheads ⊆ ((c.get i).absorb s).itemSet.lookaheads := by
    rw [hla]
    exact Set.subset_union_left
  by_cases hlt : (c.get i).lookaheadCount < ((c.get i).absorb s).lookaheadCount
  · refine .inl ⟨hlt, by omega, hsub, fun hback => ?_⟩
    have hle := State.lookaheadCount_le (State.proper_absorb (h.built i hi).proper hc).nodup hback
    omega
  · refine .inr ⟨hlt, State.absorb_eq_self hnodup hc ?_⟩
    rw [← State.lookaheads_eq_of_count_le hnodup hsub (Nat.le_of_not_lt hlt), hla]
    exact Set.subset_union_right

/-! ## Carrying the lookaheads of one state -/

/-- The state of the loop: whatever is not queued, and not exempt, has been carried. -/
structure Working (u : Setup) (exempt : Set StateId) (c : Collection) (w : Worklist StateId) :
    Prop where
  inv : Inv u c
  inStep : w.InStep
  lt : ∀ i ∈ w.queue, i < c.size
  carried : ∀ i, i ∉ w.queue → i ∉ exempt → Carried u c i

/-- What a turn leaves behind: it has noted growth and nothing else, and whatever it has queued has
grown. -/
structure Turned (source : StateId) (c : Collection) (w : Worklist StateId) (d : Collection)
    (v : Worklist StateId) : Prop where
  events : ∃ new, d.events = new ++ c.events ∧ ∀ e ∈ new, ∃ j, e = .carried source j
  queued : ∀ j ∈ v.queue, j ∈ w.queue ∨
    (c.get j).itemSet.lookaheads ⊂ (d.get j).itemSet.lookaheads

/-- What carrying the lookaheads of `source` over the symbols `done` makes of `c` and `w`. -/
structure Carrying (u : Setup) (exempt : Set StateId) (source : StateId) (c : Collection)
    (w : Worklist StateId) (done : List Symbol) (d : Collection) (v : Worklist StateId) : Prop where
  working : Working u (insert source exempt) d v
  extended : c.Extends u d
  size : d.size = c.size
  weight : v.queue.length + c.total ≤ w.queue.length + d.total
  unchanged : source ∈ v.queue ∨ (d.get source).itemSet = (c.get source).itemSet
  turned : Turned source c w d v
  done : ∀ x ∈ done, ∀ j, (d.get source).successor? x = some j →
    (u.successor (c.get source).itemSet x).lookaheads ⊆ (d.get j).itemSet.lookaheads

variable {full : Prop} {exempt : Set StateId} {source : StateId} {w v : Worklist StateId}
  {done : List Symbol}

theorem Carrying.begin (h : Working u (insert source exempt) c w) :
    Carrying u exempt source c w [] c w where
  working := h
  extended := .refl c
  size := rfl
  weight := Nat.le_refl _
  unchanged := .inr rfl
  turned := ⟨⟨[], rfl, fun _ he => absurd he List.not_mem_nil⟩, fun _ hj => .inl hj⟩
  done _ hx := absurd hx List.not_mem_nil

/-- What has been carried over the symbols so far stays so. -/
theorem Carrying.done_snoc {e : Collection} (h : Carrying u exempt source c w done d v)
    (hext : d.Extends u e) (hx : ∀ j, (e.get source).successor? x = some j →
      (u.successor (c.get source).itemSet x).lookaheads ⊆ (e.get j).itemSet.lookaheads) :
    ∀ y ∈ done ++ [x], ∀ j, (e.get source).successor? y = some j →
      (u.successor (c.get source).itemSet y).lookaheads ⊆ (e.get j).itemSet.lookaheads := by
  intro y hy j hj
  rcases List.mem_append.mp hy with hy | hy
  · rw [hext.successor] at hj
    exact (h.done y hy j hj).trans (hext.lookaheads j)
  · obtain rfl := List.mem_singleton.mp hy
    exact hx j hj

/-- The lookaheads have reached the successor behind `x` without a change. -/
theorem Carrying.same (h : Carrying u exempt source c w done d v)
    (hx : ∀ j, (d.get source).successor? x = some j →
      (u.successor (c.get source).itemSet x).lookaheads ⊆ (d.get j).itemSet.lookaheads) :
    Carrying u exempt source c w (done ++ [x]) d v :=
  { h with done := h.done_snoc (.refl d) hx }

/-- The lookaheads have enlarged those of the successor behind `x`, which is queued. -/
theorem Carrying.grown (h : Carrying u exempt source c w done d v) (hlt : j < d.size)
    (hinv : Inv u (d.setState j ((d.get j).absorb s)))
    (hext : d.Extends u (d.setState j ((d.get j).absorb s)))
    (htotal : d.total + 1 ≤ (d.setState j ((d.get j).absorb s)).total)
    (hgrew : (d.get j).itemSet.lookaheads ⊂ ((d.get j).absorb s).itemSet.lookaheads)
    (hx : ∀ k, ((d.setState j ((d.get j).absorb s)).get source).successor? x = some k →
      (u.successor (c.get source).itemSet x).lookaheads ⊆
        ((d.setState j ((d.get j).absorb s)).get k).itemSet.lookaheads) :
    Carrying u exempt source c w (done ++ [x])
      ((d.setState j ((d.get j).absorb s)).note (.carried source j)) (v.push j).1 := by
  have hwork := h.working
  have hmem (i : StateId) : i ∈ (v.push j).1.queue ↔ i ∈ v.queue ∨ i = j := hwork.inStep.mem_push
  have hother (i : StateId) (hi : i ∉ (v.push j).1.queue) :
      ((d.setState j ((d.get j).absorb s)).get i) = d.get i :=
    get_setState_of_ne fun he => hi ((hmem i).mpr (.inr he))
  have hnoted := hext.trans (.note _ (.carried source j))
  constructor
  case working =>
    refine ⟨hinv.note _, hwork.inStep.push j, fun i hi => ?_, fun i hi he => ?_⟩
    · rw [size_note, size_setState]
      rcases (hmem i).mp hi with hi | rfl
      · exact hwork.lt i hi
      · exact hlt
    · refine (hwork.carried i (fun hv => hi ((hmem i).mpr (.inl hv))) he).extends hnoted ?_
      rw [get_note, hother i hi]
  case extended => exact h.extended.trans hnoted
  case size => exact size_setState.trans h.size
  case weight =>
    have hlen := hwork.inStep.length_push j
    have hweight := h.weight
    change _ ≤ w.queue.length + (d.setState j ((d.get j).absorb s)).total
    omega
  case unchanged =>
    by_cases hq : source ∈ (v.push j).1.queue
    · exact .inl hq
    · rw [get_note, hother source hq]
      exact .inr (h.unchanged.resolve_left fun hv => hq ((hmem source).mpr (.inl hv)))
  case turned =>
    obtain ⟨new, hnew, hall⟩ := h.turned.events
    refine ⟨⟨.carried source j :: new, congrArg (_ :: ·) hnew, ?_⟩, fun i hi => ?_⟩
    · rintro e (- | ⟨-, he⟩)
      · exact ⟨j, rfl⟩
      · exact hall e he
    · rw [get_note, get_setState hlt]
      by_cases hij : i = j
      · rw [if_pos hij, hij]
        exact .inr ((h.extended.lookaheads j).trans_ssubset hgrew)
      · rw [if_neg hij]
        exact h.turned.queued i (((hmem i).mp hi).resolve_right hij)
  case done => exact h.done_snoc hnoted hx

/-- A recorded successor has the cores of the successor that is carried to it. -/
theorem Carrying.cores_eq (h : Carrying u exempt source c w done d v) (hc : Inv u c)
    (hi : source < c.size) (hj : (d.get source).successor? x = some j) :
    j < d.size ∧ (d.get j).cores = ((c.get source).closedSuccessor u x).cores := by
  obtain ⟨hlt, hstands⟩ := h.working.inv.leads source x j hj
  refine ⟨hlt, hstands.1.trans ?_⟩
  exact State.cores_closedSuccessor_congr rfl (h.working.inv.built source (h.size ▸ hi)).proper
    (hc.built source hi).proper (h.extended.cores source hi) x

/-- The lookaheads of `source` reach the recorded successor by being absorbed. -/
theorem Carrying.absorb (hm : u.config.method = .lalr1) (hc : Inv u c) (hi : source < c.size)
    (h : Carrying u exempt source c w done d v) (hx : x ∈ (c.get source).nextSymbols)
    (hj : (d.get source).successor? x = some j)
    (hs : s = (c.get source).closedSuccessor u x) :
    Inv u (d.setState j ((d.get j).absorb s)) ∧
      d.Extends u (d.setState j ((d.get j).absorb s)) ∧
      ∀ k, ((d.setState j ((d.get j).absorb s)).get source).successor? x = some k →
        (u.successor (c.get source).itemSet x).lookaheads ⊆
          ((d.setState j ((d.get j).absorb s)).get k).itemSet.lookaheads := by
  subst hs
  have hb := hc.built source hi
  obtain ⟨hlt, hcores⟩ := h.cores_eq hc hi hj
  have hext := extends_absorb (u := u) hlt hcores fun hne => absurd hm hne
  refine ⟨h.working.inv.absorb hlt (hb.closedSuccessor hx) hcores fun hne => absurd hm hne, hext,
    fun k hk => ?_⟩
  rw [hext.successor, hj] at hk
  obtain rfl := Option.some.inj hk
  rw [get_setState_self hlt, State.lookaheads_absorb hcores, hb.itemSet_closedSuccessor]
  exact Set.subset_union_right

theorem Carrying.carry (hm : u.config.method = .lalr1) (hc : Inv u c) (hi : source < c.size)
    (h : Carrying u exempt source c w done d v) (hx : x ∈ (c.get source).nextSymbols) :
    Yields full (Collection.carry u source (d, v) (x, (c.get source).successorDraft x))
      fun p => Carrying u exempt source c w (done ++ [x]) p.1 p.2 := by
  have hinv := h.working.inv
  simp only [Collection.carry, state_eq (h.size ▸ hi), bind, Except.bind]
  cases hj : (d.get source).successor? x with
  | none =>
    refine .ok (h.same fun j hj' => ?_)
    rw [hj] at hj'
    cases hj'
  | some j =>
    obtain ⟨hlt, hcores⟩ := h.cores_eq hc hi hj
    have hformed := (hc.built source hi).closedSuccessor hx
    obtain ⟨hmergeable, hmerge⟩ := hinv.merge_yields hm hlt hformed hcores
    generalize hs : (c.get source).closedSuccessor u x = s at hcores hmergeable hmerge
    simp only [State.closedSuccessor] at hs
    simp only [state_eq hlt, hs, hmergeable, if_true, hmerge]
    obtain ⟨hinv', hext, hreach⟩ := h.absorb hm hc hi hx hj hs.symm
    rcases hinv.absorb_cases hlt hcores with ⟨hgrew, htotal, hstrict⟩ | ⟨hgrew, hself⟩
    · rw [if_pos (decide_eq_true hgrew)]
      exact .ok (h.grown hlt hinv' hext htotal hstrict hreach)
    · rw [hself, setState_get hlt] at hreach
      rw [if_neg (by simpa using hgrew), hself, setState_get hlt]
      exact .ok (h.same hreach)

theorem carryAll_yields (hm : u.config.method = .lalr1) (hi : source < c.size)
    (h : Working u (insert source exempt) c w) : Yields full (carryAll u source c w) fun p =>
      Working u exempt p.1 p.2 ∧ c.Extends u p.1 ∧ p.1.size = c.size ∧
        p.2.queue.length + c.total ≤ w.queue.length + p.1.total ∧ Turned source c w p.1 p.2 := by
  simp only [carryAll, state_eq hi, bind, Except.bind]
  refine ((c.get source).foldlM_successors_yields (fun done p =>
    Carrying u exempt source c w done p.1 p.2) (fun done x rest p hl _ hp =>
    hp.carry hm h.inv hi (State.mem_nextSymbols_of_split hl)) (.begin h)).mono fun p hp => ?_
  refine ⟨⟨hp.working.inv, hp.working.inStep, hp.working.lt, fun i hq he => ?_⟩, hp.extended,
    hp.size, hp.weight, hp.turned⟩
  by_cases his : i = source
  · subst his
    intro x j hj
    rw [hp.unchanged.resolve_left hq]
    refine hp.done x ?_ j hj
    rw [← State.nextSymbols_congr (hp.working.inv.built i (hp.size ▸ hi)).proper
      (h.inv.built i hi).proper (hp.extended.cores i hi)]
    exact State.mem_nextSymbols_of_successor? hj
  · exact hp.working.carried i hq fun hins => he (Set.mem_of_mem_insert_of_ne hins his)

/-- So a turn of the loop succeeds. -/
theorem exists_carryAll (hm : u.config.method = .lalr1) (hi : source < c.size)
    (h : Working u (insert source exempt) c w) : ∃ d v, carryAll u source c w = .ok (d, v) ∧
      Working u exempt d v ∧ c.Extends u d ∧ d.size = c.size ∧
      v.queue.length + c.total ≤ w.queue.length + d.total ∧ Turned source c w d v := by
  obtain ⟨⟨d, v⟩, hall, hp⟩ := (carryAll_yields hm hi h).exists_ok
  exact ⟨d, v, hall, hp⟩

/-! ## The loop -/

/-- A state that is taken out of the queue is exempt until its lookaheads have been carried. -/
theorem Working.pop (h : Working u exempt c w) (hpop : w.pop? = some (source, v)) :
    Working u (insert source exempt) c v ∧ source < c.size ∧ w.queue = source :: v.queue := by
  obtain ⟨hq, hv⟩ := h.inStep.pop? hpop
  have hmem : source ∈ w.queue := hq ▸ List.mem_cons_self
  refine ⟨⟨h.inv, hv, fun i hi => h.lt i (hq ▸ List.mem_cons_of_mem _ hi), fun i hi he => ?_⟩,
    h.lt source hmem, hq⟩
  rw [Set.mem_insert_iff, not_or] at he
  refine h.carried i ?_ he.2
  rw [hq, List.mem_cons]
  exact not_or.mpr ⟨he.1, hi⟩

theorem Working.begin (h : Inv u c) (hi : source < c.size)
    (hcarried : ∀ i, i ≠ source → i ∉ exempt → Carried u c i) :
    Working u exempt (c.note (.propagated source)) (Worklist.empty.push source).1 := by
  have hempty := Worklist.inStep_empty (α := StateId)
  have hmem (i : StateId) : i ∈ (Worklist.empty.push source).1.queue ↔ i = source := by
    rw [hempty.mem_push]
    simp [Worklist.empty]
  refine ⟨h.note _, hempty.push source, fun i hq => ?_, fun i hq he => ?_⟩
  · rw [(hmem i).mp hq]
    exact hi
  · exact (hcarried i (fun he => hq ((hmem i).mpr he)) he).extends (.note c _) rfl

/-- When nothing is queued, everything has been carried. -/
theorem Working.rest (h : Working u exempt c w) (hpop : w.pop? = none) :
    ∀ i, i ∉ exempt → Carried u c i := fun i hi =>
  h.carried i (by simp [Worklist.pop?_eq_none.mp hpop]) hi

theorem propagateLoop_yields (hm : u.config.method = .lalr1) {bound : Nat}
    (h : Working u exempt c w) (hbound : w.queue.length + limit u c ≤ bound + c.total) :
    Yields full (propagateLoop u bound c w) fun d =>
      Inv u d ∧ c.Extends u d ∧ d.size = c.size ∧ ∀ i, i ∉ exempt → Carried u d i := by
  induction bound generalizing c w with
  | zero =>
    unfold propagateLoop
    split
    · rename_i hpop
      exact .ok ⟨h.inv, .refl c, rfl, h.rest hpop⟩
    · -- a queue with a member would need a turn
      rename_i source v hpop
      have hq := congrArg List.length (h.inStep.pop? hpop).1
      have hle := h.inv.total_le
      rw [List.length_cons] at hq
      omega
  | succ bound ih =>
    unfold propagateLoop
    split
    · rename_i hpop
      exact .ok ⟨h.inv, .refl c, rfl, h.rest hpop⟩
    · rename_i source v hpop
      obtain ⟨hwork, hsource, hq⟩ := h.pop hpop
      refine (carryAll_yields hm hsource hwork).bind fun p hp => ?_
      obtain ⟨hp, hext, hsize, hweight, -⟩ := hp
      have hlen := congrArg List.length hq
      have hlimit : limit u p.1 = limit u c := by rw [limit, limit, hsize]
      rw [List.length_cons] at hlen
      refine (ih hp (by omega)).mono fun d hd => ?_
      exact ⟨hd.1, hext.trans hd.2.1, hd.2.2.1.trans hsize, hd.2.2.2⟩

/-- A call of propagation comes to rest. -/
theorem Working.propagate_yields (hm : u.config.method = .lalr1)
    (h : Working u exempt (c.note (.propagated source)) (Worklist.empty.push source).1) :
    Yields full (c.propagate u source) fun d =>
      Inv u d ∧ c.Extends u d ∧ d.size = c.size ∧ ∀ i, i ∉ exempt → Carried u d i := by
  refine (propagateLoop_yields hm h ?_).mono fun d hd =>
    ⟨hd.1, (Extends.note c _).trans hd.2.1, hd.2.2.1, hd.2.2.2⟩
  have hlen := (Worklist.inStep_empty (α := StateId)).length_push source
  have hzero : (Worklist.empty : Worklist StateId).queue.length = 0 := rfl
  have hlimit : limit u (c.note (.propagated source)) = limit u c := rfl
  rw [hlimit, propagationBound, Nat.mul_assoc]
  change _ + limit u c ≤ limit u c + 1 + _
  omega

/-- Propagating from the one state whose lookaheads have not been carried. -/
theorem propagate_yields (hm : u.config.method = .lalr1) (h : Inv u c) (hi : source < c.size)
    (hcarried : ∀ i, i ≠ source → i ∉ exempt → Carried u c i) :
    Yields full (c.propagate u source) fun d =>
      Inv u d ∧ c.Extends u d ∧ d.size = c.size ∧ ∀ i, i ∉ exempt → Carried u d i :=
  (Working.begin h hi hcarried).propagate_yields hm

end Collection

end ShiftReduce
