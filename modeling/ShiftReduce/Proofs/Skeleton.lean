import ShiftReduce.Proofs.Runs

/-!
# The skeleton of LALR(1)

The LR(0) table is the LALR(1) table without its lookaheads. In both methods the cores determine
the state, and what a state leads to depends on its cores. So the tables have the same states; they
number them alike, because both record the successors turn by turn, and a state gets its number at
the first turn that leads to it.
-/

namespace ShiftReduce

/-! ## Without lookaheads -/

def Item.skeleton (i : Item) : Item := { i with lookaheads := ∅ }

/-- The state that has the items of `s` without their lookaheads. -/
def State.skeleton (s : State) : State :=
  { s with method := .lr0, items := s.items.map Item.skeleton }

theorem Item.skeleton_congr {i j : Item} (hr : i.rule = j.rule) (hd : i.dot = j.dot)
    (hn : i.next = j.next) : i.skeleton = j.skeleton := by
  obtain ⟨r, d, la, n, hle⟩ := i
  obtain ⟨r', d', la', n', hle'⟩ := j
  obtain rfl : r = r' := hr
  obtain rfl : d = d' := hd
  obtain rfl : n = n' := hn
  rfl

namespace State

variable {u v : Setup} {s t : State}

/-- What an item has recorded is the successor of its state, if it waits for a symbol. -/
theorem Built.next_eq (h : Built u s) {k : Item} (hk : k ∈ s.items) :
    k.next = k.nextSymbol?.bind s.successor? := by
  cases hx : k.nextSymbol? with
  | none => exact h.ended k hk hx
  | some x => exact h.uniform k hk x hx

/-- States with the same cores and the same recorded successors differ in nothing but lookaheads. -/
theorem Built.skeleton_congr (hs : Built u s) (ht : Built v t) (hg : u.grammar = v.grammar)
    (hc : s.cores = t.cores) (hsucc : ∀ x, s.successor? x = t.successor? x)
    (hn : s.number = t.number) : s.skeleton = t.skeleton := by
  have haligned : s.Aligned t := aligned_of_cores_eq hs.proper (hg ▸ ht.proper) hc
  have hlen : s.items.length = t.items.length := by
    simpa using congrArg List.length haligned
  have hitems : s.items.map Item.skeleton = t.items.map Item.skeleton := by
    refine List.ext_getElem (by simpa using hlen) fun n h h' => ?_
    rw [List.length_map] at h h'
    have hpair : (s.items[n].rule, s.items[n].dot) = (t.items[n].rule, t.items[n].dot) := by
      simpa [h, h'] using congrArg (·[n]?) haligned
    obtain ⟨hr, hd⟩ := Prod.mk.inj hpair
    rw [List.getElem_map, List.getElem_map]
    refine Item.skeleton_congr hr hd ?_
    rw [hs.next_eq (List.getElem_mem h), ht.next_eq (List.getElem_mem h'),
      Item.nextSymbol?_congr hr hd, funext hsucc]
  rw [skeleton, skeleton, hitems, hn, hs.closed, ht.closed]

/-- In LR(0) there is nothing but the skeleton. -/
theorem Built.skeleton_eq (h : Built u s) (hm : u.config.method = .lr0) : s.skeleton = s := by
  have hitem : ∀ k ∈ s.items, k.skeleton = k := by
    intro k hk
    have hla : k.lookaheads = ∅ := by
      refine OrderedSet.ext (List.eq_nil_iff_forall_not_mem.mpr fun y hy => ?_)
      have hmem := (h.proper.mem_lookaheads_iff hk).mp hy
      rw [Setup.lookaheads_eq_empty hm h.bounded] at hmem
      exact hmem
    rw [Item.skeleton, ← hla]
  have hmethod : s.method = .lr0 := h.method.trans hm
  rw [skeleton, List.map_congr_left hitem, List.map_id', ← hmethod]

end State

/-! ## Crowded setups -/

namespace Setup

variable {u v : Setup}

theorem bounded_along (u : Setup) (path : List Symbol) :
    (u.along path).Bounded u.grammar u.ahead u.config.endOfInput := by
  induction path using List.reverseRecOn with
  | nil => exact ItemSet.bounded_start.closure
  | append_singleton path x ih =>
    rw [along_append_singleton]
    exact ih.successor x

/-- Except in LR(1), paths are kept apart by their cores. -/
theorem apart_along_iff (hm : u.config.method ≠ .lr1) {path path' : List Symbol} :
    u.Apart (u.along path) (u.along path') ↔ (u.along path).cores ≠ (u.along path').cores := by
  refine ⟨fun h hcores => ?_, .inl⟩
  rcases h with hne | ⟨hla, hne⟩
  · exact hne hcores
  · have hlr0 : u.config.method = .lr0 := by
      cases hmethod : u.config.method with
      | lr0 => rfl
      | lr1 => exact absurd hmethod hm
      | lalr1 => exact absurd hmethod hla
    refine hne (ItemSet.ext hcores ?_)
    rw [lookaheads_eq_empty hlr0 (u.bounded_along path),
      lookaheads_eq_empty hlr0 (u.bounded_along path')]

theorem Crowded.congr (h : u.Crowded) (hg : u.grammar = v.grammar)
    (hu : u.config.method ≠ .lr1) (hv : v.config.method ≠ .lr1) : v.Crowded := by
  have hcores (path : List Symbol) : (v.along path).cores = (u.along path).cores := by
    rw [along, along, hg]
    exact Grammar.cores_along path
  obtain ⟨path, hne, hapart⟩ := h
  refine ⟨path, fun n => by rw [hcores]; exact hne n, fun n k hnk => ?_⟩
  rw [apart_along_iff hv, hcores, hcores]
  exact (apart_along_iff hu).mp (hapart n k hnk)

end Setup

/-! ## Tables that number their states alike -/

namespace Table

/-- Tables of one grammar in which the cores determine the state. -/
structure Siblings (a b : Table) : Prop where
  complete_left : a.Complete
  complete_right : b.Complete
  grammar : a.grammar = b.grammar
  method_left : a.config.method ≠ .lr1
  method_right : b.config.method ≠ .lr1

variable {a b : Table} {g : Grammar} {i j k l n : StateId} {x : Symbol}

namespace Siblings

theorem symm (h : Siblings a b) : Siblings b a :=
  ⟨h.complete_right, h.complete_left, h.grammar.symm, h.method_right, h.method_left⟩

theorem nextSymbols_eq (h : Siblings a b) (hk : k < a.size) (hi : i < b.size)
    (hc : (a.get k).cores = (b.get i).cores) : (a.get k).nextSymbols = (b.get i).nextSymbols :=
  State.nextSymbols_congr (by rw [setup, ← h.grammar]; exact (h.complete_left.built k hk).proper)
    (h.complete_right.built i hi).proper hc

/-- States with the same cores lead on behind the same symbols. -/
theorem exists_successor (h : Siblings a b) (hi : i < b.size)
    (hc : (a.get k).cores = (b.get i).cores) (hj : (a.get k).successor? x = some j) :
    ∃ l, (b.get i).successor? x = some l := by
  refine h.complete_right.linked i x ?_
  rw [← h.nextSymbols_eq (Complete.lt_of_successor? hj) hi hc]
  exact State.mem_nextSymbols_of_successor? hj

/-- States with the same cores lead to states with the same cores. -/
theorem successor_cores (h : Siblings a b) (hc : (a.get k).cores = (b.get i).cores)
    (hj : (a.get k).successor? x = some j) (hl : (b.get i).successor? x = some l) :
    (a.get j).cores = (b.get l).cores := by
  have hk := (h.complete_left.built k (Complete.lt_of_successor? hj)).proper
  have hi := (h.complete_right.built i (Complete.lt_of_successor? hl)).proper
  have hclosed := State.cores_closedSuccessor_congr (u := a.setup) (v := b.setup) h.grammar hk hi
    hc x
  exact (h.complete_left.leads k x j hj).2.1.trans
    (hclosed.trans (h.complete_right.leads i x l hl).2.1.symm)

/-- The state `k` is where `b` goes when `a` goes to `n` for the first time. If `k` had a greater
number, `b` would have been led to the cores of `n` at an earlier turn, and then `a` as well. -/
theorem not_lt_of_first (h : Siblings a b) (hn : n < a.size) {m : StateId} (hm : m < n)
    (hfirst : ∀ k y l, (a.get k).successor? y = some l → turn a.get k y < turn a.get m x → l < n)
    (hsame : ∀ m, m < n → m < b.size ∧ (a.get m).cores = (b.get m).cores)
    (hk : (b.get m).successor? x = some k) : ¬n < k := by
  intro hgt
  have hnb : n < b.size := hgt.trans (h.complete_right.leads m x k hk).1
  obtain ⟨m', y, hm', hy, hfirst'⟩ := h.complete_right.numbered n (Nat.zero_lt_of_lt hm) hnb
  obtain ⟨hmb, hmc⟩ := hsame m hm
  obtain ⟨hmb', hmc'⟩ := hsame m' hm'
  have hturn : turn a.get m x = turn b.get m x :=
    turn_congr (h.nextSymbols_eq (hm.trans hn) hmb hmc)
  have hturn' : turn a.get m' y = turn b.get m' y :=
    turn_congr (h.nextSymbols_eq (hm'.trans hn) hmb' hmc')
  rcases lt_trichotomy (turn b.get m x) (turn b.get m' y) with hlt | heq | hlt
  · exact absurd (hfirst' m x k hk hlt) (Nat.lt_asymm hgt)
  · obtain ⟨rfl, rfl⟩ := eq_of_turn_eq hk heq
    exact absurd (Option.some.inj (hk.symm.trans hy)) (Nat.ne_of_gt hgt)
  · -- `a` has been led to the cores of `n` already, and the state it went to is another one
    obtain ⟨l, hl⟩ := h.symm.exists_successor (hm'.trans hn) hmc'.symm hy
    have hln : l < n := hfirst m' y l hl (by rw [hturn, hturn']; exact hlt)
    obtain ⟨hlb, hlc⟩ := hsame l hln
    have hcores := h.successor_cores hmc' hl hy
    exact absurd (h.complete_right.eq_of_cores_eq h.method_right hlb hnb (hlc.symm.trans hcores))
      (Nat.ne_of_lt hln)

theorem cores_start (h : Siblings a b) : (a.get 0).cores = (b.get 0).cores := by
  have hsets : (a.get 0).itemSet.cores = (b.get 0).itemSet.cores := by
    rw [h.complete_left.start_cores, h.complete_right.start_cores]
    change (a.grammar.along _ _ []).cores = (b.grammar.along _ _ []).cores
    rw [h.grammar]
    exact Grammar.cores_along []
  exact State.cores_eq_of_mem_iff (u := a.setup) (v := b.setup) h.grammar
    (h.complete_left.built 0 h.complete_left.size_pos).kernel
    (h.complete_right.built 0 h.complete_right.size_pos).kernel fun c => Set.ext_iff.mp hsets c

/-- The states with one number have the same cores in both tables. -/
theorem cores_eq (h : Siblings a b) (hn : n < a.size) :
    n < b.size ∧ (a.get n).cores = (b.get n).cores := by
  induction n using Nat.strongRecOn with
  | ind n ih =>
    by_cases hzero : n = 0
    · rw [hzero]
      exact ⟨h.complete_right.size_pos, h.cores_start⟩
    · obtain ⟨m, x, hm, hx, hfirst⟩ := h.complete_left.numbered n (Nat.pos_of_ne_zero hzero) hn
      have hsame : ∀ m, m < n → m < b.size ∧ (a.get m).cores = (b.get m).cores :=
        fun m hm => ih m hm (hm.trans hn)
      obtain ⟨hmb, hmc⟩ := hsame m hm
      obtain ⟨k, hk⟩ := h.exists_successor hmb hmc hx
      have hkb := (h.complete_right.leads m x k hk).1
      have hkc := h.successor_cores hmc hx hk
      have hkn : k = n := by
        rcases Nat.lt_or_eq_of_le (Nat.le_of_not_lt (h.not_lt_of_first hn hm hfirst hsame hk))
          with hlt | heq
        · exact h.complete_left.eq_of_cores_eq h.method_left (hlt.trans hn) hn
            ((hsame k hlt).2.trans hkc.symm)
        · exact heq
      rw [hkn] at hkb hkc
      exact ⟨hkb, hkc⟩

theorem size_eq (h : Siblings a b) : a.size = b.size :=
  Nat.le_antisymm (Nat.le_of_not_lt fun hlt => Nat.lt_irrefl _ (h.cores_eq hlt).1)
    (Nat.le_of_not_lt fun hlt => Nat.lt_irrefl _ (h.symm.cores_eq hlt).1)

theorem successor?_eq_some (h : Siblings a b) (hj : (a.get i).successor? x = some j) :
    (b.get i).successor? x = some j := by
  obtain ⟨hi, hc⟩ := h.cores_eq (Complete.lt_of_successor? hj)
  obtain ⟨l, hl⟩ := h.exists_successor hi hc hj
  obtain ⟨hjb, hjc⟩ := h.cores_eq (h.complete_left.leads i x j hj).1
  have hlj : l = j := h.complete_right.eq_of_cores_eq h.method_right
    (h.complete_right.leads i x l hl).1 hjb ((h.successor_cores hc hj hl).symm.trans hjc)
  rw [hl, hlj]

theorem successor?_eq (h : Siblings a b) (i : StateId) (x : Symbol) :
    (a.get i).successor? x = (b.get i).successor? x :=
  Option.ext fun _ => ⟨h.successor?_eq_some, h.symm.successor?_eq_some⟩

theorem skeleton_eq (h : Siblings a b) (hi : i < a.size) :
    (a.get i).skeleton = (b.get i).skeleton := by
  obtain ⟨hib, hc⟩ := h.cores_eq hi
  exact (h.complete_left.built i hi).skeleton_congr (h.complete_right.built i hib) h.grammar hc
    (h.successor?_eq i) ((h.complete_left.number i hi).trans (h.complete_right.number i hib).symm)

end Siblings

/-! ## LR(0) and LALR(1) -/

/-- The table `a` is the table `b` without its lookaheads: state by state it has the same items in
the same order, with the same recorded successors. So both lead to the same states. -/
structure SkeletonOf (a b : Table) : Prop where
  begins : startState < a.size
  states : a.states = b.states.map State.skeleton
  goto : ∀ i name, a.goto? i name = b.goto? i name
  shift : ∀ i x n k, a.action i x = .ok (.shift n) → b.action i x = .ok (.shift k) → n = k

theorem Siblings.skeletonOf (h : Siblings a b) (hm : a.config.method = .lr0) : SkeletonOf a b where
  begins := h.complete_left.size_pos
  states := by
    refine Array.ext (by rw [Array.size_map]; exact h.size_eq) fun i hi hi' => ?_
    rw [Array.size_map] at hi'
    have ha : a.states[i] = a.get i := (getElem?_eq_some.mp (Array.getElem?_eq_getElem hi)).2.symm
    have hb : b.states[i] = b.get i := (getElem?_eq_some.mp (Array.getElem?_eq_getElem hi')).2.symm
    rw [Array.getElem_map, ha, hb, ← h.skeleton_eq hi]
    exact ((h.complete_left.built i hi).skeleton_eq hm).symm
  goto i name := by
    by_cases hi : i < a.size
    · rw [Run.goto?_eq hi, Run.goto?_eq (h.size_eq ▸ hi), h.successor?_eq]
    · have ha : a.states[i]? = none := Array.getElem?_eq_none (Nat.le_of_not_lt hi)
      rw [h.size_eq] at hi
      have hb : b.states[i]? = none := Array.getElem?_eq_none (Nat.le_of_not_lt hi)
      simp only [goto?, state, ha, hb]
  shift i x n k hn hk := by
    have hleft := Run.successor?_of_shift h.complete_left hn
    have hright := Run.successor?_of_shift h.complete_right hk
    rw [h.successor?_eq, hright] at hleft
    exact (Option.some.inj hleft).symm

theorem siblings_of_build {e : String} (ha : build g ⟨.lr0, e⟩ = .ok a)
    (hb : build g ⟨.lalr1, e⟩ = .ok b) : Siblings a b where
  complete_left := complete_of_build ha
  complete_right := complete_of_build hb
  grammar := by rw [grammar_of_build ha, grammar_of_build hb]
  method_left := by simp [config_of_build ha]
  method_right := by simp [config_of_build hb]

/-- The LR(0) table of a grammar with a start rule is its LALR(1) table without the lookaheads,
unless both have more states than there are state numbers. -/
theorem build_skeletonOf {r : Rule} (h : g.startRule = .ok r) (e : String) :
    (build g ⟨.lr0, e⟩ = .error (.fault .tooManyStates) ∧
      build g ⟨.lalr1, e⟩ = .error (.fault .tooManyStates) ∧ (Setup.new g ⟨.lr0, e⟩).Crowded) ∨
      ∃ a b, build g ⟨.lr0, e⟩ = .ok a ∧ build g ⟨.lalr1, e⟩ = .ok b ∧ SkeletonOf a b := by
  have hlr0 : Method.lr0 ≠ .lr1 := by decide
  have hlalr1 : Method.lalr1 ≠ .lr1 := by decide
  rcases build_cases h ⟨.lr0, e⟩ with ⟨herror, hcrowded⟩ | ⟨a, ha⟩
  · have hcrowded' : (Setup.new g ⟨.lalr1, e⟩).Crowded := hcrowded.congr rfl hlr0 hlalr1
    exact .inl ⟨herror, (build_eq_error_iff h).mpr hcrowded', hcrowded⟩
  rcases build_cases h ⟨.lalr1, e⟩ with ⟨-, hcrowded⟩ | ⟨b, hb⟩
  · have hcrowded' : (Setup.new g ⟨.lr0, e⟩).Crowded := hcrowded.congr rfl hlalr1 hlr0
    rw [(build_eq_error_iff h).mpr hcrowded'] at ha
    cases ha
  have hsiblings := siblings_of_build ha hb
  exact .inr ⟨a, b, ha, hb, hsiblings.skeletonOf (by rw [config_of_build ha])⟩

theorem skeletonOf_sample : ∃ a b, build (.ofEdits sampleEdits) ⟨.lr0, "EOI"⟩ = .ok a ∧
    build (.ofEdits sampleEdits) ⟨.lalr1, "EOI"⟩ = .ok b ∧ SkeletonOf a b := by
  rcases build_skeletonOf startRule_sample "EOI" with ⟨herror, -⟩ | hskeleton
  · exact absurd herror (by decide +kernel)
  · exact hskeleton

end Table

end ShiftReduce
