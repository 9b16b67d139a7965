import ShiftReduce.Proofs.Paths

/-!
# LALR(1) as a quotient of LR(1)

The LALR(1) states are the LR(1) states with equal cores made one. A path leads to states with the
same cores in both tables. The LR(1) state at its end has the lookaheads of the path and no others,
and a lookahead of an LALR(1) state comes from a path that ends there; so the lookaheads of an
LALR(1) state are those of the LR(1) states that go to it.
-/

namespace ShiftReduce.Table

/-- The table `b` is the table `a` with the states of equal cores made one, and `f` says where the
states of `a` go. -/
structure CoreQuotient (a b : Table) (f : StateId → StateId) : Prop where
  begins : startState < a.size
  cores : ∀ (i : StateId) (s : State), a.states[i]? = some s →
    ∃ s' : State, b.states[f i]? = some s' ∧ s'.cores = s.cores
  unique : ∀ (i j : StateId) (s s' : State), a.states[i]? = some s → b.states[j]? = some s' →
    s'.cores = s.cores → j = f i
  onto : ∀ (j : StateId) (s' : State), b.states[j]? = some s' →
    ∃ (i : StateId) (s : State), a.states[i]? = some s ∧ f i = j
  start : f startState = startState
  /-- Items that wait for the same symbol have recorded the same state, in both tables. -/
  recorded : ∀ (i : StateId) (s : State), a.states[i]? = some s ∨ b.states[i]? = some s →
    ∀ k ∈ s.items, ∀ x, k.nextSymbol? = some x → ∃ j, k.next = some j ∧ s.successor? x = some j
  successor : ∀ (i : StateId) (s s' : State), a.states[i]? = some s → b.states[f i]? = some s' →
    ∀ x, s'.successor? x = (s.successor? x).map f
  lookaheads : ∀ (j : StateId) (s' : State), b.states[j]? = some s' → ∀ k' ∈ s'.items, ∀ y,
    y ∈ k'.lookaheads ↔ ∃ (i : StateId) (s : State), a.states[i]? = some s ∧ f i = j ∧
      ∃ k ∈ s.items, k.core = k'.core ∧ y ∈ k.lookaheads

/-- The tables of one grammar for LR(1) and LALR(1), with the same end of input. -/
structure Twins (a b : Table) : Prop where
  complete_left : a.Complete
  complete_right : b.Complete
  grammar : b.grammar = a.grammar
  endOfInput : b.config.endOfInput = a.config.endOfInput
  method_left : a.config.method = .lr1
  method_right : b.config.method = .lalr1

variable {a b : Table} {g : Grammar} {i j : StateId} {path : List Symbol} {x : Symbol}

namespace Twins

theorem along_eq (h : Twins a b) (path : List Symbol) :
    b.setup.along path = a.setup.along path := by
  change b.grammar.along b.config.method.looksAhead b.config.endOfInput path =
    a.grammar.along a.config.method.looksAhead a.config.endOfInput path
  rw [h.grammar, h.endOfInput, h.method_left, h.method_right]
  rfl

theorem exact (h : Twins a b) (hi : a.At path i) : (a.get i).itemSet = a.setup.along path :=
  hi.exact (by rw [h.method_left]; decide)

/-- The states that a path leads to have the same cores. -/
theorem cores_eq_of_at (h : Twins a b) (hi : a.At path i) (hj : b.At path j) :
    (b.get j).cores = (a.get i).cores := by
  refine State.cores_eq_of_mem_iff (u := b.setup) (v := a.setup) h.grammar
    (h.complete_right.built j hj.lt).kernel (h.complete_left.built i hi.lt).kernel fun c => ?_
  have hc : (b.get j).itemSet.cores = (a.get i).itemSet.cores := by
    rw [hj.cores, hi.cores, h.along_eq]
  exact Set.ext_iff.mp hc c

/-- A path through `a` is a path through `b`. -/
theorem exists_right_of_at (h : Twins a b) (hi : a.At path i) : ∃ j, b.At path j := by
  obtain ⟨c, hc⟩ := h.complete_left.exists_core hi.lt
  rw [hi.cores, ← h.along_eq] at hc
  exact h.complete_right.exists_at_of_mem hc

theorem exists_right (h : Twins a b) (hi : i < a.size) :
    ∃ j, j < b.size ∧ (b.get j).cores = (a.get i).cores := by
  obtain ⟨path, hat⟩ := h.complete_left.exists_at hi
  obtain ⟨j, hj⟩ := h.exists_right_of_at hat
  exact ⟨j, hj.lt, h.cores_eq_of_at hat hj⟩

/-- In LALR(1) the cores determine the state. -/
theorem eq_of_cores_eq (h : Twins a b) {k : StateId} (hj : j < b.size) (hk : k < b.size)
    (hc : (b.get j).cores = (b.get k).cores) : j = k :=
  h.complete_right.eq_of_cores_eq (by rw [h.method_right]; decide) hj hk hc

/-- Where the states of `a` have to go. -/
def Quotient (a b : Table) (f : StateId → StateId) : Prop :=
  ∀ i, i < a.size → f i < b.size ∧ (b.get (f i)).cores = (a.get i).cores

theorem exists_quotient (h : Twins a b) : ∃ f, Quotient a b f := by
  have hright : ∀ i, i < a.size → ∃ j, j < b.size ∧ (b.get j).cores = (a.get i).cores :=
    fun i hi => h.exists_right hi
  choose! f hf using hright
  exact ⟨f, hf⟩

variable {f : StateId → StateId}

theorem eq_quotient (h : Twins a b) (hf : Quotient a b f) (hi : i < a.size) (hj : j < b.size)
    (hc : (b.get j).cores = (a.get i).cores) : j = f i :=
  h.eq_of_cores_eq hj (hf i hi).1 (hc.trans (hf i hi).2.symm)

theorem quotient_of_at (h : Twins a b) (hf : Quotient a b f) (hi : a.At path i) (hj : b.At path j) :
    f i = j :=
  (h.eq_quotient hf hi.lt hj.lt (h.cores_eq_of_at hi hj)).symm

theorem at_quotient (h : Twins a b) (hf : Quotient a b f) (hi : a.At path i) :
    b.At path (f i) := by
  obtain ⟨j, hj⟩ := h.exists_right_of_at hi
  rw [h.quotient_of_at hf hi hj]
  exact hj

/-- A path whose cores are those of a state of `b` leads to a state of `a` that goes there. -/
theorem exists_left (h : Twins a b) (hf : Quotient a b f) (hj : j < b.size)
    (hc : (b.setup.along path).cores = (b.get j).itemSet.cores) :
    ∃ i, a.At path i ∧ f i = j := by
  obtain ⟨c, hmem⟩ := h.complete_right.exists_core hj
  rw [← hc] at hmem
  obtain ⟨k, hatk⟩ := h.complete_right.exists_at_of_mem hmem
  rw [h.along_eq] at hmem
  obtain ⟨i, hati⟩ := h.complete_left.exists_at_of_mem hmem
  have hkj : k = j := h.eq_of_cores_eq hatk.lt hj
    (h.complete_right.cores_eq hatk.lt hj (hatk.cores.trans hc))
  exact ⟨i, hati, (h.quotient_of_at hf hati hatk).trans hkj⟩

theorem mem_lookaheads_iff (h : Twins a b) (hf : Quotient a b f) (hj : j < b.size)
    {p : Core × Symbol} : p ∈ (b.get j).itemSet.lookaheads ↔
      ∃ i, i < a.size ∧ f i = j ∧ p ∈ (a.get i).itemSet.lookaheads := by
  constructor
  · intro hp
    obtain ⟨path, hc, hp⟩ := (h.complete_right.built j hj).grounded.lookaheads p hp
    obtain ⟨i, hi, hij⟩ := h.exists_left hf hj hc
    refine ⟨i, hi.lt, hij, ?_⟩
    rw [h.exact hi, ← h.along_eq]
    exact hp
  · rintro ⟨i, hi, rfl, hp⟩
    obtain ⟨path, hat⟩ := h.complete_left.exists_at hi
    refine (h.at_quotient hf hat).lookaheads ?_
    rw [h.along_eq, ← h.exact hat]
    exact hp

theorem successor?_quotient (h : Twins a b) (hf : Quotient a b f) (hi : i < a.size) (x : Symbol) :
    (b.get (f i)).successor? x = ((a.get i).successor? x).map f := by
  obtain ⟨hfi, hc⟩ := hf i hi
  have hsymbols : (b.get (f i)).nextSymbols = (a.get i).nextSymbols :=
    State.nextSymbols_congr (h.complete_right.built _ hfi).proper
      (by rw [Table.setup, h.grammar]; exact (h.complete_left.built i hi).proper) hc
  cases hk : (a.get i).successor? x with
  | some k =>
    have hx := State.mem_nextSymbols_of_successor? hk
    obtain ⟨l, hl⟩ := h.complete_right.linked (f i) x (by rw [hsymbols]; exact hx)
    obtain ⟨path, hat⟩ := h.complete_left.exists_at hi
    have hatk := h.complete_left.at_append_singleton hat hk
    have hatl := h.complete_right.at_append_singleton (h.at_quotient hf hat) hl
    rw [hl, Option.map_some, h.quotient_of_at hf hatk hatl]
  | none =>
    have hx : x ∉ (b.get (f i)).nextSymbols := by
      intro hx
      obtain ⟨k, hk'⟩ := h.complete_left.linked i x (by rw [← hsymbols]; exact hx)
      rw [hk] at hk'
      cases hk'
    cases hl : (b.get (f i)).successor? x with
    | none => rfl
    | some l => exact absurd (State.mem_nextSymbols_of_successor? hl) hx

theorem coreQuotient (h : Twins a b) (hf : Quotient a b f) : CoreQuotient a b f where
  begins := h.complete_left.size_pos
  cores i s hs := by
    obtain ⟨hi, rfl⟩ := getElem?_eq_some.mp hs
    exact ⟨b.get (f i), getElem?_eq_some.mpr ⟨(hf i hi).1, rfl⟩, (hf i hi).2⟩
  unique i j s s' hs hs' hc := by
    obtain ⟨hi, rfl⟩ := getElem?_eq_some.mp hs
    obtain ⟨hj, rfl⟩ := getElem?_eq_some.mp hs'
    exact h.eq_quotient hf hi hj hc
  onto j s' hs' := by
    obtain ⟨hj, rfl⟩ := getElem?_eq_some.mp hs'
    obtain ⟨path, hat⟩ := h.complete_right.exists_at hj
    obtain ⟨i, hi, hij⟩ := h.exists_left hf hj hat.cores.symm
    exact ⟨i, a.get i, getElem?_eq_some.mpr ⟨hi.lt, rfl⟩, hij⟩
  start := h.quotient_of_at hf h.complete_left.at_nil h.complete_right.at_nil
  recorded := by
    rintro i s (hs | hs) k hk x hx
    · obtain ⟨hi, rfl⟩ := getElem?_eq_some.mp hs
      exact h.complete_left.exists_next hi hk hx
    · obtain ⟨hi, rfl⟩ := getElem?_eq_some.mp hs
      exact h.complete_right.exists_next hi hk hx
  successor i s s' hs hs' x := by
    obtain ⟨hi, rfl⟩ := getElem?_eq_some.mp hs
    obtain ⟨-, rfl⟩ := getElem?_eq_some.mp hs'
    exact h.successor?_quotient hf hi x
  lookaheads j s' hs' k' hk' y := by
    obtain ⟨hj, rfl⟩ := getElem?_eq_some.mp hs'
    rw [(h.complete_right.built j hj).proper.mem_lookaheads_iff hk', h.mem_lookaheads_iff hf hj]
    constructor
    · rintro ⟨i, hi, hij, hp⟩
      exact ⟨i, a.get i, getElem?_eq_some.mpr ⟨hi, rfl⟩, hij, State.mem_pairs.mp hp⟩
    · rintro ⟨i, s, hs, hij, hp⟩
      obtain ⟨hi, rfl⟩ := getElem?_eq_some.mp hs
      exact ⟨i, hi, hij, State.mem_pairs.mpr hp⟩

end Twins

theorem twins_of_build {e : String} (ha : build g ⟨.lr1, e⟩ = .ok a)
    (hb : build g ⟨.lalr1, e⟩ = .ok b) : Twins a b where
  complete_left := complete_of_build ha
  complete_right := complete_of_build hb
  grammar := by rw [grammar_of_build ha, grammar_of_build hb]
  endOfInput := by rw [config_of_build ha, config_of_build hb]
  method_left := by rw [config_of_build ha]
  method_right := by rw [config_of_build hb]

/-- The LALR(1) table of a grammar with a start rule is the quotient of its LR(1) table, unless one
of the two has more states than there are state numbers. -/
theorem build_coreQuotient {r : Rule} (e : String) (h : g.startRule = .ok r) :
    build g ⟨.lr1, e⟩ = .error (.fault .tooManyStates) ∧ (Setup.new g ⟨.lr1, e⟩).Crowded ∨
      build g ⟨.lalr1, e⟩ = .error (.fault .tooManyStates) ∧ (Setup.new g ⟨.lalr1, e⟩).Crowded ∨
      ∃ a b f, build g ⟨.lr1, e⟩ = .ok a ∧ build g ⟨.lalr1, e⟩ = .ok b ∧ CoreQuotient a b f := by
  rcases build_cases h ⟨.lr1, e⟩ with herror | ⟨a, ha⟩
  · exact .inl herror
  rcases build_cases h ⟨.lalr1, e⟩ with herror | ⟨b, hb⟩
  · exact .inr (.inl herror)
  have htwins := twins_of_build ha hb
  obtain ⟨f, hf⟩ := htwins.exists_quotient
  exact .inr (.inr ⟨a, b, f, ha, hb, htwins.coreQuotient hf⟩)

theorem coreQuotient_sample : ∃ a b f, build (.ofEdits sampleEdits) ⟨.lr1, "EOI"⟩ = .ok a ∧
    build (.ofEdits sampleEdits) ⟨.lalr1, "EOI"⟩ = .ok b ∧ CoreQuotient a b f := by
  rcases build_coreQuotient "EOI" startRule_sample with ⟨herror, -⟩ | ⟨herror, -⟩ | hquotient
  · exact absurd herror (by decide +kernel)
  · exact absurd herror (by decide +kernel)
  · exact hquotient

end ShiftReduce.Table
