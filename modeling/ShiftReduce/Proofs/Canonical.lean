import ShiftReduce.Proofs.Tables

/-!
# Canonical collections

In LR(0) and in LR(1) the states of a table are the item sets that can be reached from the start by
closing and advancing, each of them once, and the recorded successors say which leads to which.
-/

namespace ShiftReduce.Table

/-- The states of the table are the canonical collection of its grammar. -/
structure Canonical (t : Table) : Prop where
  rules : ∀ (i : StateId) (s : State), t.states[i]? = some s → ∀ k ∈ s.items,
    k.rule ∈ t.grammar.rules
  number : ∀ (i : StateId) (s : State), t.states[i]? = some s → s.number = some i
  start : ∃ s : State, t.states[0]? = some s ∧ s.itemSet = (ItemSet.start t.config.method.looksAhead
    t.config.endOfInput).closure t.grammar t.config.method.looksAhead
  /-- A successor is recorded behind the symbols that items wait for. -/
  next_iff : ∀ (i : StateId) (s : State), t.states[i]? = some s → ∀ x,
    (∃ k ∈ s.items, k.nextSymbol? = some x) ↔ ∃ j, s.successor? x = some j
  /-- All items that wait for the symbol have recorded the same state, and its items are those that
  wait for the symbol, advanced over it and closed. -/
  successor : ∀ (i : StateId) (s : State), t.states[i]? = some s → ∀ x j, s.successor? x = some j →
    (∀ k ∈ s.items, k.nextSymbol? = some x → k.next = some j) ∧
      ∃ s' : State, t.states[j]? = some s' ∧
        s'.itemSet = (s.itemSet.advance t.grammar x).closure t.grammar t.config.method.looksAhead
  distinct : ∀ (i j : StateId) (s s' : State), t.states[i]? = some s → t.states[j]? = some s' →
    s.itemSet = s'.itemSet → i = j
  parent : ∀ n, 0 < n → n < t.size → ∃ (m : StateId) (s : State) (x : Symbol), m < n ∧
    t.states[m]? = some s ∧ s.successor? x = some n

variable {t : Table} {g : Grammar}

theorem Complete.canonical (h : t.Complete) (hm : t.config.method ≠ .lalr1) : t.Canonical where
  rules i s hs := by
    obtain ⟨hi, rfl⟩ := getElem?_eq_some.mp hs
    exact (h.built i hi).proper.rules
  number i s hs := by
    obtain ⟨hi, rfl⟩ := getElem?_eq_some.mp hs
    exact h.number i hi
  start := ⟨t.get 0, getElem?_eq_some.mpr ⟨h.size_pos, rfl⟩, h.start_eq hm⟩
  next_iff i s hs x := by
    obtain ⟨hi, rfl⟩ := getElem?_eq_some.mp hs
    rw [← State.mem_nextSymbols]
    exact ⟨h.linked i x, fun ⟨j, hj⟩ => State.mem_nextSymbols_of_successor? hj⟩
  successor i s hs x j hj := by
    obtain ⟨hi, rfl⟩ := getElem?_eq_some.mp hs
    refine ⟨fun k hk hx => ?_, t.get j, getElem?_eq_some.mpr ⟨(h.leads i x j hj).1, rfl⟩,
      h.successor_eq hm hj⟩
    rw [(h.built i hi).uniform k hk x hx, hj]
  distinct i j s s' hs hs' he := by
    obtain ⟨hi, rfl⟩ := getElem?_eq_some.mp hs
    obtain ⟨hj, rfl⟩ := getElem?_eq_some.mp hs'
    exact h.distinct i j hi hj ⟨h.cores_eq hi hj (by rw [he]), fun _ => by rw [he]⟩
  parent n hn hlt := by
    obtain ⟨m, x, hmn, hx⟩ := h.parent n hn hlt
    exact ⟨m, t.get m, x, hmn, getElem?_eq_some.mpr ⟨hmn.trans hlt, rfl⟩, hx⟩

/-- A grammar with a start rule has a table with its canonical collection in LR(0) and LR(1), unless
there are more item sets on its paths than there are state numbers. -/
theorem build_canonical {r : Rule} {m : Method} (e : String) (h : g.startRule = .ok r)
    (hm : m ≠ .lalr1) :
    build g ⟨m, e⟩ = .error (.fault .tooManyStates) ∧ (Setup.new g ⟨m, e⟩).Crowded ∨
      ∃ t, build g ⟨m, e⟩ = .ok t ∧ t.grammar = g ∧ t.config = ⟨m, e⟩ ∧ t.Canonical := by
  rcases build_cases h ⟨m, e⟩ with herror | ⟨t, ht⟩
  · exact .inl herror
  · refine .inr ⟨t, ht, grammar_of_build ht, config_of_build ht,
      (complete_of_build ht).canonical ?_⟩
    rw [config_of_build ht]
    exact hm

theorem canonical_sample : ∃ t, build (.ofEdits sampleEdits) ⟨.lr1, "EOI"⟩ = .ok t ∧
    t.Canonical := by
  rcases build_canonical "EOI" startRule_sample (show Method.lr1 ≠ .lalr1 by decide) with
    ⟨herror, -⟩ | ⟨t, ht, -, -, hcanonical⟩
  · exact absurd herror (by decide +kernel)
  · exact ⟨t, ht, hcanonical⟩

end ShiftReduce.Table
