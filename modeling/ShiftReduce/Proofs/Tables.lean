import ShiftReduce.Proofs.Visits
import ShiftReduce.Table.Basic

/-!
# Complete tables

What is known of the states of a table: they are built, every symbol that an item waits for has a
recorded successor, and a recorded successor has at least the items of the successor of the item
set. Building a table leads to such a table, or the setup is crowded.
-/

namespace ShiftReduce

namespace Table

def setup (t : Table) : Setup := .new t.grammar t.config

/-- The state `i`, or a state without items if there is none. -/
def get (t : Table) (i : StateId) : State := t.states[i]?.getD (.draft .lr0)

/-- A table that holds the states of a collection all of which have been visited. -/
structure Complete (t : Table) : Prop where
  built : ∀ i, i < t.size → State.Built t.setup (t.get i)
  number : ∀ i, i < t.size → (t.get i).number = some i
  distinct : ∀ i j, i < t.size → j < t.size → (t.get i).Alike (t.get j) → i = j
  linked : ∀ i x, x ∈ (t.get i).nextSymbols → ∃ j, (t.get i).successor? x = some j
  leads : ∀ i x j, (t.get i).successor? x = some j →
    j < t.size ∧ Collection.StandsFor t.setup (t.get j) ((t.get i).closedSuccessor t.setup x)
  carried : ∀ i x j, (t.get i).successor? x = some j →
    (t.setup.successor (t.get i).itemSet x).lookaheads ⊆ (t.get j).itemSet.lookaheads
  size_pos : 0 < t.size
  size_le : t.size ≤ stateLimit
  start_le : t.setup.along [] ≤ (t.get 0).itemSet
  start_cores : (t.get 0).itemSet.cores = (t.setup.along []).cores
  start_eq : t.config.method ≠ .lalr1 → (t.get 0).itemSet = t.setup.along []
  numbered : Numbered t.get t.size

variable {t : Table} {g : Grammar} {config : Config} {i j : StateId} {x : Symbol}

theorem getElem?_eq_some {s : State} : t.states[i]? = some s ↔ i < t.size ∧ t.get i = s := by
  constructor
  · intro h
    obtain ⟨hi, rfl⟩ := Array.getElem?_eq_some_iff.mp h
    exact ⟨hi, by rw [get, h]; rfl⟩
  · rintro ⟨hi, rfl⟩
    have hi : i < t.states.size := hi
    rw [get, Array.getElem?_eq_getElem hi]
    rfl

theorem complete_of_atRest {c : Collection} (h : Collection.AtRest (.new g config) c)
    (hall : c.size ≤ c.visited) : (⟨g, config, c.states⟩ : Table).Complete where
  built := h.inv.built
  number := h.inv.number
  distinct := h.inv.distinct
  linked i x hx := by
    have hi := Collection.lt_of_mem_nextSymbols (c := c) hx
    exact Option.isSome_iff_exists.mp (h.linked i (hi.trans_le hall) x hx)
  leads := h.inv.leads
  carried := h.carried
  size_pos := h.connected.size_pos
  size_le := h.inv.size_le
  start_le := h.connected.start_le
  start_cores := h.connected.start_cores
  start_eq := h.connected.start_eq
  numbered := h.connected.numbered

theorem build_eq_ok_iff : build g config = .ok t ↔
    ∃ c, Collection.build (.new g config) = .ok c ∧ t = ⟨g, config, c.states⟩ := by
  unfold build
  cases Collection.build (.new g config) with
  | error f => simp [bind, Except.bind]
  | ok c => simp [bind, Except.bind, eq_comm]

theorem grammar_of_build (h : build g config = .ok t) : t.grammar = g := by
  obtain ⟨c, -, rfl⟩ := build_eq_ok_iff.mp h
  rfl

theorem config_of_build (h : build g config = .ok t) : t.config = config := by
  obtain ⟨c, -, rfl⟩ := build_eq_ok_iff.mp h
  rfl

theorem complete_of_build (h : build g config = .ok t) : t.Complete := by
  obtain ⟨c, hc, rfl⟩ := build_eq_ok_iff.mp h
  obtain ⟨hreached, hall⟩ := Collection.reached_of_build hc
  exact complete_of_atRest hreached.atRest hall

theorem setup_of_build (h : build g config = .ok t) : t.setup = .new g config := by
  rw [setup, grammar_of_build h, config_of_build h]

/-- With a start rule a table is built, unless there are too many states. -/
theorem build_cases {r : Rule} (h : g.startRule = .ok r) (config : Config) :
    build g config = .error (.fault .tooManyStates) ∧ (Setup.new g config).Crowded ∨
      ∃ t, build g config = .ok t := by
  have hr : (Setup.new g config).grammar.startRule = .ok r := h
  rcases Collection.build_cases hr with ⟨herror, hcrowded⟩ | ⟨c, hc⟩
  · exact .inl ⟨by simp only [build, herror, bind, Except.bind], hcrowded⟩
  · exact .inr ⟨_, build_eq_ok_iff.mpr ⟨c, hc, rfl⟩⟩

/-- Without a start rule no table is built. -/
theorem build_of_startless (hg : g.start? = none) (config : Config) :
    build g config = .error (.missingStartRule startName) := by
  have hrule : g.startRule = .error (.missingStartRule startName) := by
    unfold Grammar.startRule
    rw [hg]
  have hstart : (Setup.new g config).start config.method =
      .error (.missingStartRule startName) := by
    show (g.startRule >>= _) = _
    rw [hrule]
    rfl
  have hbuild : Collection.build (.new g config) = .error (.missingStartRule startName) := by
    unfold Collection.build
    rw [show (Setup.new g config).config = config from rfl, hstart]
  unfold build
  rw [hbuild]
  rfl

namespace Complete

theorem method (h : t.Complete) (hi : i < t.size) : (t.get i).method = t.config.method :=
  (h.built i hi).method

/-- Every state but the first is the successor of one before it. -/
theorem parent (h : t.Complete) (j : StateId) (hj : 0 < j) (hlt : j < t.size) :
    ∃ i x, i < j ∧ (t.get i).successor? x = some j := by
  obtain ⟨i, x, hi, hx, -⟩ := h.numbered j hj hlt
  exact ⟨i, x, hi, hx⟩

/-- An item that waits for a symbol has recorded the successor of its state. -/
theorem exists_next (h : t.Complete) (hi : i < t.size) {k : Item} (hk : k ∈ (t.get i).items)
    (hx : k.nextSymbol? = some x) : ∃ j, k.next = some j ∧ (t.get i).successor? x = some j := by
  obtain ⟨j, hj⟩ := h.linked i x (State.mem_nextSymbols.mpr ⟨k, hk, hx⟩)
  exact ⟨j, ((h.built i hi).uniform k hk x hx).trans hj, hj⟩

theorem lt_of_successor? (hj : (t.get i).successor? x = some j) : i < t.size := by
  by_contra hi
  have hnone : t.states[i]? = none := Array.getElem?_eq_none (Nat.le_of_not_lt hi)
  rw [get, hnone] at hj
  cases hj

theorem successor_cores (h : t.Complete) (hj : (t.get i).successor? x = some j) :
    (t.get j).itemSet.cores = (t.setup.successor (t.get i).itemSet x).cores := by
  rw [← (h.built i (lt_of_successor? hj)).itemSet_closedSuccessor]
  exact State.itemSet_cores_eq (h.leads i x j hj).2.1

theorem successor_le (h : t.Complete) (hj : (t.get i).successor? x = some j) :
    t.setup.successor (t.get i).itemSet x ≤ (t.get j).itemSet :=
  ⟨(h.successor_cores hj).superset, h.carried i x j hj⟩

theorem successor_eq (h : t.Complete) (hm : t.config.method ≠ .lalr1)
    (hj : (t.get i).successor? x = some j) :
    (t.get j).itemSet = t.setup.successor (t.get i).itemSet x := by
  rw [← (h.built i (lt_of_successor? hj)).itemSet_closedSuccessor]
  exact (h.leads i x j hj).2.2 hm

/-- Except in LR(1), the cores determine the state. -/
theorem eq_of_cores_eq (h : t.Complete) (hm : t.config.method ≠ .lr1) (hi : i < t.size)
    (hj : j < t.size) (hc : (t.get i).cores = (t.get j).cores) : i = j :=
  h.distinct i j hi hj ⟨hc, fun h1 => absurd ((h.method hi).symm.trans h1) hm⟩

/-- States with the same cores, as sets, have the same list of cores. -/
theorem cores_eq (h : t.Complete) (hi : i < t.size) (hj : j < t.size)
    (hc : (t.get i).itemSet.cores = (t.get j).itemSet.cores) : (t.get i).cores = (t.get j).cores :=
  State.cores_eq_of_mem_iff rfl (h.built i hi).kernel (h.built j hj).kernel
    fun c => Set.ext_iff.mp hc c

end Complete

end Table

/-! ## A grammar to try -/

/-- The rules `START ::= S`, `S ::= C C`, `C ::= c C` and `C ::= d`. In LR(1) they have states that
LALR(1) makes one. -/
def sampleEdits : List Edit :=
  [.addRule ⟨startName, [.intermediate "S"], ""⟩,
    .addRule ⟨"S", [.intermediate "C", .intermediate "C"], ""⟩,
    .addRule ⟨"C", [.terminal "c", .intermediate "C"], ""⟩, .addRule ⟨"C", [.terminal "d"], ""⟩]

theorem startRule_sample : (Grammar.ofEdits sampleEdits).startRule =
    .ok ⟨⟨startName, [.intermediate "S"], ""⟩, startId⟩ := by
  decide +kernel

theorem start_not_mem_sample :
    ∀ q ∈ (Grammar.ofEdits sampleEdits).rules, .intermediate startName ∉ q.right := by
  decide +kernel

end ShiftReduce
