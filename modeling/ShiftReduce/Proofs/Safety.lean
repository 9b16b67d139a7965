import ShiftReduce.Proofs.Termination

/-!
# The construction meets no fault

Items are of rules of the grammar, recorded successors and queued states exist, and a state goes on
having the cores of the successors that led to it, however its lookaheads grow. So no step is taken
outside its contract; a step fails only if there is no number for a new state. Only LALR(1) lets
lookaheads grow: in the other classes nothing is ever propagated.
-/

namespace ShiftReduce

/-- In LR(0) items have no lookaheads to begin with. -/
theorem State.Built.orderly {u : Setup} {s : State} (h : State.Built u s) : s.Orderly := by
  refine ⟨h.proper.nodup, fun i hi => ?_⟩
  cases hm : s.method with
  | lr0 =>
    have hempty := Setup.lookaheads_eq_empty (h.method ▸ hm) h.bounded
    refine OrderedSet.ext (List.eq_nil_iff_forall_not_mem.mpr fun y hy => ?_).symm
    have hp : (i.core, y) ∈ s.itemSet.lookaheads := State.mem_pairs.mpr ⟨i, hi, rfl, hy⟩
    rw [hempty] at hp
    exact hp
  | lr1 => rfl
  | lalr1 => rfl

namespace Collection

/-- The draft of the start state comes from adding its item. -/
theorem gathered_start {u : Setup} {s : State} (h : u.start u.config.method = .ok s) :
    s.Gathered := by
  have hnodup := (State.proper_start h).nodup
  obtain ⟨r, -, rfl⟩ := State.start_eq_ok h
  refine State.Orderly.gathered ⟨hnodup, fun i hi => ?_⟩ rfl rfl fun i hi => ?_
  · rw [List.mem_singleton.mp hi]
    cases hm : u.config.method <;> rfl
  · rw [List.mem_singleton.mp hi]
    rfl

variable {u : Setup} {c : Collection}

theorem lt_of_mem_items {i : StateId} {k : Item} (h : k ∈ (c.get i).items) : i < c.size := by
  by_contra hi
  rw [get_of_le (Nat.le_of_not_lt hi)] at h
  cases h

/-- A recorded successor goes on matching the successor that it stands for. -/
theorem Inv.mergeable {i j : StateId} {x : Symbol} (h : Inv u c)
    (hx : x ∈ (c.get i).nextSymbols) (hj : (c.get i).successor? x = some j) :
    (c.get j).mergeable ((c.get i).closedSuccessor u x) = true := by
  obtain ⟨hlt, hcores, hexact⟩ := h.leads i x j hj
  have hi := h.built i (lt_of_successor? hj)
  refine (State.mergeable_iff (h.built j hlt).proper.nodup
    ((h.method hlt).trans (hi.closedSuccessor hx).method.symm)).mpr ⟨hcores, fun h1 => ?_⟩
  rw [hexact]
  rw [← h.method hlt, h1]
  decide

namespace Stage

variable {n : Nat} {a : Stage} {w : Worklist StateId} {k : Resume}

/-- A run of the construction keeps to what is expected of its class. -/
theorem Reached.expected (h : Reached u n a) :
    ∀ e ∈ a.collection.events, e.Expected u.config.method := by
  obtain ⟨b, hb, hturns⟩ := h
  obtain ⟨r, hr⟩ := startRule_of_first hb
  obtain ⟨c, hc, -, -, hevents⟩ := exists_first hr
  obtain rfl := Except.ok.inj (hc.symm.trans hb)
  obtain ⟨new, hnew, hall⟩ := ((sound_of_first hb).turns hturns).2.1.events
  intro e he
  rw [hnew, List.mem_append] at he
  rcases he with he | he
  · exact hall e he
  · rw [hevents, List.mem_singleton] at he
    rw [he]
    trivial

theorem Sound.queue_lt (h : Sound u ⟨c, .propagate w k⟩) : ∀ i ∈ w.queue, i < c.size := by
  obtain ⟨-, exempt, hwork⟩ := h.working
  exact hwork.lt

/-- A step fails only if every state number is taken. -/
theorem Sound.full (h : Sound u a) {f : Fault} (hf : step u a = .error f) :
    f = .tooManyStates ∧ a.collection.size = stateLimit := by
  cases h.outcome with
  | finished hend => exact absurd (hend.symm.trans hf) (by simp)
  | full hfull hsize =>
    obtain rfl := Except.error.inj (hfull.symm.trans hf)
    exact ⟨rfl, hsize⟩
  | next _ hnext => exact absurd (hnext.symm.trans hf) (by simp)

/-- The run ends in the collection that is answered, or where no number is left. -/
theorem exists_reached (ha : first u = .ok a) :
    (∃ c n, build u = .ok c ∧ Reached u n ⟨c, .visit⟩) ∨
      build u = .error (.fault .tooManyStates) ∧
        ∃ n a, Reached u n a ∧ a.collection.size = stateLimit := by
  obtain ⟨n, b, hturns, hend⟩ := exists_end ha
  rcases hend with ⟨-, hbuild⟩ | ⟨-, hsize, hbuild⟩
  · obtain ⟨a', m, ha', hends⟩ := ends_of_build hbuild
    exact .inl ⟨_, m, hbuild, a', ha', hends.turns⟩
  · exact .inr ⟨hbuild, n, b, ⟨a, ha, hturns⟩, hsize⟩

/-! ## The whole construction -/

/-- What it means that the construction meets no fault. -/
structure Faultless (u : Setup) : Prop where
  begins : ∃ a, first u = .ok a
  /-- A step fails only if every state number is taken. -/
  steps : ∀ n a f, Reached u n a → step u a = .error f →
    f = .tooManyStates ∧ a.collection.size = stateLimit
  answers : (∃ c n, build u = .ok c ∧ Reached u n ⟨c, .visit⟩) ∨
    build u = .error (.fault .tooManyStates) ∧
      ∃ n a, Reached u n a ∧ a.collection.size = stateLimit
  /-- Drafts are formed and closed by adding items, and none is refused. -/
  start : ∀ s, u.start u.config.method = .ok s → s.Gathered ∧ s.Closes u (s.close u)
  drafts : ∀ n a s, Reached u n a → s ∈ a.drafts → s.Gathered ∧ s.Closes u (s.close u)
  rules : ∀ n a i k, Reached u n a → k ∈ (a.collection.get i).items →
    u.grammar.rule k.rule.id = .ok k.rule
  successors : ∀ n a i x j, Reached u n a → (a.collection.get i).successor? x = some j →
    j < a.collection.size
  queued : ∀ n c w k i, Reached u n ⟨c, .propagate w k⟩ → i ∈ w.queue → i < c.size
  /-- Recorded successors match what is formed anew. -/
  matching : ∀ n a i x j, Reached u n a → x ∈ (a.collection.get i).nextSymbols →
    (a.collection.get i).successor? x = some j →
    (a.collection.get j).mergeable ((a.collection.get i).closedSuccessor u x) = true
  /-- No event tells of a successor that does not match. -/
  events : ∀ n a e, Reached u n a → e ∈ a.collection.events → e.Expected u.config.method
  cores : ∀ n a m b i, Reached u n a → Turns (step u) m a b → i < a.collection.size →
    (b.collection.get i).cores = (a.collection.get i).cores
  /-- Only LALR(1) propagates lookaheads. -/
  quiet : u.config.method ≠ .lalr1 → ∀ n c w k, ¬Reached u n ⟨c, .propagate w k⟩
  fixed : u.config.method ≠ .lalr1 → ∀ n a m b i, Reached u n a → Turns (step u) m a b →
    i < a.collection.size → (b.collection.get i).lookaheads = (a.collection.get i).lookaheads

/-- The construction of a grammar with a start rule meets no fault, as long as there are numbers for
its states; no successor ever fails to match, and in LR(0) and LR(1) lookaheads never change. -/
theorem faultless {g : Grammar} {r : Rule} (h : g.startRule = .ok r) (config : Config) :
    Faultless (.new g config) := by
  have hr : (Setup.new g config).grammar.startRule = .ok r := h
  obtain ⟨c, hc, -⟩ := exists_first hr
  constructor
  case begins => exact ⟨_, hc⟩
  case steps => exact fun n a f ha hf => ha.sound.full hf
  case answers => exact exists_reached hc
  case start =>
    intro s hs
    exact ⟨gathered_start hs, State.closes_start hs⟩
  case drafts =>
    intro n a s ha hs
    obtain ⟨t, x, ht, -, rfl⟩ := ha.sound.exists_of_mem_drafts hs
    exact ⟨ht.orderly.gathered_successorDraft x, ht.closes_successorDraft x⟩
  case rules =>
    intro n a i k ha hk
    have hi := lt_of_mem_items hk
    exact Grammar.rule_id ((ha.sound.inv.built i hi).proper.rules k hk)
  case successors => exact fun n a i x j ha hj => (ha.sound.inv.leads i x j hj).1
  case queued => exact fun n c w k i ha => ha.sound.queue_lt i
  case matching => exact fun n a i x j ha => ha.sound.inv.mergeable
  case events => exact fun n a e ha => ha.expected e
  case cores => exact fun n a m b i ha hturns => (ha.sound.turns hturns).2.1.cores i
  case quiet => exact fun hm n c w k ha => hm ha.sound.working.1
  case fixed => exact fun hm n a m b i ha hturns => (ha.sound.turns hturns).2.1.lookaheads hm i

/-- The rules `START ::= S`, `S ::= a E c`, `S ::= b b E d` and `E ::= e f`. In LALR(1) the state
behind `e` gets the lookahead `d` when it has been visited. -/
def carryingEdits : List Edit :=
  [.addRule ⟨startName, [.intermediate "S"], ""⟩,
    .addRule ⟨"S", [.terminal "a", .intermediate "E", .terminal "c"], ""⟩,
    .addRule ⟨"S", [.terminal "b", .terminal "b", .intermediate "E", .terminal "d"], ""⟩,
    .addRule ⟨"E", [.terminal "e", .terminal "f"], ""⟩]

def carryingSetup : Setup := .new (.ofEdits carryingEdits) ⟨.lalr1, "EOI"⟩

/-- A state whose lookaheads have just grown is queued, and it exists. -/
theorem faultless_sample : Faultless (.new (.ofEdits sampleEdits) ⟨.lr1, "EOI"⟩) ∧
    Faultless carryingSetup ∧ ∃ n c w k, Reached carryingSetup n ⟨c, .propagate w k⟩ ∧
      c.events.head? = some (.carried 5 8) ∧ w.queue = [8] ∧ 8 < c.size := by
  have hstart : (Grammar.ofEdits carryingEdits).startRule =
      .ok ⟨⟨startName, [.intermediate "S"], ""⟩, startId⟩ := by
    decide +kernel
  have hfaultless : Faultless carryingSetup := faultless hstart ⟨.lalr1, "EOI"⟩
  have hrun : (first carryingSetup).map (fun a =>
      (Turns.iterate (step carryingSetup) 24 a).map fun b? =>
        b?.map fun b => (b.collection.events.head?, b.queue)) =
          .ok (.ok (some (some (.carried 5 8), [8]))) := by
    decide +kernel
  obtain ⟨a, ha, hturns⟩ := exists_of_map_eq_ok hrun
  obtain ⟨b?, hb, hlast⟩ := exists_of_map_eq_ok hturns
  obtain ⟨⟨c, task⟩, rfl, hstage⟩ := Option.map_eq_some_iff.mp hlast
  obtain ⟨hevent, hqueue⟩ := Prod.mk.inj hstage
  cases task with
  | propagate w k =>
    have hw : w.queue = [8] := hqueue
    have hreached : Reached carryingSetup 24 ⟨c, .propagate w k⟩ := ⟨a, ha, .of_iterate hb⟩
    have hlt : 8 < c.size := hfaultless.queued _ _ _ _ _ hreached (by rw [hw, List.mem_singleton])
    refine ⟨faultless startRule_sample ⟨.lr1, "EOI"⟩, hfaultless, ?_⟩
    exact ⟨24, c, w, k, hreached, hevent, hw, hlt⟩
  | visit => cases hqueue
  | place id s drafts => cases hqueue

end Stage

end Collection

end ShiftReduce
