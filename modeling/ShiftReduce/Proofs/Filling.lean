import Mathlib.Order.Bounds.Defs
import ShiftReduce.Proofs.Sweeps
import ShiftReduce.State.Filling

/-!
# Drafts and their closures

A draft that has been filled with items of a grammar is closed exactly: item by item, in finitely
many steps, its closure comes to hold the least cores that the items wait for, and these get the
least lookaheads that FIRST asks for. The items of the draft stay in front, and the order of the
others depends on the cores of the draft alone.
-/

namespace ShiftReduce

/-! ## What a closure has to hold -/

namespace Grammar

/-- The symbols that can come first when `rest` is read and one of `la` follows it. -/
def firstBehind (g : Grammar) (rest : List Symbol) (la : Set Symbol) : Set Symbol :=
  {y | (∃ x, y = .terminal x ∧ g.Begins rest x) ∨ g.Derives rest [] ∧ y ∈ la}

/-- With a core that waits for an intermediate there are those that begin its alternatives. -/
def ClosedCores (g : Grammar) (C : Set Core) : Prop :=
  ∀ c ∈ C, ∀ q ∈ g.rules, ∀ rest, g.Waits c (.intermediate q.left) rest → ⟨q.id, 0⟩ ∈ C

/-- What comes first behind the intermediate that a core waits for can follow its alternatives. -/
def ClosedLookaheads (g : Grammar) (C : Set Core) (L : Set (Core × Symbol)) : Prop :=
  ∀ c ∈ C, ∀ q ∈ g.rules, ∀ rest, g.Waits c (.intermediate q.left) rest →
    ∀ y ∈ g.firstBehind rest {z | (c, z) ∈ L}, (⟨q.id, 0⟩, y) ∈ L

end Grammar

namespace State

/-- The rules and dots of the items, in their order. -/
def dotted (s : State) : List (Rule × Nat) := s.items.map fun i => (i.rule, i.dot)

/-- Closing `s` is over after finitely many steps and gives its closure. -/
structure ClosesExactly (u : Setup) (s : State) : Prop where
  ends : s.Closes u (s.close u)
  /-- The FIRST sets of the setup are those of the grammar. -/
  first : ∀ rest la y, y ∈ u.first.firstWith rest la ↔ y ∈ u.grammar.firstBehind rest {z | z ∈ la}
  proper : (s.close u).Proper u.grammar
  cores : IsLeast {C : Set Core | (∀ c ∈ s.cores, c ∈ C) ∧ u.grammar.ClosedCores C}
    {c | c ∈ (s.close u).cores}
  /-- Without lookaheads the cores are all there is. -/
  bare : s.method = .lr0 → ∀ i ∈ (s.close u).items, i.lookaheads = ∅
  lookaheads : s.method ≠ .lr0 →
    IsLeast {L : Set (Core × Symbol) | (∀ i ∈ s.items, ∀ y ∈ i.lookaheads, (i.core, y) ∈ L) ∧
        u.grammar.ClosedLookaheads {c | c ∈ (s.close u).cores} L}
      {p | ∃ i ∈ (s.close u).items, i.core = p.1 ∧ p.2 ∈ i.lookaheads}
  /-- The items of the draft stay first and in order. -/
  kept : s.dotted <+: (s.close u).dotted
  /-- In whatever class and with whatever lookaheads a draft has the same cores, it closes into the
  same list of cores. -/
  order : ∀ (v : Setup) (m : Method) (additions : List Addition), v.grammar = u.grammar →
    (∀ a ∈ additions, a.rule ∈ u.grammar.rules) → ((draft m).fill additions).cores = s.cores →
    (((draft m).fill additions).close v).cores = (s.close u).cores

/-! ## Filled drafts -/

section Filling

variable {g : Grammar} {m : Method} {s t : State} {a : Addition} {additions : List Addition}

/-- A state that is still being filled with items of the grammar. -/
structure Filled (g : Grammar) (m : Method) (s : State) : Prop where
  proper : s.Proper g
  opened : s.closed = false
  method : s.method = m
  orderly : s.Orderly

theorem filled_draft (g : Grammar) (m : Method) : Filled g m (draft m) where
  proper := ⟨nofun, List.nodup_nil⟩
  opened := rfl
  method := rfl
  orderly := ⟨List.nodup_nil, nofun⟩

/-- Every addition of an item of the grammar keeps a state filled, whether it fails or not. -/
theorem Filled.accept (h : Filled g m s) (ha : a.rule ∈ g.rules) : Filled g m (s.accept a) := by
  unfold State.accept
  cases hadd : s.add a.rule a.dot a.lookaheads with
  | error e => exact h
  | ok p =>
    obtain ⟨t, grew⟩ := p
    obtain ⟨hadded, ht⟩ := add_eq_ok h.orderly.nodup hadd
    refine ⟨⟨fun k hk => ?_, hadded.nodup⟩, hadded.closed.trans h.opened,
      hadded.method.trans h.method, h.orderly.add hadd⟩
    rcases ht with rfl | ⟨-, hd, rfl⟩
    · obtain ⟨i, hi, rfl⟩ := List.mem_map.mp hk
      split
      · exact h.proper.rules i hi
      · exact h.proper.rules i hi
    · rcases List.mem_append.mp hk with hk | hk
      · exact h.proper.rules k hk
      · rw [List.mem_singleton.mp hk]
        exact ha

theorem Filled.fill (h : Filled g m s) (ha : ∀ a ∈ additions, a.rule ∈ g.rules) :
    Filled g m (s.fill additions) := by
  induction additions generalizing s with
  | nil => exact h
  | cons a additions ih =>
    obtain ⟨hfirst, hrest⟩ := List.forall_mem_cons.mp ha
    exact ih (h.accept hfirst) hrest

theorem filled_fill (m : Method) (ha : ∀ a ∈ additions, a.rule ∈ g.rules) :
    Filled g m ((draft m).fill additions) :=
  (filled_draft g m).fill ha

end Filling

/-! ## Closing a filled draft -/

section Closing

variable {u : Setup} {m : Method} {s : State}

/-- The closed cores are in every closed set of cores above those of the draft. -/
theorem isLeast_cores_close (hs : s.Proper u.grammar) (hopen : s.closed = false) :
    IsLeast {C : Set Core | (∀ c ∈ s.cores, c ∈ C) ∧ u.grammar.ClosedCores C}
      {c | c ∈ (s.close u).cores} := by
  have hclosure : {c | c ∈ (s.close u).cores} =
      (s.itemSet.closure u.grammar s.method.looksAhead).cores :=
    congrArg ItemSet.cores (itemSet_close hs hopen)
  rw [hclosure]
  refine ⟨⟨fun c hc => .given hc, fun c hc q hq rest hw => .alternative hc hw hq⟩, ?_⟩
  rintro C ⟨hdraft, hclosed⟩ c hc
  induction hc with
  | given hc => exact hdraft _ hc
  | alternative _ hw hq ih => exact hclosed _ ih _ hq _ hw

theorem isLeast_lookaheads_close (hs : s.Proper u.grammar) (hopen : s.closed = false)
    (hm : s.method ≠ .lr0) :
    IsLeast {L : Set (Core × Symbol) | (∀ i ∈ s.items, ∀ y ∈ i.lookaheads, (i.core, y) ∈ L) ∧
        u.grammar.ClosedLookaheads {c | c ∈ (s.close u).cores} L}
      {p | ∃ i ∈ (s.close u).items, i.core = p.1 ∧ p.2 ∈ i.lookaheads} := by
  have hahead : s.method.looksAhead = true := decide_eq_true hm
  have hset := itemSet_close (u := u) hs hopen
  have hcores (c : Core) : c ∈ (s.close u).cores ↔ ItemSet.ClosureCore u.grammar s.itemSet c :=
    Set.ext_iff.mp (congrArg ItemSet.cores hset) c
  have hclosure : {p : Core × Symbol | ∃ i ∈ (s.close u).items, i.core = p.1 ∧ p.2 ∈ i.lookaheads} =
      (s.itemSet.closure u.grammar s.method.looksAhead).lookaheads := by
    rw [← hset]
    exact Set.ext fun ⟨_, _⟩ => mem_pairs.symm
  rw [hclosure]
  refine ⟨⟨fun i hi y hy => .given (mem_pairs.mpr ⟨i, hi, rfl, hy⟩), ?_⟩, ?_⟩
  · rintro c hc q hq rest hw y (⟨x, rfl, hx⟩ | ⟨hn, hy⟩)
    · exact .first ((hcores c).mp hc) hw hq hahead hx
    · exact .pass hy hw hq hahead hn
  · rintro L ⟨hdraft, hclosed⟩ ⟨c, y⟩ hp
    rw [ItemSet.mem_lookaheads_closure] at hp
    induction hp with
    | given h =>
      obtain ⟨i, hi, rfl, hy⟩ := mem_pairs.mp h
      exact hdraft i hi _ hy
    | first h hw hq _ hx =>
      exact hclosed _ ((hcores _).mpr h) _ hq _ hw _ (.inl ⟨_, rfl, hx⟩)
    | @pass d q rest y h hw hq _ hn ih =>
      -- a core with a lookahead is a core of the closed state
      have hd : d ∈ (s.close u).cores := by
        have hp : (d, y) ∈ (s.close u).itemSet.lookaheads := by
          rw [hset]
          exact h
        obtain ⟨i, hi, rfl, -⟩ := mem_pairs.mp hp
        exact mem_cores.mpr ⟨i, hi, rfl⟩
      exact hclosed _ hd _ hq _ hw _ (.inr ⟨hn, ih⟩)

/-- In LR(0) a draft has no lookaheads, and closing brings none. -/
theorem Filled.lookaheads_close_eq_empty (h : Filled u.grammar .lr0 s) {i : Item}
    (hi : i ∈ (s.close u).items) : i.lookaheads = ∅ := by
  have hdraft : s.itemSet.Bounded u.grammar false u.config.endOfInput := by
    rintro ⟨c, y⟩ hp
    obtain ⟨j, hj, -, hy⟩ := mem_pairs.mp hp
    rw [← h.orderly.carries j hj, h.method] at hy
    exact absurd hy (OrderedSet.not_mem_empty y)
  have hclosed : (s.close u).itemSet.lookaheads = ∅ := by
    rw [itemSet_close h.proper h.opened, h.method]
    exact hdraft.closure.lookaheads_eq_empty
  refine OrderedSet.ext (List.eq_nil_iff_forall_not_mem.mpr fun y hy => ?_)
  have hp : (i.core, y) ∈ (s.close u).itemSet.lookaheads := mem_pairs.mpr ⟨i, hi, rfl, hy⟩
  rw [hclosed] at hp
  exact hp

theorem dotted_prefix_close (hopen : s.closed = false) : s.dotted <+: (s.close u).dotted := by
  have hdraft : (s.items.map (adjust u (s.expansions u))).map (fun i => (i.rule, i.dot)) =
      s.dotted := by
    rw [List.map_map]
    exact List.map_congr_left fun i _ => by simp only [Function.comp_apply, rule_adjust, dot_adjust]
  unfold dotted at hdraft ⊢
  rw [items_close hopen, List.map_append, hdraft]
  exact List.prefix_append _ _

/-- Every draft that items of the grammar have been added to is closed exactly. -/
theorem closesExactly_fill (u : Setup) (m : Method) {additions : List Addition}
    (h : ∀ a ∈ additions, a.rule ∈ u.grammar.rules) :
    ClosesExactly u ((draft m).fill additions) := by
  have hs : Filled u.grammar m ((draft m).fill additions) := filled_fill m h
  constructor
  case ends => exact closes hs.proper.nodup hs.opened
  case first => exact fun rest la y => mem_firstWith_setup
  case proper => exact proper_close hs.proper
  case cores => exact isLeast_cores_close hs.proper hs.opened
  case bare =>
    intro hm i hi
    rw [hs.method] at hm
    subst hm
    exact hs.lookaheads_close_eq_empty hi
  case lookaheads => exact isLeast_lookaheads_close hs.proper hs.opened
  case kept => exact dotted_prefix_close hs.opened
  case order =>
    intro v m' additions' hg h' hcores
    have hs' : Filled v.grammar m' ((draft m').fill additions') := filled_fill m' (hg ▸ h')
    exact cores_close_congr hg hs'.proper hs.proper hcores hs'.opened hs.opened

/-- The rules `START ::= S`, `S ::= S A a`, `S ::= A`, `A ::=` and `A ::= b S`. -/
def leftEdits : List Edit :=
  [.addRule ⟨startName, [.intermediate "S"], ""⟩,
    .addRule ⟨"S", [.intermediate "S", .intermediate "A", .terminal "a"], ""⟩,
    .addRule ⟨"S", [.intermediate "A"], ""⟩,
    .addRule ⟨"A", [], ""⟩, .addRule ⟨"A", [.terminal "b", .intermediate "S"], ""⟩]

/-- The items `A ::= b • S, EOI` and `S ::= • A, c`, and one that is refused. -/
def leftAdditions : List Addition :=
  [⟨⟨⟨"A", [.terminal "b", .intermediate "S"], ""⟩, 5⟩, 1, .ofList [.terminal "EOI"]⟩,
    ⟨⟨⟨"S", [.intermediate "A"], ""⟩, 3⟩, 0, .ofList [.terminal "c"]⟩,
    ⟨⟨⟨"A", [], ""⟩, 4⟩, 1, .ofList [.terminal "c"]⟩]

/-- The second item of the draft is an alternative of what the first one waits for, so it gets
lookaheads from there. More come from `S ::= • S A a`, where `A` may be empty. -/
theorem closesExactly_fill_left :
    (∀ a ∈ leftAdditions, a.rule ∈ (Grammar.ofEdits leftEdits).rules) ∧
      ClosesExactly (.new (.ofEdits leftEdits) ⟨.lr1, "EOI"⟩) ((draft .lr1).fill leftAdditions) ∧
      (((draft .lr1).fill leftAdditions).close (.new (.ofEdits leftEdits) ⟨.lr1, "EOI"⟩)).items.map
        Item.text = ["A ::= b • S, EOI", "S ::= • A, c/EOI/b/a", "S ::= • S A a, EOI/b/a",
          "A ::= •, c/EOI/b/a", "A ::= • b S, c/EOI/b/a"] := by
  have hrules : ∀ a ∈ leftAdditions, a.rule ∈ (Grammar.ofEdits leftEdits).rules := by
    decide +kernel
  refine ⟨hrules, ?_, by decide +kernel⟩
  exact closesExactly_fill (.new (.ofEdits leftEdits) ⟨.lr1, "EOI"⟩) .lr1 hrules

end Closing

end State

end ShiftReduce
