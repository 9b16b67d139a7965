import ShiftReduce.Grammar.Derivation
import ShiftReduce.Proofs.Expectation

/-!
# Valid items

A core is valid for a path if a chain of rules that spells the path ends at the core. The item set
along a path holds the valid cores, and the lookaheads of a core are the terminals that can begin
what the chains to it still expect. So a table leads along a path exactly if a chain spells it, to
a state with the valid cores.
-/

namespace ShiftReduce

namespace Grammar

variable {g : Grammar} {path done rest after : List Symbol} {q r : Rule} {x : Symbol} {c : Core}
  {e y : String}

/-- A chain of rules that spells the path ends at the core `c`, and `after` is what the chain still
expects behind its last rule. -/
def Valid (g : Grammar) (path : List Symbol) (c : Core) (after : List Symbol) : Prop :=
  ∃ r done, g.Chain path r done after ∧ c = ⟨r.id, done.length⟩

/-! ## Longer chains -/

theorem Chain.mem_rules (h : g.Chain path r done after) : r ∈ g.rules := by
  cases h with
  | start h _ => exact (startRule_eq_ok_iff.mp h).1
  | next _ _ hq _ => exact hq

theorem Chain.exists_rest (h : g.Chain path r done after) : ∃ rest, r.right = done ++ rest := by
  cases h with
  | start _ hr => exact ⟨_, hr⟩
  | next _ _ _ hq => exact ⟨_, hq⟩

/-- What the last rule of a chain waits for is what stands behind the part that has been read. -/
theorem Chain.right_of_waits (h : g.Chain path r done after)
    (hw : g.Waits ⟨r.id, done.length⟩ x rest) : r.right = done ++ x :: rest := by
  obtain ⟨p, hp, hid, hdrop⟩ := hw
  obtain rfl := eq_of_id_eq hp h.mem_rules hid
  obtain ⟨rest', hright⟩ := h.exists_rest
  rw [hright] at hdrop ⊢
  rw [List.drop_left] at hdrop
  rw [hdrop]

/-- The last rule reads one more symbol. -/
theorem Chain.read (h : g.Chain path r done after) (hr : r.right = done ++ x :: rest) :
    g.Chain (path ++ [x]) r (done ++ [x]) after := by
  have hr' : r.right = (done ++ [x]) ++ rest := by simpa using hr
  cases h with
  | start h _ => exact .start h hr'
  | next h hp hq _ =>
    rw [List.append_assoc]
    exact .next h hp hq hr'

/-- The chain goes on with a rule of the intermediate that its last rule waits for. -/
theorem Chain.begin (h : g.Chain path r done after)
    (hr : r.right = done ++ .intermediate q.left :: rest) (hq : q ∈ g.rules) :
    g.Chain path q [] (rest ++ after) := by
  have hchain : g.Chain (path ++ []) q [] (rest ++ after) := .next h hr hq rfl
  rwa [List.append_nil] at hchain

theorem Valid.read (h : g.Valid path c after) (hw : g.Waits c x rest) :
    g.Valid (path ++ [x]) c.next after := by
  obtain ⟨r, done, hchain, rfl⟩ := h
  refine ⟨r, done ++ [x], hchain.read (hchain.right_of_waits hw), ?_⟩
  rw [List.length_append]
  rfl

theorem Valid.begin (h : g.Valid path c after) (hw : g.Waits c (.intermediate q.left) rest)
    (hq : q ∈ g.rules) : g.Valid path ⟨q.id, 0⟩ (rest ++ after) := by
  obtain ⟨r, done, hchain, rfl⟩ := h
  exact ⟨q, [], hchain.begin (hchain.right_of_waits hw) hq, rfl⟩

theorem valid_start (hr : g.startRule = .ok r) : g.Valid [] ⟨startId, 0⟩ [] := by
  refine ⟨r, [], .start hr rfl, ?_⟩
  rw [(startRule_eq_ok_iff.mp hr).2]
  rfl

/-! ## What can follow -/

theorem ahead_iff_begins : g.Ahead e after y ↔ g.Begins (after ++ [.terminal e]) y := by
  rw [begins_append, begins_terminal]
  exact Iff.rfl

theorem Ahead.append_left (h : g.Begins rest y) : g.Ahead e (rest ++ after) y :=
  .inl (begins_append.mpr (.inl h))

theorem Ahead.append_right (hn : g.Derives rest []) (h : g.Ahead e after y) :
    g.Ahead e (rest ++ after) y := by
  rcases h with h | ⟨h, he⟩
  · exact .inl (begins_append.mpr (.inr ⟨hn, h⟩))
  · exact .inr ⟨derives_append_nil.mpr ⟨hn, h⟩, he⟩

end Grammar

/-! ## Items that closing finds -/

namespace ItemSet

variable {g : Grammar} {ahead : Bool} {I : ItemSet} {path : List Symbol} {c : Core} {y : Symbol}
  {e : String}

/-- Closing keeps cores valid: an alternative is the next rule of a chain. -/
theorem ClosureCore.valid (hI : ∀ c ∈ I.cores, ∃ after, g.Valid path c after)
    (h : ClosureCore g I c) : ∃ after, g.Valid path c after := by
  induction h with
  | given h => exact hI _ h
  | alternative _ hw hq ih =>
    obtain ⟨after, hvalid⟩ := ih
    exact ⟨_, hvalid.begin hw hq⟩

/-- A chain to the core `c` can be followed by `y`. -/
def Admits (g : Grammar) (endOfInput : String) (path : List Symbol) (c : Core) (y : Symbol) :
    Prop :=
  ∃ a after, y = .terminal a ∧ g.Valid path c after ∧ g.Ahead endOfInput after a

theorem ClosureLookahead.admits (hI : ∀ c ∈ I.cores, ∃ after, g.Valid path c after)
    (hla : ∀ p ∈ I.lookaheads, Admits g e path p.1 p.2) (h : ClosureLookahead g ahead I c y) :
    Admits g e path c y := by
  induction h with
  | given h => exact hla _ h
  | first hc hw hq _ hx =>
    obtain ⟨after, hvalid⟩ := hc.valid hI
    exact ⟨_, _, rfl, hvalid.begin hw hq, .append_left hx⟩
  | pass _ hw hq _ hn ih =>
    obtain ⟨a, after, hy, hvalid, ha⟩ := ih
    exact ⟨a, _, hy, hvalid.begin hw hq, ha.append_right hn⟩

end ItemSet

/-! ## Item sets along a path -/

namespace Setup

open ItemSet

variable {u : Setup} {path done after : List Symbol} {r : Rule} {c : Core} {y : Symbol}

theorem valid_of_mem_along (hr : u.grammar.startRule = .ok r) (h : c ∈ (u.along path).cores) :
    ∃ after, u.grammar.Valid path c after := by
  induction path using List.reverseRecOn generalizing c with
  | nil =>
    refine (mem_cores_along_nil.mp h).valid fun c hc => ?_
    obtain rfl := Set.mem_singleton_iff.mp hc
    exact ⟨[], Grammar.valid_start hr⟩
  | append_singleton path x ih =>
    refine (mem_cores_along_append_singleton.mp h).valid fun c hc => ?_
    obtain ⟨d, hd, ⟨rest, hw⟩, rfl⟩ := hc
    obtain ⟨after, hvalid⟩ := ih hd
    exact ⟨after, hvalid.read hw⟩

theorem admits_of_mem_along (hr : u.grammar.startRule = .ok r)
    (h : (c, y) ∈ (u.along path).lookaheads) :
    Admits u.grammar u.config.endOfInput path c y := by
  induction path using List.reverseRecOn generalizing c y with
  | nil =>
    refine ClosureLookahead.admits (fun c hc => ?_) (fun p hp => ?_) h
    · obtain rfl := Set.mem_singleton_iff.mp hc
      exact ⟨[], Grammar.valid_start hr⟩
    · obtain ⟨-, rfl⟩ := hp
      exact ⟨_, [], rfl, Grammar.valid_start hr, .inr ⟨.refl, rfl⟩⟩
  | append_singleton path x ih =>
    rw [along_append_singleton] at h
    refine ClosureLookahead.admits (fun c hc => ?_) (fun p hp => ?_) h
    · obtain ⟨d, hd, ⟨rest, hw⟩, rfl⟩ := hc
      obtain ⟨after, hvalid⟩ := valid_of_mem_along hr hd
      exact ⟨after, hvalid.read hw⟩
    · obtain ⟨d, hd, ⟨rest, hw⟩, he⟩ := hp
      obtain ⟨a, after, hy, hvalid, ha⟩ := ih hd
      rw [he]
      exact ⟨a, after, hy, hvalid.read hw, ha⟩

/-- Each rule of a chain is begun where the one before it waits for its left side. -/
theorem exists_begun_of_chain (h : u.grammar.Chain path r done after) :
    ∃ before, path = before ++ done ∧ u.Begun before r after := by
  induction h with
  | start h _ => exact ⟨[], rfl, begun_start h⟩
  | next hchain hr hq _ ih =>
    obtain ⟨before, rfl, hbegun⟩ := ih
    exact ⟨_, rfl, (hbegun.expects hchain.mem_rules hr).begun hq⟩

theorem mem_along_of_valid (h : u.grammar.Valid path c after) : c ∈ (u.along path).cores ∧
    (u.ahead = true → ∀ a, u.grammar.Ahead u.config.endOfInput after a →
      (c, .terminal a) ∈ (u.along path).lookaheads) := by
  obtain ⟨r, done, hchain, rfl⟩ := h
  obtain ⟨before, rfl, hcore, hla⟩ := exists_begun_of_chain hchain
  obtain ⟨rest, hright⟩ := hchain.exists_rest
  have hdrop : r.right.drop 0 = done ++ rest := hright
  obtain ⟨hread, hread'⟩ := read_of_begun hchain.mem_rules hdrop hcore
  rw [Nat.zero_add] at hread hread'
  exact ⟨hread, fun ha a hy => hread' _ (hla ha a hy)⟩

theorem mem_cores_along_iff (hr : u.grammar.startRule = .ok r) :
    c ∈ (u.along path).cores ↔ ∃ after, u.grammar.Valid path c after :=
  ⟨valid_of_mem_along hr, fun ⟨_, h⟩ => (mem_along_of_valid h).1⟩

theorem mem_lookaheads_along_iff (hr : u.grammar.startRule = .ok r) (ha : u.ahead = true) :
    (c, y) ∈ (u.along path).lookaheads ↔
      Admits u.grammar u.config.endOfInput path c y := by
  refine ⟨admits_of_mem_along hr, ?_⟩
  rintro ⟨a, after, rfl, hvalid, hy⟩
  exact (mem_along_of_valid hvalid).2 ha a hy

end Setup

/-! ## States at the end of a path -/

namespace Table

/-- The states of the table hold the valid items of the paths that lead to them. -/
structure HoldsValid (t : Table) : Prop where
  /-- A path can be followed if a chain spells it, and no other path can. -/
  follow_iff : ∀ path, (∃ i, t.follow? startState path = some i) ↔
    ∃ c after, t.grammar.Valid path c after
  cores : ∀ path i, t.follow? startState path = some i → ∃ s : State, t.states[i]? = some s ∧
    ∀ c, c ∈ s.cores ↔ ∃ after, t.grammar.Valid path c after
  lookaheads : t.config.method = .lr1 → ∀ path i (s : State),
    t.follow? startState path = some i → t.states[i]? = some s → ∀ k ∈ s.items, ∀ y,
      y ∈ k.lookaheads ↔ ∃ x after, y = .terminal x ∧ t.grammar.Valid path k.core after ∧
        t.grammar.Begins (after ++ [.terminal t.config.endOfInput]) x

variable {t : Table} {g : Grammar} {r : Rule}

theorem Complete.holdsValid (h : t.Complete) (hr : t.grammar.startRule = .ok r) :
    t.HoldsValid where
  follow_iff path := by
    constructor
    · rintro ⟨i, hi⟩
      have hat := h.at_of_follow? hi
      obtain ⟨c, hc⟩ := h.exists_core hat.lt
      rw [hat.cores] at hc
      exact ⟨c, Setup.valid_of_mem_along hr hc⟩
    · rintro ⟨c, after, hvalid⟩
      exact h.exists_follow? ⟨c, (Setup.mem_along_of_valid (u := t.setup) hvalid).1⟩
  cores path i hi := by
    have hat := h.at_of_follow? hi
    refine ⟨t.get i, getElem?_eq_some.mpr ⟨hat.lt, rfl⟩, fun c => ?_⟩
    rw [← State.mem_itemSet_cores, hat.cores]
    exact Setup.mem_cores_along_iff hr
  lookaheads hm path i s hi hs k hk y := by
    have hat := h.at_of_follow? hi
    obtain ⟨hlt, rfl⟩ := getElem?_eq_some.mp hs
    have hahead : t.setup.ahead = true := by
      change t.config.method.looksAhead = true
      rw [hm]
      rfl
    have hpair : y ∈ k.lookaheads ↔ (k.core, y) ∈ (t.get i).itemSet.lookaheads :=
      (h.built i hlt).proper.mem_lookaheads_iff hk
    rw [hpair, hat.exact (by rw [hm]; decide), Setup.mem_lookaheads_along_iff hr hahead]
    simp only [← Grammar.ahead_iff_begins]
    exact Iff.rfl

/-- The table of a grammar with a start rule leads along the paths that chains of rules spell, and
its states hold the valid items, unless there are more item sets on the paths than there are state
numbers. -/
theorem build_holdsValid (h : g.startRule = .ok r) (config : Config) :
    build g config = .error (.fault .tooManyStates) ∧ (Setup.new g config).Crowded ∨
      ∃ t, build g config = .ok t ∧ t.grammar = g ∧ t.config = config ∧ t.HoldsValid := by
  rcases build_cases h config with herror | ⟨t, ht⟩
  · exact .inl herror
  · refine .inr ⟨t, ht, grammar_of_build ht, config_of_build ht, ?_⟩
    refine (complete_of_build ht).holdsValid (r := r) ?_
    rw [grammar_of_build ht]
    exact h

theorem holdsValid_sample : ∃ t, build (.ofEdits sampleEdits) ⟨.lr1, "EOI"⟩ = .ok t ∧
    t.HoldsValid := by
  rcases build_holdsValid startRule_sample ⟨.lr1, "EOI"⟩ with ⟨herror, -⟩ | ⟨t, ht, -, -, hvalid⟩
  · exact absurd herror (by decide +kernel)
  · exact ⟨t, ht, hvalid⟩

end Table

end ShiftReduce
