import ShiftReduce.Proofs.Soundness

/-!
# Actions and lookaheads

With lookaheads, an action is an error only if no item admits the terminal. The exception is rule 1:
its end is found before the end of input, whatever its lookaheads are. The two agree if no rule asks
for the start symbol, because then the end of input is the only lookahead of rule 1. They do not
agree in general: a rule 1 that has been begun inside another rule has other lookaheads, and its end
is still found before the end of input and nowhere else.
-/

namespace ShiftReduce

/-- The item waits for the terminal `a`, or it is complete and has it as a lookahead. -/
def Item.Admits (k : Item) (a : String) : Prop :=
  k.nextSymbol? = some (.terminal a) ∨ k.nextSymbol? = none ∧ .terminal a ∈ k.lookaheads

theorem Item.accepting_iff {k : Item} :
    k.accepting = true ↔ k.rule.id = startId ∧ k.nextSymbol? = none := by
  simp [accepting, atEnd, Rule.isStart, State.nextSymbol?_eq_none_iff]

/-! ## The lookaheads of rule 1 -/

namespace Setup

variable {u : Setup} {path : List Symbol} {r : Rule} {c : Core} {y : Symbol}

/-- No alternative of the start symbol is added on the way. -/
theorem not_waits_start (hr : u.grammar.startRule = .ok r)
    (hfree : ∀ q ∈ u.grammar.rules, .intermediate r.left ∉ q.right) {d : Core} {q : Rule}
    {rest : List Symbol} (hq : q ∈ u.grammar.rules) (hid : q.id = startId) :
    ¬u.grammar.Waits d (.intermediate q.left) rest := by
  obtain ⟨hmem, hstart⟩ := Grammar.startRule_eq_ok_iff.mp hr
  obtain rfl : q = r := Grammar.eq_of_id_eq hq hmem (hid.trans hstart.symm)
  rintro ⟨o, ho, -, hdrop⟩
  exact hfree o ho (List.mem_of_mem_drop (hdrop ▸ List.mem_cons_self))

theorem eq_endOfInput_of_start (hr : u.grammar.startRule = .ok r)
    (hfree : ∀ q ∈ u.grammar.rules, .intermediate r.left ∉ q.right)
    (h : (c, y) ∈ (u.along path).lookaheads) (hc : c.rule = startId) :
    y = .terminal u.config.endOfInput := by
  induction path using List.reverseRecOn generalizing c with
  | nil =>
    cases h with
    | given h => exact (Prod.mk.inj h.2).2
    | first _ hw hq _ _ => exact absurd hw (not_waits_start hr hfree hq hc)
    | pass _ hw hq _ _ => exact absurd hw (not_waits_start hr hfree hq hc)
  | append_singleton path x ih =>
    rw [along_append_singleton] at h
    cases h with
    | given h =>
      obtain ⟨d, hd, -, rfl⟩ := h
      exact ih hd hc
    | first _ hw hq _ _ => exact absurd hw (not_waits_start hr hfree hq hc)
    | pass _ hw hq _ _ => exact absurd hw (not_waits_start hr hfree hq hc)

theorem endOfInput_mem_of_start (ha : u.ahead = true) (hr : u.grammar.startRule = .ok r)
    (hfree : ∀ q ∈ u.grammar.rules, .intermediate r.left ∉ q.right)
    (h : c ∈ (u.along path).cores) (hc : c.rule = startId) :
    (c, .terminal u.config.endOfInput) ∈ (u.along path).lookaheads := by
  induction path using List.reverseRecOn generalizing c with
  | nil =>
    rw [mem_cores_along_nil] at h
    cases h with
    | given h =>
      obtain rfl : c = ⟨startId, 0⟩ := h
      exact .given ⟨ha, rfl⟩
    | alternative _ hw hq => exact absurd hw (not_waits_start hr hfree hq hc)
  | append_singleton path x ih =>
    rw [mem_cores_along_append_singleton] at h
    rw [along_append_singleton]
    cases h with
    | given h =>
      obtain ⟨d, hd, hw, rfl⟩ := h
      exact .given ⟨d, ih hd hc, hw, rfl⟩
    | alternative _ hw hq => exact absurd hw (not_waits_start hr hfree hq hc)

end Setup

/-! ## Errors -/

namespace State

/-- The action is an error exactly if no item puts forward another one. -/
theorem Built.action_eq_error_iff {u : Setup} {s : State} {a e : String} (h : Built u s) :
    s.action a e = .error ↔ ∀ x, ¬Candidate s a e x := by
  rcases h.action_cases (a := a) (e := e) with hc | ⟨herror, hnone⟩
  · refine ⟨fun herror => ?_, fun hnone => absurd hc (hnone _)⟩
    rw [herror] at hc
    cases hc
  · exact ⟨fun _ => hnone, fun _ => herror⟩

end State

namespace Table

variable {t : Table} {i : StateId} {k : Item} {a : String}

/-- What every table with lookaheads answers: rule 1 goes by the end of input, and the other items
by what they admit. -/
structure Answers (t : Table) : Prop where
  error : ∀ (i : StateId) (s : State), t.states[i]? = some s → ∀ a,
    t.action i a = .ok .error ↔ ∀ k ∈ s.items,
      if k.accepting then a ≠ t.config.endOfInput else ¬k.Admits a
  accept : ∀ (i : StateId) (s : State), t.states[i]? = some s → ∀ a,
    t.action i a = .ok .accept → a = t.config.endOfInput ∧ ∃ k ∈ s.items, k.accepting = true

/-- The answers go by what the items admit, those of rule 1 included. -/
structure HonoursLookaheads (t : Table) : Prop where
  error : ∀ (i : StateId) (s : State), t.states[i]? = some s → ∀ a,
    t.action i a = .ok .error ↔ ∀ k ∈ s.items, ¬k.Admits a
  accept : ∀ (i : StateId) (s : State), t.states[i]? = some s → ∀ a,
    t.action i a = .ok .accept → ∃ k ∈ s.items, k.accepting = true ∧ .terminal a ∈ k.lookaheads

/-- An item puts an action forward if it is the end of rule 1 before the end of input, or if it is
not the end of rule 1 and admits the terminal. -/
theorem Complete.exists_candidate_iff (h : t.Complete) (hm : t.config.method ≠ .lr0)
    (hi : i < t.size) {e : String} : (∃ x, State.Candidate (t.get i) a e x) ↔
      ∃ k ∈ (t.get i).items, if k.accepting then a = e else k.Admits a := by
  have hmethod : (t.get i).method ≠ .lr0 := by
    rw [h.method hi]
    exact hm
  constructor
  · rintro ⟨x, hx⟩
    cases hx with
    | @shift k j hk hx hn =>
      refine ⟨k, hk, ?_⟩
      rw [if_neg (by simp [Item.accepting_iff, hx])]
      exact .inl hx
    | @reduce k hk hx hr ha =>
      refine ⟨k, hk, ?_⟩
      rw [if_neg (mt (State.accepting_iff hx).mp hr)]
      exact .inr ⟨hx, ha.resolve_left hmethod⟩
    | @accept k hk hx hr ha =>
      refine ⟨k, hk, ?_⟩
      rw [if_pos ((State.accepting_iff hx).mpr hr)]
      exact ha
  · rintro ⟨k, hk, hadmits⟩
    split at hadmits
    · rename_i hacc
      obtain ⟨hr, hx⟩ := Item.accepting_iff.mp hacc
      exact ⟨_, .accept hk hx hr hadmits⟩
    · rename_i hacc
      rcases hadmits with hx | ⟨hx, ha⟩
      · obtain ⟨j, hn, -⟩ := h.exists_next hi hk hx
        exact ⟨_, .shift hk hx hn⟩
      · exact ⟨_, .reduce hk hx (mt (State.accepting_iff hx).mpr hacc) (.inr ha)⟩

theorem Complete.answers (h : t.Complete) (hm : t.config.method ≠ .lr0) : Answers t where
  error i s hs a := by
    obtain ⟨hi, rfl⟩ := getElem?_eq_some.mp hs
    rw [Run.action_eq hi, Except.ok.injEq, (h.built i hi).action_eq_error_iff, ← not_exists,
      h.exists_candidate_iff hm hi]
    push Not
    refine forall₂_congr fun k _ => ?_
    split <;> rfl
  accept i s hs a hact := by
    obtain ⟨hi, rfl⟩ := getElem?_eq_some.mp hs
    cases Run.candidate_of_action h hi hact nofun with
    | accept hk hx hr ha => exact ⟨ha, _, hk, Item.accepting_iff.mpr ⟨hr, hx⟩⟩

/-- If no rule asks for the start symbol, rule 1 has the end of input as its lookahead and nothing
else. -/
theorem Complete.mem_lookaheads_start_iff (h : t.Complete) (hm : t.config.method ≠ .lr0) {r : Rule}
    (hr : t.grammar.startRule = .ok r)
    (hfree : ∀ q ∈ t.grammar.rules, .intermediate r.left ∉ q.right) (hi : i < t.size)
    (hk : k ∈ (t.get i).items) (hid : k.rule.id = startId) :
    .terminal a ∈ k.lookaheads ↔ a = t.config.endOfInput := by
  have hahead : t.setup.ahead = true := decide_eq_true hm
  rw [(h.built i hi).proper.mem_lookaheads_iff hk]
  constructor
  · intro hp
    obtain ⟨path, -, hp⟩ := (h.built i hi).grounded.lookaheads _ hp
    exact Symbol.terminal.inj (Setup.eq_endOfInput_of_start hr hfree hp hid)
  · rintro rfl
    obtain ⟨path, hat⟩ := h.exists_at hi
    have hcore : k.core ∈ (t.setup.along path).cores := by
      rw [← hat.cores]
      exact State.mem_cores.mpr ⟨k, hk, rfl⟩
    exact hat.lookaheads (Setup.endOfInput_mem_of_start hahead hr hfree hcore hid)

theorem Complete.honoursLookaheads (h : t.Complete) (hm : t.config.method ≠ .lr0) {r : Rule}
    (hr : t.grammar.startRule = .ok r)
    (hfree : ∀ q ∈ t.grammar.rules, .intermediate r.left ∉ q.right) : HonoursLookaheads t where
  error i s hs a := by
    obtain ⟨hi, rfl⟩ := getElem?_eq_some.mp hs
    rw [(h.answers hm).error i _ hs]
    refine forall₂_congr fun k hk => ?_
    split
    · rename_i hacc
      obtain ⟨hid, hx⟩ := Item.accepting_iff.mp hacc
      simp [Item.Admits, hx, h.mem_lookaheads_start_iff hm hr hfree hi hk hid]
    · rfl
  accept i s hs a hact := by
    obtain ⟨hi, rfl⟩ := getElem?_eq_some.mp hs
    obtain ⟨ha, k, hk, hacc⟩ := (h.answers hm).accept i _ hs a hact
    have hid := (Item.accepting_iff.mp hacc).1
    exact ⟨k, hk, hacc, (h.mem_lookaheads_start_iff hm hr hfree hi hk hid).mpr ha⟩

/-- A table with lookaheads answers by what its items admit, but for rule 1, which goes by the end
of input. If no rule asks for the start symbol, rule 1 is no exception. -/
theorem build_answers {g : Grammar} {m : Method} {r : Rule} (h : g.startRule = .ok r)
    (hm : m ≠ .lr0) (e : String) :
    build g ⟨m, e⟩ = .error (.fault .tooManyStates) ∧ (Setup.new g ⟨m, e⟩).Crowded ∨
      ∃ t, build g ⟨m, e⟩ = .ok t ∧ Answers t ∧
        ((∀ q ∈ g.rules, .intermediate r.left ∉ q.right) → HonoursLookaheads t) := by
  rcases build_cases h ⟨m, e⟩ with herror | ⟨t, ht⟩
  · exact .inl herror
  have hcomplete := complete_of_build ht
  have hm' : t.config.method ≠ .lr0 := by
    rw [config_of_build ht]
    exact hm
  refine .inr ⟨t, ht, hcomplete.answers hm', fun hfree => ?_⟩
  rw [← grammar_of_build ht] at h hfree
  exact hcomplete.honoursLookaheads hm' h hfree

theorem answers_sample : ∃ t, build (.ofEdits sampleEdits) ⟨.lalr1, "EOI"⟩ = .ok t ∧
    HonoursLookaheads t := by
  rcases build_answers (m := .lalr1) startRule_sample (by decide) "EOI" with
    ⟨herror, -⟩ | ⟨t, ht, -, hhonours⟩
  · exact absurd herror (by decide +kernel)
  · exact ⟨t, ht, hhonours start_not_mem_sample⟩

/-! ## A start symbol inside other rules -/

/-- The rules `START ::= S`, `S ::= a START b` and `S ::= c`. -/
def nestedEdits : List Edit :=
  [.addRule ⟨startName, [.intermediate "S"], ""⟩,
    .addRule ⟨"S", [.terminal "a", .intermediate startName, .terminal "b"], ""⟩,
    .addRule ⟨"S", [.terminal "c"], ""⟩]

/-- Behind `a S` nothing but `b` can follow rule 1. The answer to `b` is an error nevertheless, and
the end of input is accepted. -/
theorem not_honoursLookaheads_nested : ∃ r t, (Grammar.ofEdits nestedEdits).startRule = .ok r ∧
    build (.ofEdits nestedEdits) ⟨.lr1, "EOI"⟩ = .ok t ∧
    (∃ s, t.states[5]? = some s ∧ s.items.map Item.text = ["START ::= S •, b"]) ∧
    t.action 5 "b" = .ok .error ∧ t.action 5 "EOI" = .ok .accept ∧ ¬HonoursLookaheads t := by
  have hr : (Grammar.ofEdits nestedEdits).startRule =
      .ok ⟨⟨startName, [.intermediate "S"], ""⟩, startId⟩ := by decide +kernel
  obtain ⟨t, ht, hrun⟩ := exists_of_map_eq_ok (x := build (.ofEdits nestedEdits) ⟨.lr1, "EOI"⟩)
    (f := fun t => (t.states[5]?.map fun s => (s.items.map Item.text,
        s.items.all fun k => k.lookaheads.toList = [.terminal "b"]), t.action 5 "b", t.action 5 "EOI"))
    (b := (some (["START ::= S •, b"], true), .ok .error, .ok .accept)) (by decide +kernel)
  obtain ⟨hstate, hactions⟩ := Prod.mk.inj hrun
  obtain ⟨hb, he⟩ := Prod.mk.inj hactions
  obtain ⟨s, hs, hitems⟩ := Option.map_eq_some_iff.mp hstate
  obtain ⟨htext, hall⟩ := Prod.mk.inj hitems
  refine ⟨_, t, hr, ht, ⟨s, hs, htext⟩, hb, he, fun hhonours => ?_⟩
  obtain ⟨k, hk, -, hmem⟩ := hhonours.accept 5 s hs "EOI" he
  have hla : k.lookaheads.toList = [.terminal "b"] := of_decide_eq_true (List.all_eq_true.mp hall k hk)
  rw [← OrderedSet.mem_toList, hla] at hmem
  exact absurd hmem (by decide)

end Table

end ShiftReduce
