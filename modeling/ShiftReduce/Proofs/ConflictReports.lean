import ShiftReduce.Proofs.Conflicts

/-!
# What a table reports

Items contend if they complete rules that can be reduced and a lookahead admits both. A table
reports the states in which items contend, in their order and each of them once, and names the items
that contend with another one. So if it reports nothing, then for no state and terminal is there a
choice between two rules.
-/

namespace ShiftReduce

theorem Item.reducing_iff {k : Item} :
    k.reducing = true ↔ k.nextSymbol? = none ∧ k.rule.id ≠ startId := by
  simp [Item.reducing, Item.atEnd, Rule.isStart, State.nextSymbol?_eq_none_iff]

namespace State

/-- Two items of `s` are complete, neither of them is of rule 1, and they share a lookahead, if
there are lookaheads at all. -/
structure Contend (s : State) (k l : Item) : Prop where
  left : k ∈ s.items
  right : l ∈ s.items
  ne : k ≠ l
  complete_left : k.nextSymbol? = none
  complete_right : l.nextSymbol? = none
  rule_left : k.rule.id ≠ startId
  rule_right : l.rule.id ≠ startId
  shared : s.method = .lr0 ∨ ∃ y ∈ k.lookaheads.toList, y ∈ l.lookaheads

instance (s : State) (k l : Item) : Decidable (s.Contend k l) :=
  decidable_of_iff (k ∈ s.items ∧ l ∈ s.items ∧ k ≠ l ∧ k.nextSymbol? = none ∧
      l.nextSymbol? = none ∧ k.rule.id ≠ startId ∧ l.rule.id ≠ startId ∧
      (s.method = .lr0 ∨ ∃ y ∈ k.lookaheads.toList, y ∈ l.lookaheads))
    ⟨fun ⟨hk, hl, hne, hkc, hlc, hkr, hlr, ho⟩ => ⟨hk, hl, hne, hkc, hlc, hkr, hlr, ho⟩,
      fun ⟨hk, hl, hne, hkc, hlc, hkr, hlr, ho⟩ => ⟨hk, hl, hne, hkc, hlc, hkr, hlr, ho⟩⟩

/-- The items that contend with at least one other, in their order. -/
def contending (s : State) : List Item := s.items.filter fun k => ∃ l ∈ s.items, s.Contend k l

variable {u : Setup} {g : Grammar} {s : State} {k l : Item} {a e : String} {r q : RuleId}

theorem mem_contending : k ∈ s.contending ↔ ∃ l, s.Contend k l := by
  rw [contending, List.mem_filter, decide_eq_true_eq]
  exact ⟨fun ⟨_, l, _, hkl⟩ => ⟨l, hkl⟩, fun ⟨l, hkl⟩ => ⟨hkl.left, l, hkl.right, hkl⟩⟩

theorem contending_eq_nil_iff : s.contending = [] ↔ ∀ k l, ¬s.Contend k l := by
  rw [List.eq_nil_iff_forall_not_mem]
  simp only [mem_contending, not_exists]

/-- Different items of a grammar have different cores. -/
theorem Proper.clash_iff (h : s.Proper g) : s.Clash k l ↔ s.Contend k l := by
  have hoverlap : overlap s.method k l = true ↔
      s.method = .lr0 ∨ ∃ y ∈ k.lookaheads.toList, y ∈ l.lookaheads := by
    by_cases hm : s.method = .lr0
    · simp [overlap, hm]
    · rw [overlap_iff hm, or_iff_right hm]
      rfl
  constructor
  · rintro ⟨hk, hl, hkr, hlr, hne, ho⟩
    obtain ⟨hkc, hkr⟩ := Item.reducing_iff.mp hkr
    obtain ⟨hlc, hlr⟩ := Item.reducing_iff.mp hlr
    exact ⟨hk, hl, fun he => hne (congrArg Item.core he), hkc, hlc, hkr, hlr, hoverlap.mp ho⟩
  · rintro ⟨hk, hl, hne, hkc, hlc, hkr, hlr, ho⟩
    exact ⟨hk, hl, Item.reducing_iff.mpr ⟨hkc, hkr⟩, Item.reducing_iff.mpr ⟨hlc, hlr⟩,
      fun hc => hne (h.item_eq hk hl hc), hoverlap.mpr ho⟩

theorem Proper.conflicting_eq (h : s.Proper g) : s.conflicting = s.contending := by
  have hmem (k : Item) : k ∈ s.conflicting ↔ ∃ l ∈ s.items, s.Contend k l := by
    simp only [mem_conflicting, h.clash_iff]
    exact ⟨fun ⟨l, hkl⟩ => ⟨l, hkl.right, hkl⟩, fun ⟨l, _, hkl⟩ => ⟨l, hkl⟩⟩
  rw [conflicting, List.filter_filter] at hmem ⊢
  refine List.filter_congr fun k hk => ?_
  rw [Bool.eq_iff_iff, decide_eq_true_eq, ← hmem k, List.mem_filter, and_iff_right hk]

theorem Proper.check_eq_contending (h : s.Proper g) {n : StateId} (hn : s.number = some n) :
    s.check = if s.contending = [] then []
      else [.reduceReduceConflict n (s.contending.map Item.text)] := by
  rw [h.check_eq hn, h.conflicting_eq]

theorem verdict_eq_reduce_iff {m : Method} : verdict m a e k = some (.reduce r) ↔
    k.nextSymbol? = none ∧ k.rule.id ≠ startId ∧ reducibleBefore m a k = true ∧ k.rule.id = r := by
  unfold verdict
  split
  · rename_i x hx
    simp [hx]
  · rename_i hx
    rw [ne_eq, ← accepting_iff hx]
    by_cases hacc : k.accepting = true <;> simp [hx, hacc]

/-- Of items that could be reduced before the same terminal, two would contend. -/
theorem Built.eq_of_verdict (h : Built u s) (hno : s.contending = []) (hk : k ∈ s.items)
    (hl : l ∈ s.items) (hkv : verdict s.method a e k = some (.reduce r))
    (hlv : verdict s.method a e l = some (.reduce q)) : k = l := by
  obtain ⟨hkc, hkr, hka, -⟩ := verdict_eq_reduce_iff.mp hkv
  obtain ⟨hlc, hlr, hla, -⟩ := verdict_eq_reduce_iff.mp hlv
  by_contra hne
  refine contending_eq_nil_iff.mp hno k l ⟨hk, hl, hne, hkc, hlc, hkr, hlr, ?_⟩
  rcases (h.reducibleBefore_iff hk).mp hka with hm | hka
  · exact .inl hm
  · exact ((h.reducibleBefore_iff hl).mp hla).imp_right fun hla => ⟨_, hka, hla⟩

end State

namespace Table

variable {t : Table} {g : Grammar} {config : Config} {i : StateId}

/-- What a table reports, and what it means that it reports nothing. -/
structure ReportsExactly (t : Table) : Prop where
  /-- The states with contending items are reported one after another, and nothing else is. -/
  reports : t.check = ((List.range t.size).filter fun i => (t.get i).contending ≠ []).map fun i =>
    .reduceReduceConflict i ((t.get i).contending.map Item.text)
  /-- At most one item is found that can be reduced before a terminal. -/
  reducible : t.check = [] → ∀ (i : StateId) (s : State), t.states[i]? = some s →
    ∀ k ∈ s.items, ∀ l ∈ s.items, ∀ a r q,
      State.verdict s.method a t.config.endOfInput k = some (.reduce r) →
      State.verdict s.method a t.config.endOfInput l = some (.reduce q) → k = l
  /-- So the rule that is reduced is the only one. -/
  action : t.check = [] → ∀ (i : StateId) (s : State), t.states[i]? = some s → ∀ a r,
    t.action i a = .ok (.reduce r) → ∀ k ∈ s.items, ∀ q,
      State.verdict s.method a t.config.endOfInput k = some (.reduce q) → q = r
  complete : t.check = [] → t.config.method = .lr0 → ∀ (i : StateId) (s : State),
    t.states[i]? = some s → ∀ k ∈ s.items, ∀ l ∈ s.items, k.reducing = true →
      l.reducing = true → k = l

theorem states_eq (t : Table) : t.states.toList = (List.range t.size).map t.get := by
  refine List.ext_getElem (by simp [size]) fun i hi hi' => ?_
  have hlt : i < t.size := by simpa using hi'
  have hget := getElem?_eq_some.mpr ⟨hlt, rfl⟩
  rw [List.getElem_map, List.getElem_range, Array.getElem_toList]
  exact (Array.getElem?_eq_some_iff.mp hget).2

theorem Complete.check_eq (h : t.Complete) : t.check =
    ((List.range t.size).filter fun i => (t.get i).contending ≠ []).map fun i =>
      .reduceReduceConflict i ((t.get i).contending.map Item.text) := by
  rw [check, states_eq, List.flatMap_map]
  have hstate : ∀ i ∈ List.range t.size, (t.get i).check = if (t.get i).contending = [] then []
      else [.reduceReduceConflict i ((t.get i).contending.map Item.text)] := by
    intro i hi
    have hlt := List.mem_range.mp hi
    exact (h.built i hlt).proper.check_eq_contending (h.number i hlt)
  generalize List.range t.size = ids at hstate
  induction ids with
  | nil => rfl
  | cons i ids ih =>
    obtain ⟨hi, hids⟩ := List.forall_mem_cons.mp hstate
    rw [List.flatMap_cons, ih hids, hi, List.filter_cons]
    by_cases hnil : (t.get i).contending = [] <;> simp [hnil]

theorem Complete.contending_eq_nil (h : t.Complete) (hcheck : t.check = []) (hi : i < t.size) :
    (t.get i).contending = [] := by
  rw [h.check_eq, List.map_eq_nil_iff, List.filter_eq_nil_iff] at hcheck
  simpa using hcheck i (List.mem_range.mpr hi)

theorem Complete.reportsExactly (h : t.Complete) : t.ReportsExactly where
  reports := h.check_eq
  reducible hcheck i s hs k hk l hl a r q hkv hlv := by
    obtain ⟨hi, rfl⟩ := getElem?_eq_some.mp hs
    exact (h.built i hi).eq_of_verdict (h.contending_eq_nil hcheck hi) hk hl hkv hlv
  action hcheck i s hs a r hact k hk q hkv := by
    obtain ⟨hi, rfl⟩ := getElem?_eq_some.mp hs
    obtain ⟨l, hl, hlv⟩ := (h.built i hi).candidate_iff.mp
      (Run.candidate_of_action h hi hact (by simp))
    obtain rfl := (h.built i hi).eq_of_verdict (h.contending_eq_nil hcheck hi) hk hl hkv hlv
    exact Action.reduce.inj (Option.some.inj (hkv.symm.trans hlv))
  complete hcheck hm i s hs k hk l hl hkr hlr := by
    obtain ⟨hi, rfl⟩ := getElem?_eq_some.mp hs
    obtain ⟨hkc, hkr⟩ := Item.reducing_iff.mp hkr
    obtain ⟨hlc, hlr⟩ := Item.reducing_iff.mp hlr
    by_contra hne
    exact State.contending_eq_nil_iff.mp (h.contending_eq_nil hcheck hi) k l
      ⟨hk, hl, hne, hkc, hlc, hkr, hlr, .inl ((h.method hi).trans hm)⟩

/-- The reports of a table are exact, in every class. -/
theorem build_reportsExactly (h : build g config = .ok t) : t.ReportsExactly :=
  (complete_of_build h).reportsExactly

/-- The rules `START ::= S`, `S ::= A c`, `S ::= A d`, `S ::= B d`, `S ::= C c`, `S ::= D f` and,
for each of `A`, `B`, `C` and `D`, one that reads `e`. -/
def sharedEdits : List Edit :=
  let word (left : String) (right : List Symbol) : Edit := .addRule ⟨left, right, ""⟩
  [word startName [.intermediate "S"],
    word "S" [.intermediate "A", .terminal "c"], word "S" [.intermediate "A", .terminal "d"],
    word "S" [.intermediate "B", .terminal "d"], word "S" [.intermediate "C", .terminal "c"],
    word "S" [.intermediate "D", .terminal "f"],
    word "A" [.terminal "e"], word "B" [.terminal "e"], word "C" [.terminal "e"],
    word "D" [.terminal "e"]]

/-- The items of `B` and `C` contend with the one of `A` but not with each other, and the one of `D`
with none. -/
theorem reportsExactly_shared : ∃ t, build (.ofEdits sharedEdits) ⟨.lr1, "EOI"⟩ = .ok t ∧
    t.ReportsExactly ∧ t.check =
      [.reduceReduceConflict 6 ["A ::= e •, c/d", "B ::= e •, d", "C ::= e •, c"]] := by
  obtain ⟨t, ht, hcheck⟩ := exists_of_map_eq_ok
    (x := build (.ofEdits sharedEdits) ⟨.lr1, "EOI"⟩) (f := Table.check)
    (b := [.reduceReduceConflict 6 ["A ::= e •, c/d", "B ::= e •, d", "C ::= e •, c"]])
    (by decide +kernel)
  exact ⟨t, ht, build_reportsExactly ht, hcheck⟩

end Table

end ShiftReduce
