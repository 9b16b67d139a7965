import ShiftReduce.Proofs.CoreQuotient
import ShiftReduce.Proofs.Skeleton

/-!
# Conflicts from LR(0) to LR(1)

A state reports a conflict if two of its items clash: they complete different rules, and a
lookahead admits both. Lookaheads keep items apart that clash without them, and the lookaheads of an
LR(1) state are among those of the LALR(1) state that it goes to. So a clash in LR(1) is a clash in
LALR(1), and a clash there is one in LR(0). A clash between reading and reducing needs only one set
of lookaheads, and that set comes from an LR(1) state with the same cores.
-/

namespace ShiftReduce

/-! ## Clashes -/

namespace State

/-- Two items of a state complete different rules, and a lookahead admits both. -/
structure Clash (s : State) (k l : Item) : Prop where
  left : k ∈ s.items
  right : l ∈ s.items
  reducing_left : k.reducing = true
  reducing_right : l.reducing = true
  ne : k.core ≠ l.core
  overlap : overlap s.method k l = true

/-- The item with the core `c` waits for the terminal `a`, and the item with the core `d` completes
a rule that can be reduced before it. -/
structure ShiftReduceClash (s : State) (c d : Core) (a : String) : Prop where
  shift : ∃ k ∈ s.items, k.core = c ∧ k.nextSymbol? = some (.terminal a)
  reduce : ∃ k ∈ s.items, k.core = d ∧ k.reducing = true ∧ .terminal a ∈ k.lookaheads

instance (s : State) (c d : Core) (a : String) : Decidable (s.ShiftReduceClash c d a) :=
  decidable_of_iff
    ((∃ k ∈ s.items, k.core = c ∧ k.nextSymbol? = some (.terminal a)) ∧
      ∃ k ∈ s.items, k.core = d ∧ k.reducing = true ∧ .terminal a ∈ k.lookaheads)
    ⟨fun h => ⟨h.1, h.2⟩, fun h => ⟨h.shift, h.reduce⟩⟩

variable {u : Setup} {g : Grammar} {s t : State} {k l : Item}

theorem mem_conflicting : k ∈ s.conflicting ↔ ∃ l, s.Clash k l := by
  simp only [conflicting, List.mem_filter, List.any_eq_true, Bool.and_eq_true, decide_eq_true_eq]
  constructor
  · rintro ⟨⟨hk, hkr⟩, l, ⟨hl, hlr⟩, hne, ho⟩
    exact ⟨l, hk, hl, hkr, hlr, hne, ho⟩
  · rintro ⟨l, h⟩
    exact ⟨⟨h.left, h.reducing_left⟩, l, ⟨h.right, h.reducing_right⟩, h.ne, h.overlap⟩

/-- An item accepts if it completes rule 1, so there is only one core that it can have. -/
theorem Proper.length_accepting_le (h : s.Proper g) : s.accepting.length ≤ 1 := by
  have hnodup : s.accepting.Nodup := (List.Nodup.of_map _ h.nodup).filter _
  have hall : ∀ k ∈ s.accepting, ∀ l ∈ s.accepting, k = l := by
    intro k hk l hl
    simp only [accepting, List.mem_filter, Item.accepting, Item.atEnd, Rule.isStart,
      Bool.and_eq_true, beq_iff_eq] at hk hl
    have hrule : k.rule = l.rule := Grammar.eq_of_id_eq (h.rules k hk.1) (h.rules l hl.1)
      (hk.2.1.trans hl.2.1.symm)
    refine h.item_eq hk.1 hl.1 ?_
    rw [Item.core, Item.core, hk.2.2, hl.2.2, hrule]
  rcases hlist : s.accepting with _ | ⟨k, _ | ⟨l, rest⟩⟩
  · exact Nat.zero_le 1
  · exact Nat.le_refl 1
  · rw [hlist] at hnodup hall
    have hkl : k = l := hall k (by simp) l (by simp)
    simp [hkl] at hnodup

/-- Never more than one item accepts, so all that is reported is which items clash. -/
theorem Proper.check_eq (h : s.Proper g) {n : StateId} (hn : s.number = some n) :
    s.check = if s.conflicting = [] then []
      else [.reduceReduceConflict n (s.conflicting.map Item.text)] := by
  have haccepts : (s.accepting.map Item.text).length ≤ 1 := by
    rw [List.length_map]
    exact h.length_accepting_le
  simp only [check, hn, if_pos haccepts, List.append_nil, List.map_eq_nil_iff]

theorem Proper.check_eq_nil_iff (h : s.Proper g) {n : StateId} (hn : s.number = some n) :
    s.check = [] ↔ ∀ k l, ¬s.Clash k l := by
  rw [h.check_eq hn, ite_eq_left_iff, imp_iff_not_or, not_not, List.eq_nil_iff_forall_not_mem]
  simp only [List.cons_ne_nil, or_false]
  exact ⟨fun hno k l hkl => hno k (mem_conflicting.mpr ⟨l, hkl⟩),
    fun hno k hk => (mem_conflicting.mp hk).elim (hno k)⟩

/-- States with the same cores have items with the same rules and dots. -/
theorem Proper.exists_item_of_cores_eq (hs : s.Proper g) (ht : t.Proper g) (hc : s.cores = t.cores)
    (hk : k ∈ s.items) : ∃ l ∈ t.items, l.rule = k.rule ∧ l.dot = k.dot := by
  have hmem : k.core ∈ t.cores := hc ▸ mem_cores.mpr ⟨k, hk, rfl⟩
  obtain ⟨l, hl, hcore⟩ := mem_cores.mp hmem
  exact ⟨l, hl, Item.rule_eq_of_core_eq (ht.rules l hl) (hs.rules k hk) hcore⟩

end State

theorem Item.reducing_congr {k l : Item} (hr : l.rule = k.rule) (hd : l.dot = k.dot) :
    l.reducing = k.reducing := by
  rw [reducing, reducing, atEnd, atEnd, hr, hd]

theorem Item.core_congr {k l : Item} (hr : l.rule = k.rule) (hd : l.dot = k.dot) :
    l.core = k.core := by
  rw [core, core, hr, hd]

namespace State

variable {g : Grammar} {s t : State} {k l : Item}

/-- A clash is one in every state with the same cores in which the lookaheads meet as well. -/
theorem Clash.transfer (h : s.Clash k l) (hs : s.Proper g) (ht : t.Proper g)
    (hc : s.cores = t.cores)
    (ho : ∀ k' ∈ t.items, ∀ l' ∈ t.items, k'.core = k.core → l'.core = l.core →
      State.overlap t.method k' l' = true) : ∃ k' l', t.Clash k' l' := by
  obtain ⟨k', hk', hkr, hkd⟩ := hs.exists_item_of_cores_eq ht hc h.left
  obtain ⟨l', hl', hlr, hld⟩ := hs.exists_item_of_cores_eq ht hc h.right
  have hkc := Item.core_congr hkr hkd
  have hlc := Item.core_congr hlr hld
  refine ⟨k', l', hk', hl', ?_, ?_, ?_, ho k' hk' l' hl' hkc hlc⟩
  · rw [Item.reducing_congr hkr hkd]
    exact h.reducing_left
  · rw [Item.reducing_congr hlr hld]
    exact h.reducing_right
  · rw [hkc, hlc]
    exact h.ne

/-- With lookaheads a clash needs one that the items share. -/
theorem overlap_iff {method : Method} (hm : method ≠ .lr0) :
    overlap method k l = true ↔ ∃ y, y ∈ k.lookaheads ∧ y ∈ l.lookaheads := by
  simp only [overlap, hm, decide_false, Bool.false_or, Bool.not_eq_true', ← Bool.not_eq_true,
    OrderedSet.disjoint_iff]
  push Not
  rfl

end State

/-! ## Tables without conflicts -/

namespace Table

variable {t a b : Table} {g : Grammar} {i j : StateId}

theorem Complete.check_eq_nil_iff (h : t.Complete) :
    t.check = [] ↔ ∀ i, i < t.size → ∀ k l, ¬(t.get i).Clash k l := by
  have hstate (i : StateId) (hi : i < t.size) :=
    (h.built i hi).proper.check_eq_nil_iff (h.number i hi)
  rw [check, List.flatMap_eq_nil_iff]
  constructor
  · intro hall i hi
    have hs : t.states[i]? = some (t.get i) := getElem?_eq_some.mpr ⟨hi, rfl⟩
    exact (hstate i hi).mp (hall _ (Array.mem_toList_iff.mpr (Array.mem_of_getElem? hs)))
  · intro hall s hs
    obtain ⟨i, hi⟩ := Array.mem_iff_getElem?.mp (Array.mem_toList_iff.mp hs)
    obtain ⟨hlt, rfl⟩ := getElem?_eq_some.mp hi
    exact (hstate i hlt).mpr (hall i hlt)

/-- A table reports nothing if every clash in it is one in a table that reports nothing. -/
theorem Complete.check_eq_nil_of_clash (ha : a.Complete) (hb : b.Complete)
    (hclash : ∀ i, i < b.size → ∀ k l, (b.get i).Clash k l →
      ∃ j, j < a.size ∧ ∃ k' l', (a.get j).Clash k' l') (h : a.check = []) : b.check = [] := by
  refine hb.check_eq_nil_iff.mpr fun i hi k l hkl => ?_
  obtain ⟨j, hj, k', l', hkl'⟩ := hclash i hi k l hkl
  exact ha.check_eq_nil_iff.mp h j hj k' l' hkl'

/-! ## From LR(0) to LALR(1) -/

/-- Without lookaheads all items that complete different rules clash. -/
theorem Siblings.check_eq_nil (h : Siblings a b) (hm : a.config.method = .lr0)
    (hcheck : a.check = []) : b.check = [] := by
  refine h.complete_left.check_eq_nil_of_clash h.complete_right (fun i hi k l hkl => ?_) hcheck
  have hia : i < a.size := h.size_eq ▸ hi
  have hproper : (b.get i).Proper a.grammar := h.grammar ▸ (h.complete_right.built i hi).proper
  refine ⟨i, hia, hkl.transfer hproper (h.complete_left.built i hia).proper
    (h.cores_eq hia).2.symm fun k' _ l' _ _ _ => ?_⟩
  have hlr0 : (a.get i).method = .lr0 := (h.complete_left.method hia).trans hm
  simp [State.overlap, hlr0]

/-! ## From LALR(1) to LR(1) -/

namespace Twins

theorem proper_right (h : Twins a b) (hj : j < b.size) : (b.get j).Proper a.grammar :=
  h.grammar ▸ (h.complete_right.built j hj).proper

/-- Merging only adds lookaheads, so items that clash go to items that do. -/
theorem check_eq_nil (h : Twins a b) (hcheck : b.check = []) : a.check = [] := by
  obtain ⟨f, hf⟩ := h.exists_quotient
  refine h.complete_right.check_eq_nil_of_clash h.complete_left (fun i hi k l hkl => ?_) hcheck
  obtain ⟨hfi, hcores⟩ := hf i hi
  have hleft : (a.get i).Proper a.grammar := (h.complete_left.built i hi).proper
  have hright := h.proper_right hfi
  refine ⟨f i, hfi, hkl.transfer hleft hright hcores.symm fun k' hk' l' hl' hk hl => ?_⟩
  have hmethod : (a.get i).method ≠ .lr0 := by
    rw [h.complete_left.method hi, h.method_left]
    decide
  have hmethod' : (b.get (f i)).method ≠ .lr0 := by
    rw [h.complete_right.method hfi, h.method_right]
    decide
  obtain ⟨y, hyk, hyl⟩ := (State.overlap_iff hmethod).mp hkl.overlap
  have hgoes {m m' : Item} (hm : m ∈ (a.get i).items) (hm' : m' ∈ (b.get (f i)).items)
      (hc : m'.core = m.core) (hy : y ∈ m.lookaheads) : y ∈ m'.lookaheads := by
    rw [hright.mem_lookaheads_iff hm', hc, h.mem_lookaheads_iff hf hfi]
    exact ⟨i, hi, rfl, (hleft.mem_lookaheads_iff hm).mp hy⟩
  exact (State.overlap_iff hmethod').mpr
    ⟨y, hgoes hkl.left hk' hk hyk, hgoes hkl.right hl' hl hyl⟩

/-- Merging brings together no item that waits for a terminal with one that is reduced before it,
unless they have been together with that lookahead already. -/
theorem exists_shiftReduceClash (h : Twins a b) (hj : j < b.size) {c d : Core} {x : String}
    (hclash : (b.get j).ShiftReduceClash c d x) :
    ∃ i, i < a.size ∧ (a.get i).cores = (b.get j).cores ∧ (a.get i).ShiftReduceClash c d x := by
  obtain ⟨f, hf⟩ := h.exists_quotient
  obtain ⟨⟨k, hk, rfl, hx⟩, ⟨l, hl, rfl, hred, hla⟩⟩ := hclash
  have hright := h.proper_right hj
  obtain ⟨i, hi, rfl, hp⟩ := (h.mem_lookaheads_iff hf hj).mp ((hright.mem_lookaheads_iff hl).mp hla)
  have hcores := (hf i hi).2
  have hleft : (a.get i).Proper a.grammar := (h.complete_left.built i hi).proper
  refine ⟨i, hi, hcores.symm, ⟨?_, ?_⟩⟩
  · obtain ⟨k', hk', hr, hd⟩ := hright.exists_item_of_cores_eq hleft hcores hk
    exact ⟨k', hk', Item.core_congr hr hd, (Item.nextSymbol?_congr hr hd).trans hx⟩
  · obtain ⟨l', hl', hr, hd⟩ := hright.exists_item_of_cores_eq hleft hcores hl
    refine ⟨l', hl', Item.core_congr hr hd, (Item.reducing_congr hr hd).trans hred, ?_⟩
    rw [hleft.mem_lookaheads_iff hl', Item.core_congr hr hd]
    exact hp

end Twins

/-! ## The three methods -/

/-- What the tables of a grammar for one end of input say about each other's conflicts. -/
structure ConflictsMonotone (g : Grammar) (e : String) : Prop where
  /-- A table is built, or there are more states than state numbers. -/
  built : ∀ method, build g ⟨method, e⟩ = .error (.fault .tooManyStates) ∧
    (Setup.new g ⟨method, e⟩).Crowded ∨ ∃ t, build g ⟨method, e⟩ = .ok t ∧ startState < t.size
  lalr1 : ∀ z b, build g ⟨.lr0, e⟩ = .ok z → build g ⟨.lalr1, e⟩ = .ok b →
    z.check = [] → b.check = []
  lr1 : ∀ b a, build g ⟨.lalr1, e⟩ = .ok b → build g ⟨.lr1, e⟩ = .ok a →
    b.check = [] → a.check = []
  shiftReduce : ∀ b a, build g ⟨.lalr1, e⟩ = .ok b → build g ⟨.lr1, e⟩ = .ok a →
    ∀ (j : StateId) (s' : State), b.states[j]? = some s' →
    ∀ c d x, s'.ShiftReduceClash c d x →
      ∃ (i : StateId) (s : State), a.states[i]? = some s ∧ s.cores = s'.cores ∧
        s.ShiftReduceClash c d x

/-- Conflicts become fewer from LR(0) over LALR(1) to LR(1), and merging creates no clash between
reading and reducing. -/
theorem build_conflictsMonotone {r : Rule} (h : g.startRule = .ok r) (e : String) :
    ConflictsMonotone g e where
  built method :=
    (build_cases h ⟨method, e⟩).imp_right fun ⟨t, ht⟩ => ⟨t, ht, (complete_of_build ht).size_pos⟩
  lalr1 z b hz hb := (siblings_of_build hz hb).check_eq_nil (by rw [config_of_build hz])
  lr1 b a hb ha := (twins_of_build ha hb).check_eq_nil
  shiftReduce b a hb ha j s' hs' c d x hclash := by
    obtain ⟨hj, rfl⟩ := getElem?_eq_some.mp hs'
    obtain ⟨i, hi, hcores, hclash'⟩ := (twins_of_build ha hb).exists_shiftReduceClash hj hclash
    exact ⟨i, a.get i, getElem?_eq_some.mpr ⟨hi, rfl⟩, hcores, hclash'⟩

/-- The rules `START ::= S`, `S ::= A b`, `S ::= c A d`, `A ::= a` and `A ::= a b`. Behind the first
`a` of a text `b` can be read, and `A ::= a` can be reduced before it. -/
def clashEdits : List Edit :=
  [.addRule ⟨startName, [.intermediate "S"], ""⟩,
    .addRule ⟨"S", [.intermediate "A", .terminal "b"], ""⟩,
    .addRule ⟨"S", [.terminal "c", .intermediate "A", .terminal "d"], ""⟩,
    .addRule ⟨"A", [.terminal "a"], ""⟩, .addRule ⟨"A", [.terminal "a", .terminal "b"], ""⟩]

/-- Without conflicts in LR(0) there are none in the other methods. The LALR(1) state behind `a` has
a clash, so one of the LR(1) states that it is made of has it. -/
theorem conflictsMonotone_sample :
    (∃ z b a, build (.ofEdits sampleEdits) ⟨.lr0, "EOI"⟩ = .ok z ∧
      build (.ofEdits sampleEdits) ⟨.lalr1, "EOI"⟩ = .ok b ∧
      build (.ofEdits sampleEdits) ⟨.lr1, "EOI"⟩ = .ok a ∧
      z.check = [] ∧ b.check = [] ∧ a.check = []) ∧
    ∃ (b a : Table) (i : StateId) (s' s : State),
      build (.ofEdits clashEdits) ⟨.lalr1, "EOI"⟩ = .ok b ∧
      build (.ofEdits clashEdits) ⟨.lr1, "EOI"⟩ = .ok a ∧
      b.states[4]? = some s' ∧ s'.ShiftReduceClash ⟨5, 1⟩ ⟨4, 1⟩ "b" ∧
      a.states[i]? = some s ∧ s.cores = s'.cores ∧ s.ShiftReduceClash ⟨5, 1⟩ ⟨4, 1⟩ "b" := by
  constructor
  · have h := build_conflictsMonotone startRule_sample "EOI"
    obtain ⟨z, hz, hcheck⟩ := exists_of_map_eq_ok (f := Table.check) (b := [])
      (x := build (.ofEdits sampleEdits) ⟨.lr0, "EOI"⟩) (by decide +kernel)
    obtain ⟨b, hb, -⟩ := (h.built .lalr1).resolve_left fun he => absurd he.1 (by decide +kernel)
    obtain ⟨a, ha, -⟩ := (h.built .lr1).resolve_left fun he => absurd he.1 (by decide +kernel)
    have hcheck' := h.lalr1 z b hz hb hcheck
    exact ⟨z, b, a, hz, hb, ha, hcheck, hcheck', h.lr1 b a hb ha hcheck'⟩
  · have hstart : (Grammar.ofEdits clashEdits).startRule =
        .ok ⟨⟨startName, [.intermediate "S"], ""⟩, startId⟩ := by
      decide +kernel
    have h := build_conflictsMonotone hstart "EOI"
    have hrun : (build (.ofEdits clashEdits) ⟨.lalr1, "EOI"⟩).map (fun t =>
        t.states[4]?.map fun s => decide (s.ShiftReduceClash ⟨5, 1⟩ ⟨4, 1⟩ "b")) =
          .ok (some true) := by
      decide +kernel
    obtain ⟨b, hb, hstate⟩ := exists_of_map_eq_ok hrun
    obtain ⟨s', hs', hdecide⟩ := Option.map_eq_some_iff.mp hstate
    have hclash := of_decide_eq_true hdecide
    obtain ⟨a, ha, -⟩ := (h.built .lr1).resolve_left fun he => absurd he.1 (by decide +kernel)
    obtain ⟨i, s, hs, hcores, hclash'⟩ := h.shiftReduce b a hb ha 4 s' hs' _ _ _ hclash
    exact ⟨b, a, i, s', s, hb, ha, hs', hclash, hs, hcores, hclash'⟩

/-- The converse does not hold: of the rules `S ::= a E c`, `S ::= a F d`, `S ::= b F c`,
`S ::= b E d`, `E ::= e` and `F ::= e` the last two clash in LALR(1) only. -/
example :
    let word (left : String) (right : List Symbol) : Edit := .addRule ⟨left, right, ""⟩
    let g := Grammar.ofEdits [word startName [.intermediate "S"],
      word "S" [.terminal "a", .intermediate "E", .terminal "c"],
      word "S" [.terminal "a", .intermediate "F", .terminal "d"],
      word "S" [.terminal "b", .intermediate "F", .terminal "c"],
      word "S" [.terminal "b", .intermediate "E", .terminal "d"],
      word "E" [.terminal "e"], word "F" [.terminal "e"]]
    (build g ⟨.lr1, "EOI"⟩).map Table.check = .ok [] ∧
      (build g ⟨.lalr1, "EOI"⟩).map (fun t => t.check.length) = .ok 1 := by
  decide +kernel

end Table

end ShiftReduce
