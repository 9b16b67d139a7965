import Mathlib.Order.Bounds.Defs
import ShiftReduce.Proofs.ConflictReports

/-!
# Which rule is reduced

Of the items that complete a rule before a terminal the first one decides. The items of which
something has been read stand in front and go by the numbers of their rules, so among them the
lowest number wins. The empty rules that closing adds stand behind them, left side by left side:
there the number decides between rules of one left side only, and a lower number can lose.
-/

namespace ShiftReduce

namespace State

variable {u : Setup} {g : Grammar} {s : State} {a e : String} {k l : Item} {r : RuleId}

/-! ## The order of the cores -/

theorem rule_le_of_compare {c d : Core} (h : compare c d = .lt) : c.rule ≤ d.rule := by
  rcases Ordering.then_eq_lt.mp h with hlt | ⟨heq, -⟩
  · exact Nat.le_of_lt (Nat.compare_eq_lt.mp hlt)
  · exact Nat.le_of_eq (Nat.compare_eq_eq.mp heq)

/-- What has been read stands in front, and goes by the numbers of the rules. -/
theorem FromKernel.pairwise_read (h : s.FromKernel u) :
    s.cores.Pairwise fun c d => 0 < d.dot → 0 < c.dot ∧ c.rule ≤ d.rule := by
  obtain ⟨d, -, hopen, hkernel, hcores⟩ := h
  have hadded : ∀ c ∈ (d.expansions u).keys.toList.flatMap (fun n =>
      ((u.alternatives n).filter (·.id ∉ d.begun)).map fun r => (⟨r.id, 0⟩ : Core)),
      ¬0 < c.dot := by
    intro c hc
    obtain ⟨n, -, hc⟩ := List.mem_flatMap.mp hc
    obtain ⟨q, -, rfl⟩ := List.mem_map.mp hc
    exact Nat.lt_irrefl 0
  rw [hcores, cores_close hopen, List.pairwise_append]
  refine ⟨?_, ?_, fun c _ d hd hpos => absurd hpos (hadded d hd)⟩
  · rcases hkernel with hstart | ⟨-, hread, hasc⟩
    · rw [hstart]
      exact List.pairwise_singleton _ _
    · exact hasc.imp_of_mem fun hc _ hlt _ => ⟨hread _ hc, rule_le_of_compare hlt⟩
  · exact List.pairwise_of_forall_mem_list fun c _ d hd hpos => absurd hpos (hadded d hd)

/-- The first core begins rule `p`, the second one rule `q` of the same left side. -/
structure Rivals (g : Grammar) (c d : Core) (p q : Rule) : Prop where
  left : p ∈ g.rules
  right : q ∈ g.rules
  first : c = ⟨p.id, 0⟩
  second : d = ⟨q.id, 0⟩
  same : p.left = q.left

/-- The alternatives that closing adds for one left side go by their numbers. -/
theorem FromKernel.pairwise_begun (h : s.FromKernel u) : s.cores.Pairwise fun c d =>
    c.rule ≠ startId → ∀ p q, Rivals u.grammar c d p q → p.id ≤ q.id := by
  obtain ⟨d, -, hopen, hkernel, hcores⟩ := h
  -- rule 1 is the only one that a kernel begins
  have hbegun : ∀ c ∈ d.cores, c.rule ≠ startId → ∀ p : Rule, c ≠ ⟨p.id, 0⟩ := by
    rintro c hc hne p rfl
    rcases hkernel with hstart | ⟨-, hread, -⟩
    · rw [hstart, List.mem_singleton] at hc
      exact hne (congrArg Core.rule hc)
    · exact Nat.lt_irrefl 0 (hread _ hc)
  rw [hcores, cores_close hopen, List.pairwise_append]
  refine ⟨?_, List.pairwise_flatMap.mpr ⟨fun n _ => ?_, ?_⟩, ?_⟩
  · exact List.pairwise_of_forall_mem_list fun c hc d _ hne p q hpq =>
      absurd hpq.first (hbegun c hc hne p)
  · have hasc : ((u.alternatives n).filter (·.id ∉ d.begun)).Pairwise (·.id < ·.id) := by
      rw [u.alternatives_eq]
      exact (u.grammar.pairwise_id_rules.filter _).filter _
    refine List.pairwise_map.mpr (hasc.imp fun hlt _ p q hpq => ?_)
    have hp : _ = p.id := congrArg Core.rule hpq.first
    have hq : _ = q.id := congrArg Core.rule hpq.second
    rw [← hp, ← hq]
    exact Nat.le_of_lt hlt
  · refine (d.expansions u).keys.nodup.imp fun hne c hc d hd _ p q hpq => absurd ?_ hne
    obtain ⟨p', hp', rfl⟩ := List.mem_map.mp hc
    obtain ⟨q', hq', rfl⟩ := List.mem_map.mp hd
    have hp' := (List.mem_filter.mp hp').1
    have hq' := (List.mem_filter.mp hq').1
    rw [u.alternatives_eq, Grammar.mem_alternatives] at hp' hq'
    obtain ⟨hp', hleft⟩ := hp'
    obtain ⟨hq', hleft'⟩ := hq'
    rw [← hleft, ← hleft', Grammar.eq_of_id_eq hp' hpq.left (congrArg Core.rule hpq.first),
      Grammar.eq_of_id_eq hq' hpq.right (congrArg Core.rule hpq.second), hpq.same]
  · exact fun c hc d _ hne p q hpq => absurd hpq.first (hbegun c hc hne p)

/-! ## The items that complete a rule -/

/-- The item completes a rule other than rule 1, and `a` can follow it. -/
def CompletesBefore (s : State) (a : String) (k : Item) : Prop :=
  k.nextSymbol? = none ∧ k.rule.id ≠ startId ∧ (s.method = .lr0 ∨ .terminal a ∈ k.lookaheads)

instance (s : State) (a : String) (k : Item) : Decidable (s.CompletesBefore a k) :=
  inferInstanceAs (Decidable (_ ∧ _ ∧ _))

/-- The items that complete a rule before `a`, in their order. -/
def completing (s : State) (a : String) : List Item := s.items.filter (s.CompletesBefore a)

theorem mem_completing : k ∈ s.completing a ↔ k ∈ s.items ∧ s.CompletesBefore a k := by
  rw [completing, List.mem_filter, decide_eq_true_eq]

theorem Built.verdict_eq_reduce_iff (h : Built u s) (hk : k ∈ s.items) :
    verdict s.method a e k = some (.reduce r) ↔ s.CompletesBefore a k ∧ k.rule.id = r := by
  rw [State.verdict_eq_reduce_iff, h.reducibleBefore_iff hk, CompletesBefore, and_assoc, and_assoc]

/-- What is known of the rule `r` that is reduced before `a`. -/
structure Resolves (s : State) (a : String) (r : RuleId) : Prop where
  /-- The first of the items that complete a rule decides. -/
  first : ∃ k, (s.completing a).head? = some k ∧ k.rule.id = r
  /-- Where something has been read of one of them, the number is the lowest of those of which
  something has been read. -/
  read : (∃ k ∈ s.completing a, 0 < k.dot) →
    IsLeast {q | ∃ k ∈ s.completing a, 0 < k.dot ∧ k.rule.id = q} r
  /-- Where all of them complete empty rules, the number is the lowest of the same left side. -/
  empty : (∀ k ∈ s.completing a, k.dot = 0) → ∃ k, (s.completing a).head? = some k ∧
    IsLeast {q | ∃ l ∈ s.completing a, l.rule.left = k.rule.left ∧ l.rule.id = q} r
  /-- Only an empty rule can have a lower number. -/
  lower : ∀ k ∈ s.completing a, k.rule.id < r → k.rule.right = []

/-- The first item that completes a rule, and the others behind it. -/
theorem Built.completing_eq (h : Built u s) (hr : s.action a e = .reduce r) : ∃ k rest,
    s.completing a = k :: rest ∧ k.rule.id = r := by
  have hfound : s.items.findSome? (verdict s.method a e) = some (.reduce r) := by
    rw [action] at hr
    cases hf : s.items.findSome? (verdict s.method a e) with
    | none => simp [hf] at hr
    | some x => simpa [hf] using hr
  obtain ⟨before, k, behind, hitems, hk, hbefore⟩ := List.findSome?_eq_some_iff.mp hfound
  have hmem : k ∈ s.items := by simp [hitems]
  obtain ⟨hkc, rfl⟩ := (h.verdict_eq_reduce_iff hmem).mp hk
  refine ⟨k, behind.filter (s.CompletesBefore a), ?_, rfl⟩
  have hnone : before.filter (s.CompletesBefore a) = [] := by
    rw [List.filter_eq_nil_iff]
    intro l hl hlc
    have hlmem : l ∈ s.items := by simp [hitems, hl]
    have hverdict := (h.verdict_eq_reduce_iff (e := e) hlmem).mpr ⟨of_decide_eq_true hlc, rfl⟩
    rw [hbefore l hl] at hverdict
    cases hverdict
  rw [completing, hitems, List.filter_append, hnone, List.nil_append,
    List.filter_cons_of_pos (by simpa using hkc)]

theorem right_eq_nil_of_dot (hx : k.nextSymbol? = none) (hd : k.dot = 0) : k.rule.right = [] := by
  rw [nextSymbol?_eq_none_iff, hd] at hx
  exact List.length_eq_zero_iff.mp hx.symm

theorem Built.resolves (h : Built u s) (hr : s.action a e = .reduce r) : s.Resolves a r := by
  obtain ⟨k, rest, hcompleting, rfl⟩ := h.completing_eq hr
  have hread := (List.pairwise_map.mp h.kernel.pairwise_read).filter (s.CompletesBefore a)
  have hbegun := (List.pairwise_map.mp h.kernel.pairwise_begun).filter (s.CompletesBefore a)
  rw [← completing, hcompleting] at hread hbegun
  have hk : k ∈ s.completing a := by simp [hcompleting]
  have hcases {l : Item} (hl : l ∈ s.completing a) : l = k ∨ l ∈ rest := by
    simpa [hcompleting] using hl
  have hlow {l : Item} (hl : l ∈ s.completing a) (hpos : 0 < l.dot) :
      0 < k.dot ∧ k.rule.id ≤ l.rule.id := by
    rcases hcases hl with rfl | hl
    · exact ⟨hpos, Nat.le_refl _⟩
    · exact (List.pairwise_cons.mp hread).1 l hl hpos
  have hhead : (s.completing a).head? = some k := by rw [hcompleting, List.head?_cons]
  refine ⟨⟨k, hhead, rfl⟩, ?_, fun hempty => ⟨k, hhead, ⟨k, hk, rfl, rfl⟩, ?_⟩, fun l hl hlt => ?_⟩
  · rintro ⟨l, hl, hpos⟩
    refine ⟨⟨k, hk, (hlow hl hpos).1, rfl⟩, ?_⟩
    rintro q ⟨l, hl, hpos, rfl⟩
    exact (hlow hl hpos).2
  · rintro q ⟨l, hl, hleft, rfl⟩
    obtain ⟨hkmem, -, hkstart, -⟩ := mem_completing.mp hk
    obtain ⟨hlmem, -⟩ := mem_completing.mp hl
    rcases hcases hl with rfl | hrest
    · exact Nat.le_refl _
    · refine (List.pairwise_cons.mp hbegun).1 l hrest hkstart k.rule l.rule
        ⟨h.proper.rules k hkmem, h.proper.rules l hlmem, ?_, ?_, hleft.symm⟩
      · rw [Item.core, hempty k hk]
      · rw [Item.core, hempty l hl]
  · obtain ⟨-, hx, -⟩ := mem_completing.mp hl
    refine right_eq_nil_of_dot hx (Nat.eq_zero_of_not_pos fun hpos => ?_)
    exact Nat.not_lt.mpr (hlow hl hpos).2 hlt

end State

namespace Table

variable {t : Table} {g : Grammar} {config : Config} {i : StateId} {s : State} {a : String}
  {r : RuleId}

/-- The rule that is reduced is the one of the first item that completes a rule. -/
theorem build_resolves (h : build g config = .ok t) (hs : t.states[i]? = some s)
    (hr : t.action i a = .ok (.reduce r)) : s.Resolves a r := by
  obtain ⟨hi, rfl⟩ := getElem?_eq_some.mp hs
  have haction : (t.get i).action a t.config.endOfInput = .reduce r := by
    simpa [action, state, hs, bind, Except.bind] using hr
  exact ((complete_of_build h).built i hi).resolves haction

/-- The rules `START ::= S`, `S ::= a B`, `B ::=`, `S ::= a` and `S ::= a`. -/
def tailEdits : List Edit :=
  let word (left : String) (right : List Symbol) : Edit := .addRule ⟨left, right, ""⟩
  [word startName [.intermediate "S"], word "S" [.terminal "a", .intermediate "B"], word "B" [],
    word "S" [.terminal "a"], word "S" [.terminal "a"]]

/-- Behind `a` three rules can be reduced, and rule 4 is. -/
theorem resolves_tail : ∃ t s, build (.ofEdits tailEdits) ⟨.lalr1, "EOI"⟩ = .ok t ∧
    t.states[2]? = some s ∧ t.action 2 "EOI" = .ok (.reduce 4) ∧ s.Resolves "EOI" 4 ∧
      (s.completing "EOI").map (·.rule.id) = [4, 5, 3] := by
  obtain ⟨t, ht, hrun⟩ := exists_of_map_eq_ok
    (x := build (.ofEdits tailEdits) ⟨.lalr1, "EOI"⟩)
    (f := fun t => (t.states[2]?.map fun s => (s.completing "EOI").map (·.rule.id),
      t.action 2 "EOI"))
    (b := (some [4, 5, 3], .ok (.reduce 4))) (by decide +kernel)
  obtain ⟨hcompleting, haction⟩ := Prod.mk.inj hrun
  obtain ⟨s, hs, hcompleting⟩ := Option.map_eq_some_iff.mp hcompleting
  exact ⟨t, s, ht, hs, haction, build_resolves ht hs haction, hcompleting⟩

/-- Whatever is reduced before a terminal has the lowest number of all that could be. -/
def LowestWins (t : Table) : Prop :=
  ∀ i s a r, t.states[i]? = some s → t.action i a = .ok (.reduce r) →
    IsLeast {q | ∃ k ∈ s.completing a, k.rule.id = q} r

/-- The rules `START ::= S`, `B ::=`, `A ::=`, `S ::= A x` and `S ::= B x`. -/
def emptyEdits : List Edit :=
  let word (left : String) (right : List Symbol) : Edit := .addRule ⟨left, right, ""⟩
  [word startName [.intermediate "S"], word "B" [], word "A" [],
    word "S" [.intermediate "A", .terminal "x"], word "S" [.intermediate "B", .terminal "x"]]

theorem not_lowestWins_of_completing {low : RuleId} (hs : t.states[i]?.map (fun s =>
    (low ∈ (s.completing a).map (·.rule.id) : Bool)) = some true)
    (hr : t.action i a = .ok (.reduce r)) (hlow : low < r) : ¬t.LowestWins := by
  intro hwins
  obtain ⟨s, hs, hmem⟩ := Option.map_eq_some_iff.mp hs
  obtain ⟨k, hk, hid⟩ := List.mem_map.mp (of_decide_eq_true hmem)
  exact Nat.not_le.mpr hlow ((hwins i s a r hs hr).2 ⟨k, hk, hid⟩)

/-- An empty rule with a lower number loses to a rule of which something has been read, and to an
empty rule of another left side. -/
theorem not_lowestWins :
    (∃ t, build (.ofEdits tailEdits) ⟨.lalr1, "EOI"⟩ = .ok t ∧ ¬t.LowestWins) ∧
      ∃ t, build (.ofEdits emptyEdits) ⟨.lalr1, "EOI"⟩ = .ok t ∧ ¬t.LowestWins := by
  constructor
  · obtain ⟨t, ht, hrun⟩ := exists_of_map_eq_ok
      (x := build (.ofEdits tailEdits) ⟨.lalr1, "EOI"⟩)
      (f := fun t => (t.states[2]?.map fun s => (3 ∈ (s.completing "EOI").map (·.rule.id) : Bool),
        t.action 2 "EOI"))
      (b := (some true, .ok (.reduce 4))) (by decide +kernel)
    obtain ⟨hlow, haction⟩ := Prod.mk.inj hrun
    exact ⟨t, ht, not_lowestWins_of_completing hlow haction (by decide)⟩
  · obtain ⟨t, ht, hrun⟩ := exists_of_map_eq_ok
      (x := build (.ofEdits emptyEdits) ⟨.lalr1, "EOI"⟩)
      (f := fun t => (t.states[0]?.map fun s => (2 ∈ (s.completing "x").map (·.rule.id) : Bool),
        t.action 0 "x"))
      (b := (some true, .ok (.reduce 3))) (by decide +kernel)
    obtain ⟨hlow, haction⟩ := Prod.mk.inj hrun
    exact ⟨t, ht, not_lowestWins_of_completing hlow haction (by decide)⟩

end Table

end ShiftReduce
