import ShiftReduce.Grammar.Edit
import ShiftReduce.Item

/-!
# Rules and their numbers

The number of a rule determines it, and rule 1 is the only one that can begin a parse. In a grammar
that has come about by edits rule 1 is a rule of the start symbol.
-/

namespace ShiftReduce.Grammar

variable {g : Grammar} {r q : Rule}

/-! ## Looking up rules -/

theorem pairwise_id_rules (g : Grammar) : g.rules.Pairwise (·.id < ·.id) := by
  have hothers : (g.others.toList.mapIdx fun i p => Rule.mk p (i + firstId)).Pairwise
      (·.id < ·.id) := by
    rw [List.pairwise_iff_getElem]
    intro i j hi hj hij
    simp only [List.getElem_mapIdx]
    exact Nat.add_lt_add_right hij firstId
  unfold rules
  cases g.start? with
  | none => simpa using hothers
  | some p =>
    refine List.pairwise_cons.mpr ⟨?_, hothers⟩
    intro r hr
    obtain ⟨i, hi, rfl⟩ := List.mem_mapIdx.mp hr
    exact Nat.lt_add_left i (Nat.lt_succ_self startId)

theorem eq_of_id_eq (hr : r ∈ g.rules) (hq : q ∈ g.rules) (h : r.id = q.id) : r = q := by
  obtain ⟨i, hi, rfl⟩ := List.mem_iff_getElem.mp hr
  obtain ⟨j, hj, rfl⟩ := List.mem_iff_getElem.mp hq
  have hlt := List.pairwise_iff_getElem.mp g.pairwise_id_rules
  rcases Nat.lt_trichotomy i j with hij | hij | hij
  · exact absurd h (Nat.ne_of_lt (hlt i j hi hj hij))
  · subst hij
    rfl
  · exact absurd h.symm (Nat.ne_of_lt (hlt j i hj hi hij))

theorem rule_eq_ok_iff {id : RuleId} : g.rule id = .ok r ↔ r ∈ g.rules ∧ r.id = id := by
  unfold rule
  constructor
  · intro h
    split at h
    · rename_i s hs
      cases h
      exact ⟨List.mem_of_find?_eq_some hs, by simpa using List.find?_some hs⟩
    · cases h
  · rintro ⟨hr, rfl⟩
    cases hs : g.rules.find? (·.id = r.id) with
    | none => exact absurd (List.find?_eq_none.mp hs r hr) (by simp)
    | some s =>
      have hid : s.id = r.id := by simpa using List.find?_some hs
      rw [eq_of_id_eq (List.mem_of_find?_eq_some hs) hr hid]

theorem rule_id (hr : r ∈ g.rules) : g.rule r.id = .ok r := rule_eq_ok_iff.mpr ⟨hr, rfl⟩

theorem startRule_eq_ok_iff : g.startRule = .ok r ↔ r ∈ g.rules ∧ r.id = startId := by
  unfold startRule
  cases hs : g.start? with
  | none =>
    constructor
    · intro h
      cases h
    · intro ⟨hr, hid⟩
      simp only [rules, hs, Option.map_none, Option.toList_none, List.nil_append] at hr
      obtain ⟨i, hi, rfl⟩ := List.mem_mapIdx.mp hr
      exact absurd hid.symm (Nat.ne_of_lt (Nat.lt_add_left i (Nat.lt_succ_self startId)))
  | some p =>
    have hp : Rule.mk p startId ∈ g.rules := by simp [rules, hs]
    constructor
    · intro h
      cases h
      exact ⟨hp, rfl⟩
    · intro ⟨hr, hid⟩
      rw [eq_of_id_eq hr hp hid]

theorem pairwise_id_alternatives (g : Grammar) (name : String) :
    (g.alternatives name).Pairwise (·.id ≠ ·.id) :=
  (g.pairwise_id_rules.imp fun h => Nat.ne_of_lt h).filter _

@[simp] theorem mem_alternatives {name : String} :
    r ∈ g.alternatives name ↔ r ∈ g.rules ∧ r.left = name := by
  simp [alternatives]

/-! ## Cores -/

/-- The cores that items of some rules can have. -/
def coresOf (rules : List Rule) : List Core :=
  rules.flatMap fun r => (List.range (r.right.length + 1)).map (Core.mk r.id)

theorem length_coresOf (rules : List Rule) : (coresOf rules).length = dotCount rules := by
  induction rules with
  | nil => rfl
  | cons r rules ih =>
    simp only [coresOf, List.flatMap_cons, List.length_append, List.length_map, List.length_range]
    simp only [coresOf] at ih
    rw [ih]
    rfl

theorem mem_coresOf {rules : List Rule} (hr : r ∈ rules) {dot : Nat} (h : dot ≤ r.right.length) :
    ⟨r.id, dot⟩ ∈ coresOf rules :=
  List.mem_flatMap.mpr ⟨r, hr, List.mem_map_of_mem (List.mem_range.mpr (by omega))⟩

theorem length_le_dotCount (rules : List Rule) : rules.length ≤ dotCount rules := by
  induction rules with
  | nil => exact Nat.zero_le _
  | cons r rules ih =>
    simp only [List.length_cons, dotCount, List.foldr_cons]
    simp only [dotCount] at ih
    omega

/-- The right sides of rules, one behind the other. -/
def rightSymbols (rules : List Rule) : List Symbol := rules.flatMap fun r => r.right

theorem length_rightSymbols (rules : List Rule) :
    (rightSymbols rules).length + rules.length = dotCount rules := by
  induction rules with
  | nil => rfl
  | cons r rules ih =>
    simp only [rightSymbols, List.flatMap_cons, List.length_append, List.length_cons]
    simp only [rightSymbols] at ih
    simp only [dotCount, List.foldr_cons]
    simp only [dotCount] at ih
    omega

/-! ## Grammars made by edits -/

/-- Rule 1 is a rule of the start symbol. -/
def StartsRight (g : Grammar) : Prop := ∀ p, g.start? = some p → p.left = startName

theorem start?_register (g : Grammar) (p : Production) : (g.register p).start? = g.start? := rfl

theorem StartsRight.apply (h : g.StartsRight) (e : Edit) : (e.apply g).StartsRight := by
  cases e with
  | addTerminal name => exact h
  | addIntermediate name => exact h
  | setType name type => exact h
  | addRule p =>
    intro q hq
    simp only [Edit.apply, addRule, store] at hq
    split at hq
    · rename_i hp
      cases hq
      exact hp.1
    · split at hq <;> exact h q (start?_register g p ▸ hq)

theorem startsRight_ofEdits (edits : List Edit) : (ofEdits edits).StartsRight := by
  have hfold (l : List Edit) (g : Grammar) (hg : g.StartsRight) :
      (l.foldl Edit.apply g).StartsRight := by
    induction l generalizing g with
    | nil => exact hg
    | cons e l ih => exact ih _ (hg.apply e)
  exact hfold edits empty (fun p hp => by cases hp)

theorem StartsRight.left (h : g.StartsRight) (hr : g.startRule = .ok r) : r.left = startName := by
  unfold startRule at hr
  split at hr
  · rename_i p hp
    cases hr
    exact h p hp
  · cases hr

end ShiftReduce.Grammar
