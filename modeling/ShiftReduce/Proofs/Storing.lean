import ShiftReduce.Grammar.Ledger
import ShiftReduce.Proofs.Rules

/-!
# Storing rules

Adding a rule registers its symbols and then numbers it. It becomes rule 1, it gets the next number
behind the others, or every number is taken. The rules that were there stay as they are.
-/

namespace ShiftReduce

/-! ## Registration -/

namespace Names

theorem foldl_addSymbol (n : Names) (symbols : List Symbol) :
    symbols.foldl addSymbol n =
      ⟨n.terminals.insertAll ((symbols.filter Symbol.isTerminal).map Symbol.name),
        n.intermediates.insertAll ((symbols.filter Symbol.isIntermediate).map Symbol.name)⟩ := by
  induction symbols generalizing n with
  | nil => rfl
  | cons x symbols ih =>
    rw [List.foldl_cons, ih]
    cases x <;> rfl

theorem register_eq (n : Names) (p : Production) :
    n.register p =
      ⟨n.terminals.insertAll p.terminals, n.intermediates.insertAll p.intermediates⟩ := by
  simp only [register, foldl_addSymbol, addIntermediate, Production.terminals,
    Production.intermediates, OrderedSet.insertAll_append]
  rfl

end Names

namespace Grammar

variable {g : Grammar} {p : Production} {r : Rule}

@[simp] theorem rules_register (g : Grammar) (p : Production) : (g.register p).rules = g.rules :=
  rfl

@[simp] theorem nextId_register (g : Grammar) (p : Production) :
    (g.register p).nextId = g.nextId :=
  rfl

/-! ## Numbers -/

theorem ids_rules (g : Grammar) :
    g.rules.map Rule.id =
      (g.start?.map fun _ => startId).toList ++ List.range' firstId g.others.size := by
  unfold rules
  rw [List.map_append]
  congr 1
  · cases g.start? <;> rfl
  · apply List.ext_getElem
    · simp
    · intro i hi _
      simp [Nat.add_comm]

theorem mem_ids_rules {id : RuleId} :
    id ∈ g.rules.map Rule.id ↔
      id = startId ∧ g.start?.isSome ∨ firstId ≤ id ∧ id < g.nextId := by
  rw [ids_rules, List.mem_append, List.mem_range'_1, nextId, Nat.add_comm g.others.size]
  cases g.start? <;> simp

theorem startId_mem_ids : startId ∈ g.rules.map Rule.id ↔ g.start?.isSome := by
  rw [mem_ids_rules]
  simp [startId, firstId]

theorem nextId_not_mem_ids (g : Grammar) : g.nextId ∉ g.rules.map Rule.id := by
  rw [mem_ids_rules]
  rintro (⟨h, -⟩ | ⟨-, h⟩)
  · exact absurd h (Nat.ne_of_gt (Nat.lt_add_left g.others.size (Nat.lt_succ_self startId)))
  · exact Nat.lt_irrefl g.nextId h

/-! ## What storing can do -/

/-- The grammar in which a production is rule 1. -/
def begun (g : Grammar) (p : Production) : Grammar := { g with start? := some p }

/-- The grammar with a production behind the others. -/
def extended (g : Grammar) (p : Production) : Grammar := { g with others := g.others.push p }

theorem store_cases (g : Grammar) (p : Production) :
    ((p.left = startName ∧ g.start? = none) ∧ g.store p = (g.begun p, .ok startId)) ∨
    (¬(p.left = startName ∧ g.start? = none) ∧ g.nextId ≤ lastId ∧
      g.store p = (g.extended p, .ok g.nextId)) ∨
    (¬(p.left = startName ∧ g.start? = none) ∧ lastId < g.nextId ∧
      g.store p = (g, .error .ruleNumbersExhausted)) := by
  unfold store
  by_cases hstart : p.left = startName ∧ g.start? = none
  · rw [if_pos hstart]
    exact .inl ⟨hstart, rfl⟩
  · rw [if_neg hstart]
    by_cases hid : g.nextId ≤ lastId
    · rw [if_pos hid]
      exact .inr (.inl ⟨hstart, hid, rfl⟩)
    · rw [if_neg hid]
      exact .inr (.inr ⟨hstart, Nat.lt_of_not_le hid, rfl⟩)

theorem rules_begun (h : g.start? = none) (p : Production) :
    (g.begun p).rules = ⟨p, startId⟩ :: g.rules := by
  simp [begun, rules, h]

theorem rules_extended (g : Grammar) (p : Production) :
    (g.extended p).rules = g.rules ++ [⟨p, g.nextId⟩] := by
  simp [extended, rules, nextId, List.mapIdx_concat]

theorem nextId_extended (g : Grammar) (p : Production) : (g.extended p).nextId = g.nextId + 1 := by
  simp only [nextId, extended, Array.size_push]
  exact Nat.add_right_comm g.others.size 1 firstId

theorem alternatives_begun (h : g.start? = none) (p : Production) (name : String) :
    (g.begun p).alternatives name =
      if name = p.left then ⟨p, startId⟩ :: g.alternatives name else g.alternatives name := by
  unfold alternatives
  rw [rules_begun h]
  by_cases hname : name = p.left
  · simp [hname]
  · simp [hname, Ne.symm hname]

theorem alternatives_extended (g : Grammar) (p : Production) (name : String) :
    (g.extended p).alternatives name =
      if name = p.left then g.alternatives name ++ [⟨p, g.nextId⟩] else g.alternatives name := by
  unfold alternatives
  rw [rules_extended]
  by_cases hname : name = p.left
  · simp [hname]
  · simp [hname, Ne.symm hname]

/-- Storing leaves the rules that are there as they are. -/
theorem rules_sublist_store (g : Grammar) (p : Production) :
    g.rules.Sublist (g.store p).1.rules := by
  rcases g.store_cases p with ⟨hstart, hstore⟩ | ⟨-, -, hstore⟩ | ⟨-, -, hstore⟩
  · rw [hstore, rules_begun hstart.2]
    exact List.sublist_cons_self _ _
  · rw [hstore, rules_extended]
    exact List.sublist_append_left _ _
  · have hsame : (g.store p).1.rules = g.rules := by rw [hstore]
    exact hsame ▸ .refl _

end Grammar

namespace Edit

/-- No edit changes, removes or renumbers a rule. -/
theorem rules_sublist_apply (g : Grammar) (e : Edit) : g.rules.Sublist (e.apply g).rules := by
  cases e with
  | addTerminal name => exact .refl _
  | addIntermediate name => exact .refl _
  | setType name type => exact .refl _
  | addRule p =>
    have h := (g.register p).rules_sublist_store p
    rwa [Grammar.rules_register] at h

theorem rules_sublist_foldl (g : Grammar) (edits : List Edit) :
    g.rules.Sublist (edits.foldl apply g).rules := by
  induction edits generalizing g with
  | nil => exact .refl _
  | cons e edits ih => exact (e.rules_sublist_apply g).trans (ih _)

end Edit

end ShiftReduce
