import ShiftReduce.Proofs.Soundness

/-!
# Progress of runs

A run is never stuck. Where a rule is to be reduced, its whole right side is on the stack, and the
state below it is where the rule was begun; some item waited there for the left side, because only
rule 1 is begun without being asked for, and rule 1 is never reduced. This needs neither a grammar
without conflicts nor one that keeps its start symbol out of the right sides.
-/

namespace ShiftReduce

/-! ## Rules that have been begun -/

/-- A rule that closing has begun was asked for. -/
theorem ItemSet.ClosureCore.exists_waits {g : Grammar} {I : ItemSet} {q : Rule} (hq : q ∈ g.rules)
    (hI : ⟨q.id, 0⟩ ∉ I.cores) (h : ClosureCore g I ⟨q.id, 0⟩) :
    ∃ c rest, ClosureCore g I c ∧ g.Waits c (.intermediate q.left) rest := by
  generalize hd : (⟨q.id, 0⟩ : Core) = d at h
  cases h with
  | given h => exact absurd (hd ▸ h) hI
  | @alternative c p rest hc hw hp =>
    have hpq : p = q := Grammar.eq_of_id_eq hp hq (congrArg Core.rule hd).symm
    exact ⟨c, rest, hc, hpq ▸ hw⟩

/-- A rule other than rule 1 is begun only where an item waits for its left side. -/
theorem Setup.exists_waits_of_begun {u : Setup} {path : List Symbol} {q : Rule}
    (hq : q ∈ u.grammar.rules) (hne : q.id ≠ startId) (h : ⟨q.id, 0⟩ ∈ (u.along path).cores) :
    ∃ c ∈ (u.along path).cores, ∃ rest, u.grammar.Waits c (.intermediate q.left) rest := by
  cases path using List.reverseRecOn with
  | nil =>
    obtain ⟨c, rest, hc, hw⟩ := (mem_cores_along_nil.mp h).exists_waits hq fun hstart =>
      hne (congrArg Core.rule (Set.mem_singleton_iff.mp hstart))
    exact ⟨c, hc, rest, hw⟩
  | append_singleton path x =>
    obtain ⟨c, rest, hc, hw⟩ := (mem_cores_along_append_singleton.mp h).exists_waits hq <| by
      rintro ⟨d, -, -, hd⟩
      exact absurd (congrArg Core.dot hd) (Nat.succ_ne_zero _).symm
    exact ⟨c, mem_cores_along_append_singleton.mpr hc, rest, hw⟩

/-! ## What is on the stack -/

namespace Spells

variable {t : Table} {path : List Symbol} {stack : List StateId}

theorem lt_size (h : Spells t path stack) (ht : t.Complete) : ∀ i ∈ stack, i < t.size := by
  induction h with
  | start =>
    intro i hi
    obtain rfl := List.mem_singleton.mp hi
    exact ht.size_pos
  | @push path x i j rest _ hj ih =>
    intro k hk
    rcases List.mem_cons.mp hk with rfl | hk
    · exact (ht.leads i x _ hj).1
    · exact ih k hk

theorem getLast?_eq (h : Spells t path stack) : stack.getLast? = some Table.startState := by
  induction h with
  | start => rfl
  | push _ _ ih => rwa [List.getLast?_cons_cons]

end Spells

/-! ## Steps of a run -/

namespace Run

variable {t : Table} {a : Run} {i n : StateId} {rest : List StateId} {x name : String}
  {id : RuleId} {path : List Symbol}

theorem lt_of_goto? {y : Option StateId} (h : t.goto? i name = .ok y) : i < t.size := by
  by_contra hi
  have hnone : t.states[i]? = none := Array.getElem?_eq_none (Nat.le_of_not_lt hi)
  simp [Table.goto?, Table.state, hnone, bind, Except.bind] at h

theorem lt_of_shift (ht : t.Complete) (h : t.action i x = .ok (.shift n)) : n < t.size :=
  (ht.leads i _ n (successor?_of_shift ht h)).1

theorem lt_of_goto?_eq_some (ht : t.Complete) (h : t.goto? i name = .ok (some n)) :
    n < t.size := by
  rw [goto?_eq (lt_of_goto? h)] at h
  exact (ht.leads i _ n (Except.ok.inj h)).1

theorem action_ne_reduce_start (ht : t.Complete) (i : StateId) (x : String) :
    t.action i x ≠ .ok (.reduce startId) := by
  intro h
  generalize hy : Action.reduce startId = y at h
  cases candidate_of_action ht (lt_of_action h) h (hy ▸ nofun) with
  | shift _ _ _ => cases hy
  | accept _ _ _ _ => cases hy
  | reduce _ _ hr _ => exact hr (Action.reduce.inj hy).symm

/-- A reduction finds its right side on the stack and a successor below it. -/
theorem exists_of_reduce (ht : t.Complete) (hs : Spells t path (i :: rest))
    (hact : t.action i x = .ok (.reduce id)) : ∃ q below others target,
      t.grammar.rule id = .ok q ∧ (i :: rest).drop q.right.length = below :: others ∧
      t.goto? below q.left = .ok (some target) := by
  have hi := (hs.at_top ht).lt
  generalize hy : Action.reduce id = y at hact
  cases candidate_of_action ht hi hact (hy ▸ nofun) with
  | shift _ _ _ => cases hy
  | accept _ _ _ _ => cases hy
  | @reduce k hk hx hne _ =>
    obtain rfl := Action.reduce.inj hy
    have hrule := (ht.built i hi).proper.rules k hk
    obtain ⟨before, rfl, hbegun⟩ := spells_of_complete ht hs hk hx
    have hbelow := hs.drop
    obtain ⟨below, others, hdrop⟩ := hbelow.exists_top
    rw [hdrop] at hbelow
    have hat := hbelow.at_top ht
    obtain ⟨c, hc, rest', hw⟩ := Setup.exists_waits_of_begun hrule hne hbegun
    rw [← hat.cores] at hc
    obtain ⟨target, htarget⟩ := ht.linked below _
      ((State.mem_nextSymbols_iff_waits (ht.built below hat.lt).proper).mpr ⟨c, hc, rest', hw⟩)
    exact ⟨k.rule, below, others, target, Grammar.rule_id hrule, hdrop,
      by rw [goto?_eq hat.lt, htarget]⟩

theorem step_ne_stuck (ht : t.Complete) (hs : Spells t path a.stack) : a.step t ≠ .stuck := by
  obtain ⟨i, rest, hstack⟩ := hs.exists_top
  rw [hstack] at hs
  have hi := (hs.at_top ht).lt
  intro hstuck
  unfold step at hstuck
  rw [hstack] at hstuck
  split at hstuck
  · rename_i hnil
    cases hnil
  · cases hstuck
  · rename_i top rest' x input htop hinput
    obtain ⟨rfl, rfl⟩ := List.cons.inj htop
    split at hstuck
    · rename_i hact
      rw [action_eq hi] at hact
      cases hact
    · cases hstuck
    · rename_i id hact
      obtain ⟨q, below, others, target, hq, hdrop, hgoto⟩ := exists_of_reduce ht hs hact
      simp only [reduce, hq, hstack, hdrop, hgoto] at hstuck
      cases hstuck
    · cases hstuck
    · cases hstuck

end Run

namespace Table

/-- What a table promises to the runs over it, whatever their input. -/
structure NeverStuck (t : Table) : Prop where
  shift_lt : ∀ i x n, t.action i x = .ok (.shift n) → n < t.size
  goto_lt : ∀ i name n, t.goto? i name = .ok (some n) → n < t.size
  reduce_ne : ∀ i x, t.action i x ≠ .ok (.reduce startId)
  stack : ∀ input a, Run.Steps t (.start t input) a →
    (∀ i ∈ a.stack, i < t.size) ∧ a.stack.getLast? = some startState
  /-- A rule is reduced with its right side above the bottom of the stack, and the state below the
  right side leads on. -/
  reduce : ∀ input a i rest x id, Run.Steps t (.start t input) a → a.stack = i :: rest →
    t.action i x = .ok (.reduce id) → ∃ q below others target, t.grammar.rule id = .ok q ∧
      q.right.length < a.stack.length ∧ a.stack.drop q.right.length = below :: others ∧
      t.goto? below q.left = .ok (some target)
  step : ∀ input a, Run.Steps t (.start t input) a → a.step t ≠ .stuck

/-- The stack of a run spells a path from the start. -/
theorem Complete.exists_spells {t : Table} (ht : t.Complete) {input : List String} {a : Run}
    (hs : Run.Steps t (.start t input) a) : ∃ path, Spells t path a.stack := by
  obtain ⟨-, path, hspells, -⟩ := (Run.parsed_start t input).steps ht hs
  exact ⟨path, hspells⟩

theorem Complete.neverStuck {t : Table} (ht : t.Complete) : t.NeverStuck where
  shift_lt _ _ _ := Run.lt_of_shift ht
  goto_lt _ _ _ := Run.lt_of_goto?_eq_some ht
  reduce_ne := Run.action_ne_reduce_start ht
  stack input a hs := by
    obtain ⟨path, hspells⟩ := ht.exists_spells hs
    exact ⟨hspells.lt_size ht, hspells.getLast?_eq⟩
  reduce input a i rest x id hs hstack hact := by
    obtain ⟨path, hspells⟩ := ht.exists_spells hs
    rw [hstack] at hspells ⊢
    obtain ⟨q, below, others, target, hq, hdrop, hgoto⟩ := Run.exists_of_reduce ht hspells hact
    refine ⟨q, below, others, target, hq, ?_, hdrop, hgoto⟩
    by_contra hlen
    rw [List.drop_eq_nil_of_le (Nat.le_of_not_lt hlen)] at hdrop
    cases hdrop
  step input a hs := by
    obtain ⟨path, hspells⟩ := ht.exists_spells hs
    exact Run.step_ne_stuck ht hspells

/-- The table of a grammar with a start rule lets no run get stuck: its shifts and successors lead
to states that it has, rule 1 is never reduced, and every reduction finds its right side on the
stack and a successor below it. -/
theorem build_neverStuck {g : Grammar} {r : Rule} (h : g.startRule = .ok r) (config : Config) :
    build g config = .error (.fault .tooManyStates) ∧ (Setup.new g config).Crowded ∨
      ∃ t, build g config = .ok t ∧ t.grammar = g ∧ t.config = config ∧ t.NeverStuck := by
  rcases build_cases h config with herror | ⟨t, ht⟩
  · exact .inl herror
  · exact .inr ⟨t, ht, grammar_of_build ht, config_of_build ht, (complete_of_build ht).neverStuck⟩

/-- A grammar that comes back to its start symbol, has an empty rule and is ambiguous. -/
def recursiveEdits : List Edit :=
  [.addRule ⟨startName, [.intermediate "A"], ""⟩,
    .addRule ⟨"A", [.intermediate "A", .intermediate startName], ""⟩, .addRule ⟨"A", [], ""⟩,
    .addRule ⟨"A", [.terminal "a"], ""⟩]

theorem neverStuck_recursive : ∃ t, build (.ofEdits recursiveEdits) ⟨.lr0, "EOI"⟩ = .ok t ∧
    t.NeverStuck := by
  have hstart : (Grammar.ofEdits recursiveEdits).startRule =
      .ok ⟨⟨startName, [.intermediate "A"], ""⟩, startId⟩ := by
    decide +kernel
  rcases build_neverStuck hstart ⟨.lr0, "EOI"⟩ with ⟨herror, -⟩ | ⟨t, ht, -, -, hnever⟩
  · exact absurd herror (by decide +kernel)
  · exact ⟨t, ht, hnever⟩

end Table

end ShiftReduce
