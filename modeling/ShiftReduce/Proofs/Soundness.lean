import ShiftReduce.Proofs.Runs

/-!
# Soundness of tables

The stack of a run spells a string of symbols from which the reductions, undone in reverse order,
lead back to the terminals that have been shifted. An item with its dot at the end of a rule is
found only where the right side of the rule stands at the end of the string, so every reduction is
the inverse of a rightmost step; and the end of rule 1 is found only where nothing else is on the
stack.
-/

namespace ShiftReduce

namespace Setup

variable {u : Setup} {path : List Symbol} {q r : Rule}

/-- What an item has read stands at the end of the path, and the rule was begun before it. -/
theorem exists_begun_of_along (hq : q ∈ u.grammar.rules) {dot : Nat}
    (h : ⟨q.id, dot⟩ ∈ (u.along path).cores) :
    ∃ before, path = before ++ q.right.take dot ∧ ⟨q.id, 0⟩ ∈ (u.along before).cores := by
  induction path using List.reverseRecOn generalizing dot with
  | nil =>
    -- the start has only items of which nothing has been read
    have hdot : dot = 0 := by
      generalize hc : (⟨q.id, dot⟩ : Core) = c at h
      rw [mem_cores_along_nil] at h
      cases h with
      | given h =>
        rw [Set.mem_singleton_iff.mp h] at hc
        exact congrArg Core.dot hc
      | alternative _ _ _ => exact congrArg Core.dot hc
    subst hdot
    exact ⟨[], by simp, h⟩
  | append_singleton path x ih =>
    by_cases hdot : dot = 0
    · subst hdot
      exact ⟨path ++ [x], by simp, h⟩
    rw [mem_cores_along_append_singleton] at h
    generalize hc : (⟨q.id, dot⟩ : Core) = c at h
    cases h with
    | alternative _ _ _ => exact absurd (congrArg Core.dot hc) hdot
    | given h =>
      obtain ⟨⟨id, n⟩, hd, ⟨rest, hw⟩, rfl⟩ := h
      obtain ⟨rfl, rfl⟩ : q.id = id ∧ dot = n + 1 :=
        ⟨congrArg Core.rule hc, congrArg Core.dot hc⟩
      obtain ⟨before, hpath, hbegun⟩ := ih hd
      refine ⟨before, ?_, hbegun⟩
      obtain ⟨p, hp, hid, hdrop⟩ := hw
      obtain rfl := Grammar.eq_of_id_eq hp hq hid
      change p.right.drop n = x :: rest at hdrop
      have hx : p.right[n]? = some x := by
        have hhead := congrArg List.head? hdrop
        rwa [List.head?_drop] at hhead
      rw [List.take_add_one, hx, hpath, List.append_assoc]
      rfl

/-- Rule 1 is begun at the start only, if no rule asks for its left side. -/
theorem path_eq_nil_of_start (hr : u.grammar.startRule = .ok r)
    (hfree : ∀ q ∈ u.grammar.rules, .intermediate r.left ∉ q.right)
    (h : ⟨startId, 0⟩ ∈ (u.along path).cores) : path = [] := by
  obtain ⟨hmem, hid⟩ := Grammar.startRule_eq_ok_iff.mp hr
  cases path using List.reverseRecOn with
  | nil => rfl
  | append_singleton path x =>
    rw [mem_cores_along_append_singleton] at h
    generalize hc : (⟨startId, 0⟩ : Core) = c at h
    cases h with
    | given h =>
      obtain ⟨d, -, -, rfl⟩ := h
      exact absurd (congrArg Core.dot hc) (Nat.succ_ne_zero _).symm
    | @alternative c p rest _ hw hp =>
      have hpr : p = r := Grammar.eq_of_id_eq hp hmem ((congrArg Core.rule hc).symm.trans hid.symm)
      obtain ⟨o, ho, -, hdrop⟩ := hw
      refine absurd ?_ (hfree o ho)
      rw [← hpr]
      exact List.mem_of_mem_drop (hdrop ▸ List.mem_cons_self)

end Setup

namespace Grammar

theorem RightmostBy.append_terminals {g : Grammar} {ids : List RuleId} {s t : List Symbol}
    (h : g.RightmostBy ids s t) (w : List String) :
    g.RightmostBy ids (s ++ w.map .terminal) (t ++ w.map .terminal) := by
  induction h with
  | refl s => exact .refl _
  | @step r ids u t v hr _ ih =>
    have hstep := RightmostBy.step (u := u) (w := v ++ w) hr (by simpa using ih)
    simpa using hstep

end Grammar

/-! ## The invariant of a run -/

namespace Run

variable {t : Table} {a b : Run} {input : List String} {r : Rule}

/-- What a run has done so far: the reductions lead from what the stack spells to what has been
shifted, and nothing of the input is lost. -/
def Parsed (t : Table) (input : List String) (a : Run) : Prop :=
  a.shifted ++ a.input = input ++ [t.config.endOfInput] ∧ ∃ path, Spells t path a.stack ∧
    t.grammar.RightmostBy a.reduced.reverse path (a.shifted.map .terminal)

theorem parsed_start (t : Table) (input : List String) : Parsed t input (.start t input) :=
  ⟨rfl, [], .start, .refl _⟩

/-- A complete item on top of the stack has its whole rule on the stack. -/
theorem spells_of_complete {path : List Symbol} {i : StateId} {rest : List StateId} {k : Item}
    (ht : t.Complete) (h : Spells t path (i :: rest)) (hk : k ∈ (t.get i).items)
    (hx : k.nextSymbol? = none) : ∃ before, path = before ++ k.rule.right ∧
      ⟨k.rule.id, 0⟩ ∈ (t.setup.along before).cores := by
  have hat := h.at_top ht
  have hcore : (⟨k.rule.id, k.dot⟩ : Core) ∈ (t.setup.along path).cores := by
    rw [← hat.cores]
    exact State.mem_cores.mpr ⟨k, hk, rfl⟩
  have hrule := (ht.built i hat.lt).proper.rules k hk
  obtain ⟨before, hpath, hbegun⟩ := Setup.exists_begun_of_along hrule hcore
  rw [State.nextSymbol?_eq_none_iff.mp hx, List.take_length] at hpath
  exact ⟨before, hpath, hbegun⟩

theorem Parsed.shift (ht : t.Complete) (h : Parsed t input a) {i target : StateId}
    {rest : List StateId} {x : String} {input' : List String} (hstack : a.stack = i :: rest)
    (hin : a.input = x :: input') (hact : t.action i x = .ok (.shift target)) :
    Parsed t input ⟨target :: a.stack, input', a.shifted ++ [x], a.reduced⟩ := by
  obtain ⟨hinput, path, hspells, hby⟩ := h
  rw [hstack] at hspells
  have hi := (hspells.at_top ht).lt
  cases candidate_of_action ht hi hact nofun with
  | @shift k _ hk hx hn =>
    have hj : (t.get i).successor? (.terminal x) = some target := by
      rw [← (ht.built i hi).uniform k hk _ hx]
      exact hn
    refine ⟨?_, path ++ [.terminal x], ?_, ?_⟩
    · rw [← hinput, hin, List.append_assoc]
      rfl
    · rw [hstack]
      exact hspells.push hj
    · rw [List.map_append]
      exact hby.append_terminals [x]

theorem Parsed.reduce (ht : t.Complete) (h : Parsed t input a) {i below target : StateId}
    {rest others : List StateId} {x : String} {q : Rule} (hstack : a.stack = i :: rest)
    (hact : t.action i x = .ok (.reduce q.id)) (hq : q ∈ t.grammar.rules)
    (hdrop : a.stack.drop q.right.length = below :: others)
    (hgoto : t.goto? below q.left = .ok (some target)) :
    Parsed t input ⟨target :: below :: others, a.input, a.shifted, a.reduced ++ [q.id]⟩ := by
  obtain ⟨hinput, path, hspells, hby⟩ := h
  rw [hstack] at hspells
  have hi := (hspells.at_top ht).lt
  generalize hred : Action.reduce q.id = y at hact
  cases candidate_of_action ht hi hact (hred ▸ nofun) with
  | shift _ _ _ => cases hred
  | accept _ _ _ _ => cases hred
  | @reduce k hk hx _ _ =>
    obtain rfl := Grammar.eq_of_id_eq hq ((ht.built i hi).proper.rules k hk)
      (Action.reduce.inj hred)
    obtain ⟨before, rfl, -⟩ := spells_of_complete ht hspells hk hx
    have hbelow := hspells.drop
    rw [← hstack, hdrop] at hbelow
    rw [goto?_eq (hbelow.at_top ht).lt] at hgoto
    refine ⟨hinput, before ++ [.intermediate k.rule.left], hbelow.push (Except.ok.inj hgoto), ?_⟩
    rw [List.reverse_append]
    exact .step (w := []) hq (by simpa using hby)

theorem Parsed.step (ht : t.Complete) (h : Parsed t input a) (hs : a.step t = .next b) :
    Parsed t input b := by
  obtain ⟨i, rest, x, input', hstack, hin, hcase⟩ := step_cases hs
  rcases hcase with ⟨target, hact, rfl⟩ |
    ⟨id, q, below, others, target, hact, hq, hdrop, hgoto, rfl⟩
  · exact h.shift ht hstack hin hact
  · obtain ⟨hmem, rfl⟩ := Grammar.rule_eq_ok_iff.mp hq
    exact h.reduce ht hstack hact hmem hdrop hgoto

theorem Parsed.steps (ht : t.Complete) (h : Parsed t input a) (hs : Steps t a b) :
    Parsed t input b := by
  induction hs with
  | refl => exact h
  | step hstep _ ih => exact ih (h.step ht hstep)

/-- A run accepts before the end of input, with the right side of rule 1 on the stack. -/
theorem Parsed.accepted (ht : t.Complete) (hr : t.grammar.startRule = .ok r)
    (hfree : ∀ q ∈ t.grammar.rules, .intermediate r.left ∉ q.right) (h : Parsed t input a)
    (ha : a.step t = .accepted) : a.input.head? = some t.config.endOfInput ∧
      t.grammar.RightmostBy a.reduced.reverse r.right (a.shifted.map .terminal) := by
  obtain ⟨-, path, hspells, hby⟩ := h
  obtain ⟨i, rest, x, input', hstack, hin, hact⟩ := step_eq_accepted ha
  rw [hstack] at hspells
  have hi := (hspells.at_top ht).lt
  cases candidate_of_action ht hi hact nofun with
  | @accept k hk hx hid he =>
    obtain ⟨before, hpath, hbegun⟩ := spells_of_complete ht hspells hk hx
    rw [hid] at hbegun
    have hrule : k.rule = r := by
      obtain ⟨hmem, hrid⟩ := Grammar.startRule_eq_ok_iff.mp hr
      exact Grammar.eq_of_id_eq ((ht.built i hi).proper.rules k hk) hmem (hid.trans hrid.symm)
    obtain rfl := Setup.path_eq_nil_of_start hr hfree hbegun
    rw [hpath, List.nil_append, hrule] at hby
    exact ⟨by rw [hin, he]; rfl, hby⟩

end Run

/-- Whenever a run over the table of a grammar accepts, the next terminal is the end of input, and
the rules that were reduced are, in reverse order, those of a rightmost derivation of the terminals
that were shifted. The grammar may use its start symbol in no right side. -/
theorem Table.rightmost_of_accepted (edits : List Edit) {config : Config} {r : Rule} {t : Table}
    (hr : (Grammar.ofEdits edits).startRule = .ok r)
    (hfree : ∀ q ∈ (Grammar.ofEdits edits).rules, .intermediate startName ∉ q.right)
    (ht : build (.ofEdits edits) config = .ok t) (input : List String) {a : Run}
    (hs : Run.Steps t (.start t input) a) (ha : a.step t = .accepted) :
    a.input.head? = some config.endOfInput ∧
      a.shifted ++ a.input = input ++ [config.endOfInput] ∧
      (Grammar.ofEdits edits).RightmostBy a.reduced.reverse r.right (a.shifted.map .terminal) := by
  have hcomplete := complete_of_build ht
  have hparsed := (Run.parsed_start t input).steps hcomplete hs
  have hleft := (Grammar.startsRight_ofEdits edits).left hr
  rw [← grammar_of_build ht] at hr hfree ⊢
  rw [← config_of_build ht]
  obtain ⟨hhead, hby⟩ := hparsed.accepted hcomplete hr (hleft ▸ hfree) ha
  exact ⟨hhead, hparsed.1, hby⟩

theorem Table.rightmost_of_accepted_sample : ∃ t a,
    build (.ofEdits sampleEdits) ⟨.lalr1, "EOI"⟩ = .ok t ∧
      Run.Steps t (.start t ["c", "d", "d"]) a ∧ a.step t = .accepted ∧
      a.input = ["EOI"] ∧ a.shifted = ["c", "d", "d"] ∧ a.reduced = [4, 3, 4, 2] ∧
      (Grammar.ofEdits sampleEdits).RightmostBy [2, 4, 3, 4] [.intermediate "S"]
        [.terminal "c", .terminal "d", .terminal "d"] := by
  rcases build_cases startRule_sample ⟨.lalr1, "EOI"⟩ with ⟨herror, -⟩ | ⟨t, ht⟩
  · exact absurd herror (by decide +kernel)
  have hiterate : (build (.ofEdits sampleEdits) ⟨.lalr1, "EOI"⟩).map (fun t =>
      Run.iterate t 9 (.start t ["c", "d", "d"])) =
        .ok (⟨[1, 0], ["EOI"], ["c", "d", "d"], [4, 3, 4, 2]⟩, .accepted) := by
    decide +kernel
  rw [ht] at hiterate
  obtain ⟨hsteps, haccepted⟩ := Run.steps_of_iterate (Except.ok.inj hiterate)
  obtain ⟨-, -, hby⟩ := rightmost_of_accepted sampleEdits startRule_sample start_not_mem_sample ht
    ["c", "d", "d"] hsteps haccepted
  exact ⟨t, _, ht, hsteps, haccepted, rfl, rfl, rfl, hby⟩

end ShiftReduce
