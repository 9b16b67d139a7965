import ShiftReduce.Proofs.Paths

/-!
# Runs of complete tables

A stack of states spells a path from the start state. The action of a state is one of the candidates
that its items put forward, and it is an error only if there are none.
-/

namespace ShiftReduce

/-! ## Candidates -/

/-- Lookaheads are terminals. -/
theorem ItemSet.ClosureLookahead.terminal {g : Grammar} {ahead : Bool} {I : ItemSet} {c : Core}
    {y : Symbol} (hI : ∀ p ∈ I.lookaheads, ∃ a, p.2 = .terminal a)
    (h : ClosureLookahead g ahead I c y) : ∃ a, y = .terminal a := by
  induction h with
  | given h => exact hI _ h
  | first _ _ _ _ _ => exact ⟨_, rfl⟩
  | pass _ _ _ _ _ ih => exact ih

theorem Setup.terminal_of_along {u : Setup} {path : List Symbol} {p : Core × Symbol}
    (h : p ∈ (u.along path).lookaheads) : ∃ a, p.2 = .terminal a := by
  induction path using List.reverseRecOn generalizing p with
  | nil =>
    refine ItemSet.ClosureLookahead.terminal (fun q hq => ?_) h
    obtain ⟨-, rfl⟩ := hq
    exact ⟨_, rfl⟩
  | append_singleton path x ih =>
    rw [along_append_singleton] at h
    refine ItemSet.ClosureLookahead.terminal (fun q hq => ?_) h
    obtain ⟨d, hd, -, -⟩ := hq
    exact ih (p := (d, q.2)) hd

namespace State

/-- What some item of a state says about a terminal. -/
inductive Candidate (s : State) (a endOfInput : String) : Action → Prop where
  | shift {k : Item} {target : StateId} (hk : k ∈ s.items)
      (hx : k.nextSymbol? = some (.terminal a)) (hn : k.next = some target) :
      Candidate s a endOfInput (.shift target)
  | reduce {k : Item} (hk : k ∈ s.items) (hx : k.nextSymbol? = none)
      (hr : k.rule.id ≠ startId) (ha : s.method = .lr0 ∨ .terminal a ∈ k.lookaheads) :
      Candidate s a endOfInput (.reduce k.rule.id)
  | accept {k : Item} (hk : k ∈ s.items) (hx : k.nextSymbol? = none) (hr : k.rule.id = startId)
      (ha : a = endOfInput) : Candidate s a endOfInput .accept

variable {u : Setup} {s : State} {a e : String} {x : Action} {k : Item}

theorem nextSymbol?_eq_none_iff : k.nextSymbol? = none ↔ k.dot = k.rule.right.length := by
  have hle := k.dot_le
  rw [Item.nextSymbol?, Item.after, List.head?_eq_none_iff, List.drop_eq_nil_iff]
  omega

theorem accepting_iff (hx : k.nextSymbol? = none) :
    k.accepting = true ↔ k.rule.id = startId := by
  simp [Item.accepting, Item.atEnd, Rule.isStart, nextSymbol?_eq_none_iff.mp hx]

theorem Built.terminal_of_mem (h : Built u s) (hk : k ∈ s.items) {y : Symbol}
    (hy : y ∈ k.lookaheads) : ∃ a, y = .terminal a := by
  obtain ⟨path, -, hp⟩ := h.grounded.lookaheads (k.core, y) (mem_pairs.mpr ⟨k, hk, rfl, hy⟩)
  exact Setup.terminal_of_along hp

theorem Built.reducibleBefore_iff (h : Built u s) (hk : k ∈ s.items) :
    reducibleBefore s.method a k = true ↔ s.method = .lr0 ∨ .terminal a ∈ k.lookaheads := by
  simp only [reducibleBefore, Bool.or_eq_true, decide_eq_true_eq, List.any_eq_true]
  refine or_congr_right ⟨?_, fun ha => ⟨_, ha, rfl⟩⟩
  rintro ⟨y, hy, rfl⟩
  obtain ⟨b, rfl⟩ := h.terminal_of_mem hk hy
  exact hy

theorem Built.candidate_iff (h : Built u s) :
    Candidate s a e x ↔ ∃ k ∈ s.items, verdict s.method a e k = some x := by
  constructor
  · rintro (⟨hk, hx, hn⟩ | ⟨hk, hx, hr, ha⟩ | ⟨hk, hx, hr, ha⟩)
    · exact ⟨_, hk, by simp [verdict, hx, hn]⟩
    · have hacc := mt (accepting_iff hx).mp hr
      exact ⟨_, hk, by simp [verdict, hx, hacc, (h.reducibleBefore_iff hk).mpr ha]⟩
    · exact ⟨_, hk, by simp [verdict, hx, (accepting_iff hx).mpr hr, ha]⟩
  · rintro ⟨k, hk, hv⟩
    unfold verdict at hv
    split at hv
    · rename_i y hx
      split at hv
      · rename_i hy
        obtain ⟨target, hn, rfl⟩ := Option.map_eq_some_iff.mp hv
        exact .shift hk (hy ▸ hx) hn
      · cases hv
    · rename_i hx
      split at hv
      · rename_i hacc
        split at hv
        · rename_i ha
          cases hv
          exact .accept hk hx ((accepting_iff hx).mp hacc) ha
        · cases hv
      · rename_i hacc
        split at hv
        · rename_i ha
          cases hv
          exact .reduce hk hx (mt (accepting_iff hx).mpr hacc) ((h.reducibleBefore_iff hk).mp ha)
        · cases hv

/-- The action is a candidate, or an error because there are no candidates. -/
theorem Built.action_cases (h : Built u s) : Candidate s a e (s.action a e) ∨
    s.action a e = .error ∧ ∀ x, ¬Candidate s a e x := by
  unfold action
  cases hf : s.items.findSome? (verdict s.method a e) with
  | some x =>
    obtain ⟨k, hk, hv⟩ := List.exists_of_findSome?_eq_some hf
    exact .inl (h.candidate_iff.mpr ⟨k, hk, hv⟩)
  | none =>
    refine .inr ⟨rfl, fun x hx => ?_⟩
    obtain ⟨k, hk, hv⟩ := h.candidate_iff.mp hx
    rw [List.findSome?_eq_none_iff.mp hf k hk] at hv
    cases hv

end State

/-! ## Stacks -/

/-- The states of the stack stand along the path; the newest one is the first. -/
inductive Spells (t : Table) : List Symbol → List StateId → Prop where
  | start : Spells t [] [Table.startState]
  | push {path : List Symbol} {x : Symbol} {i j : StateId} {rest : List StateId}
      (h : Spells t path (i :: rest)) (hj : (t.get i).successor? x = some j) :
      Spells t (path ++ [x]) (j :: i :: rest)

namespace Spells

variable {t : Table} {path word : List Symbol} {x : Symbol} {i : StateId}
  {stack rest : List StateId}

theorem exists_top (h : Spells t path stack) : ∃ i rest, stack = i :: rest := by
  cases h with
  | start => exact ⟨_, _, rfl⟩
  | push _ _ => exact ⟨_, _, rfl⟩

theorem follow?_eq (h : Spells t path (i :: rest)) :
    t.follow? Table.startState path = some i := by
  generalize hstack : i :: rest = stack at h
  induction h generalizing i rest with
  | start =>
    cases hstack
    rfl
  | push _ hj ih =>
    cases hstack
    rw [Table.follow?_append_singleton, ih rfl]
    exact hj

theorem at_top (h : Spells t path (i :: rest)) (ht : t.Complete) : t.At path i :=
  ht.at_of_follow? h.follow?_eq

theorem pop (h : Spells t (path ++ [x]) stack) : Spells t path stack.tail := by
  generalize hpath : path ++ [x] = p at h
  cases h with
  | start => exact absurd hpath (by simp)
  | push h _ =>
    obtain ⟨rfl, -⟩ := List.append_inj' hpath rfl
    exact h

/-- Taking off as many states as a word has symbols goes back by the word. -/
theorem drop (h : Spells t (path ++ word) stack) : Spells t path (stack.drop word.length) := by
  induction word using List.reverseRecOn generalizing stack with
  | nil => simpa using h
  | append_singleton word x ih =>
    rw [← List.append_assoc] at h
    have hdrop := ih h.pop
    rw [List.drop_tail] at hdrop
    rw [List.length_append, List.length_singleton]
    exact hdrop

end Spells

/-! ## Steps -/

namespace Run

variable {t : Table} {a b : Run} {i target : StateId} {rest : List StateId} {x : String}
  {input : List String} {id : RuleId} {q : Rule}

theorem action_eq (hi : i < t.size) (x : String) :
    t.action i x = .ok ((t.get i).action x t.config.endOfInput) := by
  have hs : t.states[i]? = some (t.get i) := Table.getElem?_eq_some.mpr ⟨hi, rfl⟩
  simp [Table.action, Table.state, hs, bind, Except.bind]

/-- An action that is not an error is a candidate. -/
theorem candidate_of_action (ht : t.Complete) (hi : i < t.size) {y : Action}
    (h : t.action i x = .ok y) (hy : y ≠ .error) :
    State.Candidate (t.get i) x t.config.endOfInput y := by
  rw [action_eq hi] at h
  rcases (ht.built i hi).action_cases (a := x) (e := t.config.endOfInput) with hc | ⟨he, -⟩
  · rw [← Except.ok.inj h]
    exact hc
  · rw [← Except.ok.inj h] at hy
    exact absurd he hy

theorem lt_of_action {y : Action} (h : t.action i x = .ok y) : i < t.size := by
  by_contra hi
  have hnone : t.states[i]? = none := Array.getElem?_eq_none (Nat.le_of_not_lt hi)
  simp [Table.action, Table.state, hnone, bind, Except.bind] at h

/-- What is shifted to is the recorded successor. -/
theorem successor?_of_shift (ht : t.Complete) (h : t.action i x = .ok (.shift target)) :
    (t.get i).successor? (.terminal x) = some target := by
  have hi := lt_of_action h
  cases candidate_of_action ht hi h nofun with
  | shift hk hx hn => exact ((ht.built i hi).uniform _ hk _ hx).symm.trans hn

theorem goto?_eq (hi : i < t.size) (name : String) :
    t.goto? i name = .ok ((t.get i).successor? (.intermediate name)) := by
  have hs : t.states[i]? = some (t.get i) := Table.getElem?_eq_some.mpr ⟨hi, rfl⟩
  simp only [Table.goto?, Table.state, hs, bind, Except.bind]
  rfl

/-- What a step does: it shifts, or it reduces. -/
theorem step_cases (h : a.step t = .next b) : ∃ i rest x input, a.stack = i :: rest ∧
    a.input = x :: input ∧
    ((∃ target, t.action i x = .ok (.shift target) ∧
        b = ⟨target :: a.stack, input, a.shifted ++ [x], a.reduced⟩) ∨
      ∃ id q below others target, t.action i x = .ok (.reduce id) ∧ t.grammar.rule id = .ok q ∧
        a.stack.drop q.right.length = below :: others ∧ t.goto? below q.left = .ok (some target) ∧
        b = ⟨target :: below :: others, a.input, a.shifted, a.reduced ++ [id]⟩) := by
  unfold step at h
  split at h
  · cases h
  · cases h
  · rename_i i rest x input hstack hinput
    refine ⟨i, rest, x, input, hstack, hinput, ?_⟩
    split at h
    · cases h
    · rename_i target hact
      cases h
      exact .inl ⟨target, hact, rfl⟩
    · rename_i id hact
      right
      unfold reduce at h
      split at h
      · cases h
      · rename_i q hq
        split at h
        · cases h
        · rename_i below others hdrop
          split at h
          · rename_i target hgoto
            cases h
            exact ⟨id, q, below, others, target, hact, hq, hdrop, hgoto, rfl⟩
          · cases h
    · cases h
    · cases h

theorem reduce_ne_accepted (a : Run) (id : RuleId) : a.reduce t id ≠ .accepted := by
  unfold reduce
  split
  · exact nofun
  · split
    · exact nofun
    · split <;> exact nofun

theorem step_eq_accepted (h : a.step t = .accepted) : ∃ i rest x input, a.stack = i :: rest ∧
    a.input = x :: input ∧ t.action i x = .ok .accept := by
  unfold step at h
  split at h
  · cases h
  · cases h
  · rename_i i rest x input hstack hinput
    refine ⟨i, rest, x, input, hstack, hinput, ?_⟩
    split at h
    · cases h
    · cases h
    · exact absurd h (reduce_ne_accepted a _)
    · assumption
    · cases h

variable {shifted : List String} {reduced : List RuleId}

theorem step_shift (hact : t.action i x = .ok (.shift target)) :
    (⟨i :: rest, x :: input, shifted, reduced⟩ : Run).step t =
      .next ⟨target :: i :: rest, input, shifted ++ [x], reduced⟩ := by
  simp [step, hact]

theorem step_reduce {stack others : List StateId} {below : StateId} (hstack : stack = i :: rest)
    (hact : t.action i x = .ok (.reduce id)) (hq : t.grammar.rule id = .ok q)
    (hdrop : stack.drop q.right.length = below :: others)
    (hgoto : t.goto? below q.left = .ok (some target)) :
    (⟨stack, x :: input, shifted, reduced⟩ : Run).step t =
      .next ⟨target :: below :: others, x :: input, shifted, reduced ++ [id]⟩ := by
  subst hstack
  simp [step, reduce, hact, hq, hdrop, hgoto]

theorem step_accept (hact : t.action i x = .ok .accept) :
    (⟨i :: rest, x :: input, shifted, reduced⟩ : Run).step t = .accepted := by
  simp [step, hact]

theorem steps_of_iterate {n : Nat} (h : iterate t n a = (b, .accepted)) :
    Steps t a b ∧ b.step t = .accepted := by
  induction n generalizing a with
  | zero => cases h
  | succ n ih =>
    unfold iterate at h
    split at h
    · rename_i c hc
      exact ⟨.step hc (ih h).1, (ih h).2⟩
    · obtain ⟨rfl, hacc⟩ := Prod.mk.inj h
      exact ⟨.refl a, hacc⟩

/-- A run that comes to an accepting step has no other end. -/
theorem Steps.eq_of_accepted {c : Run} (hb : Steps t a b) (hc : Steps t a c)
    (hb' : b.step t = .accepted) (hc' : c.step t = .accepted) : b = c := by
  induction hb with
  | refl =>
    cases hc with
    | refl => rfl
    | step h _ =>
      rw [hb'] at h
      cases h
  | step h _ ih =>
    cases hc with
    | refl =>
      rw [hc'] at h
      cases h
    | step h2 hs =>
      rw [h] at h2
      cases h2
      exact ih hs hb'

end Run

end ShiftReduce
