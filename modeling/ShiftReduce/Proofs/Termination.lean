import ShiftReduce.Proofs.StateCount
import ShiftReduce.Proofs.Sweeps

/-!
# The construction terminates

A grammar has finitely many sets of cores and of lookaheads, and each step raises a measure: a visit
begins or ends, a draft is placed, or a lookahead is added for each state that is queued. So every
run of steps comes to an end. Neither the steps nor the sweeps that close a draft have bounds of
their own; the bounds that the construction works with are never met.
-/

namespace ShiftReduce

namespace State

variable {u : Setup} {s : State}

/-! ## Closing drafts -/

theorem closes_start (h : u.start u.config.method = .ok s) : s.Closes u (s.close u) := by
  refine closes (proper_start h).nodup ?_
  obtain ⟨r, -, rfl⟩ := start_eq_ok h
  rfl

theorem Built.closes_successorDraft (h : Built u s) (x : Symbol) :
    (s.successorDraft x).Closes u ((s.successorDraft x).close u) :=
  closes (proper_successorDraft h.proper x).nodup closed_successorDraft

end State

namespace Collection.Stage

variable {u : Setup} {n : Nat} {a b : Stage} {c d : Collection} {s : State} {source : StateId}
  {w v : Worklist StateId} {k k' : Resume}

/-! ## Runs -/

theorem progress_nonneg (c : Collection) : 0 ≤ progress u c :=
  Int.add_nonneg (Int.mul_nonneg (Int.natCast_nonneg _) (Int.natCast_nonneg _))
    (Int.natCast_nonneg _)

/-- A run from the first stage is not longer than the measure can rise. -/
theorem Reached.le_stepBound (h : Reached u n a) : n ≤ stepBound u := by
  obtain ⟨b, hb, hturns⟩ := h
  obtain ⟨r, hr⟩ := startRule_of_first hb
  obtain ⟨c, hc, -⟩ := exists_first hr
  obtain rfl := Except.ok.inj (hc.symm.trans hb)
  obtain ⟨hsound, -, hle⟩ := (sound_of_first hb).turns hturns
  have hzero : 0 ≤ measure u ⟨c, .visit⟩ := progress_nonneg c
  have hmax := hsound.measure_le
  omega

/-- The run comes to an end, or it is stopped because no number is left. -/
theorem exists_end (ha : first u = .ok a) : ∃ n b, Turns (step u) n a b ∧
    (step u b = .ok none ∧ build u = .ok b.collection ∨
      step u b = .error .tooManyStates ∧ b.collection.size = stateLimit ∧
        build u = .error (.fault .tooManyStates)) := by
  have hsound := sound_of_first ha
  obtain ⟨n, b, hturns, hlast⟩ := exists_last (measure u)
    (fun _ _ hs h => ⟨(hs.next h).sound, (hs.next h).rises⟩) (fun _ => Sound.measure_le) hsound
  refine ⟨n, b, hturns, ?_⟩
  cases (hsound.turns hturns).1.outcome with
  | finished hend _ _ => exact .inl ⟨hend, build_of_ends ha ⟨hturns, hend⟩⟩
  | full hfull hsize _ => exact .inr ⟨hfull, hsize, build_of_full ha hturns hfull⟩
  | next b' hnext _ => exact absurd hnext (hlast b')

/-! ## Propagation -/

/-- Only in LALR(1) are lookaheads propagated. -/
theorem Sound.working (h : Sound u ⟨c, .propagate w k⟩) :
    u.config.method = .lalr1 ∧ ∃ exempt, Working u exempt c w := by
  cases h with
  | record hm _ _ _ _ _ hw _ _ _ => exact ⟨hm, _, hw⟩
  | finish hm _ _ hw _ _ => exact ⟨hm, _, hw⟩

/-- A call of propagation returns, and its steps drain the queue. -/
theorem Sound.exists_drained (h : Sound u (propagate c source k)) :
    ∃ m d v, c.propagate u source = .ok d ∧
      Turns (step u) m (propagate c source k) ⟨d, .propagate v k⟩ ∧ v.queue = [] := by
  obtain ⟨hm, exempt, hwork⟩ := h.working
  obtain ⟨d, hd, -⟩ := (hwork.propagate_yields hm).exists_ok
  obtain ⟨m, v, hturns, hpop⟩ := propagate_turns k hd
  exact ⟨m, d, v, hd, hturns, Worklist.pop?_eq_none.mp hpop⟩

/-- When the queue is empty, propagation is over. -/
theorem step_ne_propagate (hpop : w.pop? = none) :
    step u ⟨c, .propagate w k⟩ ≠ .ok (some ⟨d, .propagate v k'⟩) := by
  intro h
  simp only [step, hpop] at h
  obtain ⟨a, ha, hsome⟩ := exists_of_bind_eq_ok h
  obtain rfl := Option.some.inj (Except.ok.inj hsome)
  cases k with
  | record id s x target rest =>
    obtain ⟨t, -, ht⟩ := exists_of_bind_eq_ok ha
    cases ht
  | finish id => cases ha

/-- A turn of propagation queues only states whose lookaheads it has enlarged. -/
theorem Sound.turned (h : Sound u ⟨c, .propagate w k⟩)
    (hstep : step u ⟨c, .propagate w k⟩ = .ok (some ⟨d, .propagate v k'⟩)) :
    ∃ source q, w.queue = source :: q.queue ∧ Turned source c q d v := by
  obtain ⟨hm, exempt, hwork⟩ := h.working
  cases hpop : w.pop? with
  | none => exact absurd hstep (step_ne_propagate hpop)
  | some p =>
    obtain ⟨source, q⟩ := p
    obtain ⟨e, v', hnext, -, -, -, -, hturned, -⟩ := exists_turn k hm hwork hpop
    rw [hnext] at hstep
    cases hstep
    exact ⟨source, q, (hwork.pop hpop).2.2, hturned⟩

/-! ## Drafts -/

/-- Every draft is one of a built state. -/
theorem Sound.exists_of_mem_drafts (h : Sound u a) (hs : s ∈ a.drafts) :
    ∃ t x, State.Built u t ∧ x ∈ t.nextSymbols ∧ s = t.successorDraft x := by
  have hpropagate {c : Collection} {w : Worklist StateId} {k : Resume} {exempt : Set StateId}
      (hw : Working u exempt c w) (hs : s ∈ drafts ⟨c, .propagate w k⟩) :
      ∃ t x, State.Built u t ∧ x ∈ t.nextSymbols ∧ s = t.successorDraft x := by
    cases hpop : w.pop? with
    | none => simp [drafts, hpop] at hs
    | some p =>
      obtain ⟨source, q⟩ := p
      obtain ⟨-, hlt, -⟩ := hw.pop hpop
      simp only [drafts, hpop, getElem?_eq_get hlt, Option.toList_some, List.flatMap_singleton,
        State.successors_eq, List.map_map, List.mem_map] at hs
      obtain ⟨x, hx, rfl⟩ := hs
      exact ⟨_, x, hw.inv.built source hlt, OrderedSet.mem_toList.mp hx, rfl⟩
  cases h with
  | visit _ => simp [drafts] at hs
  | place ht hsplit _ _ hdrafts =>
    subst hdrafts
    simp only [drafts, draftsOf, List.map_map, List.mem_map] at hs
    obtain ⟨x, hx, rfl⟩ := hs
    refine ⟨_, x, ht, OrderedSet.mem_toList.mp ?_, rfl⟩
    rw [hsplit]
    exact List.mem_append_right _ hx
  | record _ _ _ _ _ _ hw _ _ _ => exact hpropagate hw hs
  | finish _ _ _ hw _ _ => exact hpropagate hw hs

/-! ## The whole construction -/

/-- What it means that the construction terminates. -/
structure Halts (u : Setup) : Prop where
  refused : ∀ e, u.grammar.startRule = .error e → build u = .error e
  begins : ∀ r, u.grammar.startRule = .ok r → ∃ a, first u = .ok a
  states : ∀ n a, Reached u n a → a.collection.size ≤ u.stateBound
  steps : ∀ n a, Reached u n a → n ≤ stepBound u
  /-- The run has an end, and that is what the construction answers, unless the run is stopped. -/
  ends : ∀ a, first u = .ok a → ∃ n b, Turns (step u) n a b ∧
    (step u b = .ok none ∧ build u = .ok b.collection ∨
      step u b = .error .tooManyStates ∧ b.collection.size = stateLimit ∧
        build u = .error (.fault .tooManyStates))
  /-- Every call of propagation returns. -/
  propagates : ∀ n c source k, Reached u n (propagate c source k) →
    ∃ m d v, c.propagate u source = .ok d ∧
      Turns (step u) m (propagate c source k) ⟨d, .propagate v k⟩ ∧ v.queue = []
  /-- A state that is queued, when the first one is taken out, was queued before or has grown. -/
  queues : ∀ n c w k d v k', Reached u n ⟨c, .propagate w k⟩ →
    step u ⟨c, .propagate w k⟩ = .ok (some ⟨d, .propagate v k'⟩) →
    ∀ i ∈ v.queue, i ∈ w.queue.tail ∨
      (c.get i).itemSet.lookaheads ⊂ (d.get i).itemSet.lookaheads
  closes_start : ∀ s, u.start u.config.method = .ok s → s.Closes u (s.close u)
  closes : ∀ n a s, Reached u n a → s ∈ a.drafts → s.Closes u (s.close u)

/-- The construction terminates for every grammar, in each of the classes and with every end of
input: its outer loop, every call of propagation and every closing of a draft. -/
theorem halts (g : Grammar) (config : Config) : Halts (.new g config) where
  refused _ he := (first_eq_error he).2
  begins _ hr := by
    obtain ⟨c, hc, -⟩ := exists_first hr
    exact ⟨_, hc⟩
  states _ _ h := h.sound.inv.size_le_stateBound
  steps _ _ h := h.le_stepBound
  ends _ ha := exists_end ha
  propagates _ _ _ _ h := h.sound.exists_drained
  queues _ _ _ _ _ _ _ h hstep i hi := by
    obtain ⟨source, q, hq, hturned⟩ := h.sound.turned hstep
    rw [hq]
    exact hturned.queued i hi
  closes_start _ hs := State.closes_start hs
  closes _ _ _ h hs := by
    obtain ⟨t, x, ht, -, rfl⟩ := h.sound.exists_of_mem_drafts hs
    exact ht.closes_successorDraft x

end Collection.Stage

end ShiftReduce
