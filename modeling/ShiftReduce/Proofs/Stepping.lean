import ShiftReduce.Proofs.Paths
import ShiftReduce.Proofs.Stages

/-!
# The construction as a run of steps

Each function of the construction, where it succeeds, is a run of steps from the stage at which it
is called to the one at which its caller goes on. So what the bounded loops of the construction
answer is where the steps, which know no bounds, come to an end.
-/

namespace ShiftReduce.Collection

variable {u : Setup} {c d : Collection} {id source : StateId} {s : State} {x : Symbol}
  {w : Worklist StateId}

/-! ## Functions as runs -/

theorem propagateLoop_turns {bound : Nat} (k : Resume) (h : propagateLoop u bound c w = .ok d) :
    ∃ n v, Turns (Stage.step u) n ⟨c, .propagate w k⟩ ⟨d, .propagate v k⟩ ∧ v.pop? = none := by
  induction bound generalizing c w with
  | zero =>
    unfold propagateLoop at h
    split at h
    · rename_i hpop
      cases h
      exact ⟨0, w, .refl _, hpop⟩
    · cases h
  | succ bound ih =>
    unfold propagateLoop at h
    split at h
    · rename_i hpop
      cases h
      exact ⟨0, w, .refl _, hpop⟩
    · rename_i source v hpop
      obtain ⟨⟨e, q⟩, hall, hrest⟩ := exists_of_bind_eq_ok h
      obtain ⟨n, q', hturns, hq⟩ := ih hrest
      refine ⟨n + 1, q', .step ?_ hturns, hq⟩
      simp only [Stage.step, hpop, hall, bind, Except.bind]

theorem propagate_turns (k : Resume) (h : c.propagate u source = .ok d) :
    ∃ n v, Turns (Stage.step u) n (Stage.propagate c source k) ⟨d, .propagate v k⟩ ∧
      v.pop? = none :=
  propagateLoop_turns k h

/-- Propagating and then going on. -/
theorem propagate_resume_turns {k : Resume} {a : Stage} (h : c.propagate u source = .ok d)
    (hk : Stage.resume d k = .ok a) :
    ∃ n, Turns (Stage.step u) n (Stage.propagate c source k) a := by
  obtain ⟨n, v, hturns, hpop⟩ := propagate_turns k h
  refine ⟨n + 1, hturns.trans (.single ?_)⟩
  simp only [Stage.step, hpop, hk, bind, Except.bind]

/-- Placing and recording a draft. -/
theorem record_turns {draft : State} {rest : List (Symbol × State)}
    (h : record u id c (x, draft) = .ok d) :
    ∃ n, Turns (Stage.step u) n ⟨c, .place id s ((x, draft) :: rest)⟩ ⟨d, .place id s rest⟩ := by
  obtain ⟨⟨e, target⟩, hplace, hrecord⟩ := exists_of_bind_eq_ok h
  have hresume : Stage.record e id s x target rest = .ok ⟨d, .place id s rest⟩ := by
    obtain ⟨t, ht, hd⟩ := exists_of_bind_eq_ok hrecord
    cases hd
    simp only [Stage.record, ht, bind, Except.bind]
  obtain ⟨r, hr, hplace⟩ := exists_of_bind_eq_ok hplace
  cases r with
  | none =>
    refine ⟨1, .single ?_⟩
    simp only [Stage.step, Stage.place, hr, hplace, hresume, bind, Except.bind]
  | some k =>
    obtain ⟨t, ht, hplace⟩ := exists_of_bind_eq_ok hplace
    obtain ⟨⟨merged, grew⟩, hmerge, hplace⟩ := exists_of_bind_eq_ok hplace
    cases grew with
    | true =>
      obtain ⟨e', hpropagate, he⟩ := exists_of_bind_eq_ok hplace
      cases he
      obtain ⟨n, hturns⟩ := propagate_resume_turns (k := .record id s x target rest) hpropagate hresume
      refine ⟨n + 1, .step ?_ hturns⟩
      simp only [Stage.step, Stage.place, hr, ht, hmerge, bind, Except.bind, if_true]
    | false =>
      cases hplace
      refine ⟨1, .single ?_⟩
      simp only [Stage.step, Stage.place, hr, ht, hmerge, hresume, bind, Except.bind,
        Bool.false_eq_true, if_false]

theorem records_turns {drafts : List (Symbol × State)}
    (h : drafts.foldlM (record u id) c = .ok d) :
    ∃ n, Turns (Stage.step u) n ⟨c, .place id s drafts⟩ ⟨d, .place id s []⟩ := by
  induction drafts generalizing c with
  | nil =>
    cases h
    exact ⟨0, .refl _⟩
  | cons draft drafts ih =>
    obtain ⟨x, draft⟩ := draft
    rw [List.foldlM_cons] at h
    obtain ⟨e, he, hrest⟩ := exists_of_bind_eq_ok h
    obtain ⟨n, hfirst⟩ := record_turns he
    obtain ⟨m, hlater⟩ := ih hrest
    exact ⟨n + m, hfirst.trans hlater⟩

theorem visit_turns (hlt : c.visited < c.states.size) (h : c.visit u = .ok d) :
    ∃ n, Turns (Stage.step u) n ⟨c, .visit⟩ ⟨d, .visit⟩ := by
  obtain ⟨s, hs, h⟩ := exists_of_bind_eq_ok h
  obtain ⟨e, he, h⟩ := exists_of_bind_eq_ok h
  obtain ⟨t, ht, h⟩ := exists_of_bind_eq_ok h
  have hbegin : Stage.step u ⟨c, .visit⟩ = .ok (some ⟨c, .place c.visited s s.successors⟩) := by
    simp only [Stage.step, if_pos hlt, hs, bind, Except.bind]
  obtain ⟨n, hplaced⟩ := records_turns (s := s) he
  by_cases hcount : t.lookaheadCount = s.lookaheadCount
  · simp only [if_pos hcount] at h
    cases h
    refine ⟨n + 1 + 1, .step hbegin (hplaced.trans (.single ?_))⟩
    simp only [Stage.step, ht, if_pos hcount, bind, Except.bind, Stage.finish]
  · simp only [if_neg hcount] at h
    obtain ⟨e', he', h⟩ := exists_of_bind_eq_ok h
    cases h
    obtain ⟨m, hturns⟩ := propagate_resume_turns (k := .finish c.visited) he' rfl
    refine ⟨n + (m + 1) + 1, .step hbegin (hplaced.trans (.step ?_ hturns))⟩
    simp only [Stage.step, ht, if_neg hcount, bind, Except.bind]

theorem visitAll_ends {bound : Nat} (h : visitAll u bound c = .ok d) :
    ∃ n, Ends (Stage.step u) n ⟨c, .visit⟩ ⟨d, .visit⟩ := by
  induction bound generalizing c with
  | zero =>
    unfold visitAll at h
    split at h
    · cases h
    · rename_i hnot
      cases h
      exact ⟨0, .refl _, by simp only [Stage.step, if_neg hnot]⟩
  | succ bound ih =>
    unfold visitAll at h
    split at h
    · rename_i hlt
      obtain ⟨e, he, h⟩ := exists_of_bind_eq_ok h
      obtain ⟨n, hturns⟩ := visit_turns hlt he
      obtain ⟨m, hends⟩ := ih h
      exact ⟨n + m, hends.trans_turns hturns⟩
    · rename_i hnot
      cases h
      exact ⟨0, .refl _, by simp only [Stage.step, if_neg hnot]⟩

namespace Stage

variable {n : Nat} {a b : Stage} {r : Rule}

/-! ## The first stage -/

theorem first_eq_error {e : BuildError} (h : u.grammar.startRule = .error e) :
    first u = .error e ∧ build u = .error e := by
  have hs : u.start u.config.method = .error e := by
    simp only [Setup.start, h, bind, Except.bind]
  exact ⟨by simp only [first, hs], by simp only [build, hs]⟩

/-- With a start rule the construction begins: the start state is alone, and at rest. -/
theorem exists_first (h : u.grammar.startRule = .ok r) : ∃ c, first u = .ok ⟨c, .visit⟩ ∧
    AtRest u c ∧ c.visited = 0 ∧ c.events = [.added 0] := by
  have hs : u.start u.config.method =
      .ok (State.start u.config.method r u.config.endOfInput) := by
    simp only [Setup.start, h, bind, Except.bind]
  generalize State.start u.config.method r u.config.endOfInput = s at hs
  obtain ⟨k, hmatch, hsome, -⟩ := (inv_empty.match?_yields (State.built_start hs)).exists_ok
  cases k with
  | some i => exact absurd (hsome i rfl).1 (Nat.not_lt_zero i)
  | none =>
    cases happend : empty.append (s.close u) with
    | error f => simp [append, empty, stateLimit] at happend
    | ok p =>
      obtain ⟨c, i⟩ := p
      have hinitial : initial u s = .ok c := by
        simp only [initial, Collection.place, placeClosed, hmatch, happend, bind, Except.bind]
        rfl
      obtain ⟨hrest, hvisited⟩ := (initial_yields hs).of_eq_ok hinitial
      refine ⟨c, by simp only [first, hs, hinitial], hrest, hvisited, ?_⟩
      rw [append_eq_ok happend]
      rfl

/-! ## Stages that are reached -/

theorem startRule_of_first (h : first u = .ok a) : ∃ r, u.grammar.startRule = .ok r := by
  cases hr : u.grammar.startRule with
  | ok r => exact ⟨r, rfl⟩
  | error e =>
    rw [(first_eq_error hr).1] at h
    cases h

theorem sound_of_first (h : first u = .ok a) : Sound u a := by
  obtain ⟨r, hr⟩ := startRule_of_first h
  obtain ⟨c, hc, hrest, -⟩ := exists_first hr
  obtain rfl := Except.ok.inj (hc.symm.trans h)
  exact .visit hrest

/-- What holds of a stage that is not the last one. -/
theorem Sound.next (ha : Sound u a) (h : step u a = .ok (some b)) : Advances u a b := by
  cases ha.outcome with
  | finished hend => exact absurd (hend.symm.trans h) (by simp)
  | full hfull => exact absurd (hfull.symm.trans h) (by simp)
  | next b' hnext hb =>
    obtain rfl := Option.some.inj (Except.ok.inj (hnext.symm.trans h))
    exact hb

theorem Sound.turns (ha : Sound u a) (h : Turns (step u) n a b) :
    Sound u b ∧ a.collection.Keeps u b.collection ∧ a.measure u + n ≤ b.measure u := by
  refine ⟨h.keeps (fun _ _ hs hstep => (hs.next hstep).sound) ha, ?_, ?_⟩
  · exact h.relates (r := fun a b => a.collection.Keeps u b.collection) (fun _ => .refl _)
      (fun _ _ _ h1 h2 => h1.trans h2)
      (fun _ _ hs hstep => ⟨(hs.next hstep).sound, (hs.next hstep).keeps⟩) ha
  · exact h.add_le (measure u)
      (fun _ _ hs hstep => ⟨(hs.next hstep).sound, (hs.next hstep).rises⟩) ha

theorem Reached.sound (h : Reached u n a) : Sound u a := by
  obtain ⟨b, hb, hturns⟩ := h
  exact ((sound_of_first hb).turns hturns).1

theorem Sound.inv (h : Sound u a) : Inv u a.collection := by
  cases h with
  | visit h => exact h.inv
  | place _ _ h _ _ => exact h.inv
  | record _ _ _ _ _ _ hw _ _ _ => exact hw.inv
  | finish _ _ _ hw _ _ => exact hw.inv

/-! ## Runs and what the construction answers -/

/-- Where the construction succeeds, its steps come to an end with what it answers. -/
theorem ends_of_build (h : build u = .ok c) :
    ∃ a n, first u = .ok a ∧ Ends (step u) n a ⟨c, .visit⟩ := by
  unfold build at h
  split at h
  · cases h
  · rename_i s hs
    split at h
    · cases h
    · rename_i d hd
      cases h
      unfold construct at hd
      split at hd
      · cases hd
      · rename_i e he
        obtain ⟨n, hends⟩ := visitAll_ends hd
        exact ⟨⟨e, .visit⟩, n, by simp only [first, hs, he], hends⟩

/-- All states have been visited only if there is room for the item sets on the paths. -/
theorem not_crowded_of_finished (h : AtRest u c) (hall : c.size ≤ c.visited) : ¬u.Crowded := by
  obtain ⟨g, config, _, _, _, rfl, rfl, rfl⟩ := u
  exact (Table.complete_of_atRest h hall).not_crowded

theorem build_of_ends (hfirst : first u = .ok a) (h : Ends (step u) n a b) :
    build u = .ok b.collection := by
  obtain ⟨r, hr⟩ := startRule_of_first hfirst
  rcases build_cases hr with ⟨-, hcrowded⟩ | ⟨c, hc⟩
  · cases ((sound_of_first hfirst).turns h.turns).1.outcome with
    | finished _ hrest hall => exact absurd hcrowded (not_crowded_of_finished hrest hall)
    | full hfull => exact absurd (hfull.symm.trans h.finished) (by simp)
    | next _ hnext => exact absurd (hnext.symm.trans h.finished) (by simp)
  · obtain ⟨a', m, ha', hends⟩ := ends_of_build hc
    obtain rfl := Except.ok.inj (ha'.symm.trans hfirst)
    rw [hc, h.unique hends]

/-- A run that is stopped does not come to an end. -/
theorem build_of_full {f : Fault} (hfirst : first u = .ok a) (h : Turns (step u) n a b)
    (hfull : step u b = .error f) : build u = .error (.fault .tooManyStates) := by
  obtain ⟨r, hr⟩ := startRule_of_first hfirst
  rcases build_cases hr with ⟨herror, -⟩ | ⟨c, hc⟩
  · exact herror
  · obtain ⟨a', m, ha', hends⟩ := ends_of_build hc
    obtain rfl := Except.ok.inj (ha'.symm.trans hfirst)
    exact absurd hfull (hends.ne_error h f)

end Stage

end ShiftReduce.Collection
