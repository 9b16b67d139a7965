import ShiftReduce.Proofs.Paths

/-!
# What a derivation asks of the item sets

When a rightmost derivation from rule 1 has led to a string, the item set along what precedes an
intermediate has an item that waits for it, with lookaheads for all that can follow. So the rules of
the intermediate are begun there, and once read they are complete with the right lookaheads.
-/

namespace ShiftReduce

namespace Grammar

variable {g : Grammar} {s t : List Symbol} {ids : List RuleId} {e y : String}

/-- The terminal `y` can follow where the string `s` and then the end of input follow. -/
def Ahead (g : Grammar) (endOfInput : String) (s : List Symbol) (y : String) : Prop :=
  g.Begins s y ∨ g.Derives s [] ∧ y = endOfInput

theorem Ahead.of_derives (h : g.Ahead e t y) (hs : g.Derives s t) : g.Ahead e s y := by
  rcases h with h | ⟨h, he⟩
  · exact .inl (hs.begins h)
  · exact .inr ⟨hs.trans h, he⟩

theorem ahead_append (h : g.Ahead e (s ++ t) y) :
    g.Begins s y ∨ g.Derives s [] ∧ g.Ahead e t y := by
  rcases h with h | ⟨h, he⟩
  · rcases begins_append.mp h with h | ⟨hs, h⟩
    · exact .inl h
    · exact .inr ⟨hs, .inl h⟩
  · obtain ⟨hs, ht⟩ := derives_append_nil.mp h
    exact .inr ⟨hs, .inr ⟨ht, he⟩⟩

/-- The first terminal of a string of terminals with the end of input behind it. -/
theorem ahead_of_terminals {w rest : List String} (h : w ++ [e] = y :: rest) :
    g.Ahead e (w.map .terminal) y := by
  cases w with
  | nil =>
    obtain ⟨rfl, -⟩ := List.cons.inj h
    exact .inr ⟨.refl, rfl⟩
  | cons x w =>
    obtain ⟨rfl, -⟩ := List.cons.inj h
    exact .inl ⟨_, .refl⟩

/-- The last step of a rightmost derivation. -/
theorem RightmostBy.exists_last {id : RuleId} (h : g.RightmostBy (ids ++ [id]) s t) :
    ∃ q ∈ g.rules, q.id = id ∧ ∃ (before : List Symbol) (w : List String),
      g.RightmostBy ids s (before ++ .intermediate q.left :: w.map .terminal) ∧
        t = before ++ q.right ++ w.map .terminal := by
  generalize hl : ids ++ [id] = l at h
  induction h generalizing ids with
  | refl s => exact absurd hl (by simp)
  | @step q l before t w hq ht ih =>
    cases ids with
    | nil =>
      obtain ⟨rfl, rfl⟩ := List.cons.inj hl
      cases ht with
      | refl => exact ⟨q, hq, rfl, before, w, .refl _, rfl⟩
    | cons id' ids =>
      obtain ⟨rfl, rfl⟩ := List.cons.inj hl
      obtain ⟨p, hp, hid, before', w', hby, rfl⟩ := ih rfl
      exact ⟨p, hp, hid, before', w', .step hq hby, rfl⟩

/-- An intermediate of a string with terminals at its end stands in front of them. -/
theorem split_intermediate {path after before right : List Symbol} {name : String}
    {w : List String}
    (h : path ++ .intermediate name :: after = before ++ right ++ w.map .terminal) :
    (∃ rest, before = path ++ .intermediate name :: rest ∧
        after = rest ++ right ++ w.map .terminal) ∨
      ∃ done rest, right = done ++ .intermediate name :: rest ∧ path = before ++ done ∧
        after = rest ++ w.map .terminal := by
  have hno : Symbol.intermediate name ∉ w.map Symbol.terminal := by simp
  rcases List.append_eq_append_iff.mp h with ⟨l, hl, hr⟩ | ⟨l, hl, hr⟩
  · cases l with
    | nil =>
      refine absurd ?_ hno
      rw [← List.nil_append (w.map Symbol.terminal), ← hr]
      exact List.mem_cons_self
    | cons x l =>
      obtain ⟨rfl, rfl⟩ := List.cons.inj hr
      rcases List.append_eq_append_iff.mp hl with ⟨l', hl', hr'⟩ | ⟨l', rfl, hr'⟩
      · exact .inr ⟨l', l, hr', hl', rfl⟩
      · cases l' with
        | nil => exact .inr ⟨[], l, hr'.symm, by simp, rfl⟩
        | cons y l' =>
          obtain ⟨rfl, rfl⟩ := List.cons.inj hr'
          exact .inl ⟨l', rfl, rfl⟩
  · refine absurd ?_ hno
    rw [hr]
    exact List.mem_append_right _ List.mem_cons_self

end Grammar

namespace Setup

variable {u : Setup} {path done rest after : List Symbol} {q r : Rule} {name : String} {dot : Nat}

/-! ## Closing and reading along a path -/

theorem begun_of_waits {c : Core} (hc : c ∈ (u.along path).cores)
    (hw : u.grammar.Waits c (.intermediate q.left) rest) (hq : q ∈ u.grammar.rules) :
    ⟨q.id, 0⟩ ∈ (u.along path).cores := by
  rw [along, ← Grammar.closure_along]
  exact .alternative (.given hc) hw hq

/-- What has been begun is read along its right side, with its lookaheads. -/
theorem read_of_begun (hq : q ∈ u.grammar.rules) (hright : q.right.drop dot = done ++ rest)
    (h : ⟨q.id, dot⟩ ∈ (u.along path).cores) :
    ⟨q.id, dot + done.length⟩ ∈ (u.along (path ++ done)).cores ∧
      ∀ y, (⟨q.id, dot⟩, y) ∈ (u.along path).lookaheads →
        (⟨q.id, dot + done.length⟩, y) ∈ (u.along (path ++ done)).lookaheads := by
  induction done generalizing path dot with
  | nil =>
    rw [List.append_nil]
    exact ⟨h, fun y hy => hy⟩
  | cons x done ih =>
    have hw : u.grammar.Waits ⟨q.id, dot⟩ x (done ++ rest) := ⟨q, hq, rfl, hright⟩
    have hright' : q.right.drop (dot + 1) = done ++ rest := by
      rw [← List.tail_drop, hright]
      rfl
    have hcore : (⟨q.id, dot + 1⟩ : Core) ∈ (u.along (path ++ [x])).cores := by
      rw [along_append_singleton]
      exact .given ⟨_, h, ⟨_, hw⟩, rfl⟩
    obtain ⟨hcores, hla⟩ := ih hright' hcore
    have hlen : dot + (x :: done).length = dot + 1 + done.length := by
      rw [List.length_cons]
      omega
    rw [hlen, List.append_cons]
    refine ⟨hcores, fun y hy => hla y ?_⟩
    rw [along_append_singleton]
    exact .given ⟨_, hy, ⟨_, hw⟩, rfl⟩

/-! ## Expected intermediates -/

/-- Some item waits for `name`, and what follows it there covers what can follow before `after`. -/
def Expects (u : Setup) (path : List Symbol) (name : String) (after : List Symbol) : Prop :=
  ∃ c ∈ (u.along path).cores, ∃ rest, u.grammar.Waits c (.intermediate name) rest ∧
    (u.ahead = true → ∀ y, u.grammar.Ahead u.config.endOfInput after y → u.grammar.Begins rest y ∨
      u.grammar.Derives rest [] ∧ (c, .terminal y) ∈ (u.along path).lookaheads)

/-- A rule has been begun, with lookaheads for what can follow before `after`. -/
def Begun (u : Setup) (path : List Symbol) (q : Rule) (after : List Symbol) : Prop :=
  ⟨q.id, 0⟩ ∈ (u.along path).cores ∧ (u.ahead = true → ∀ y,
    u.grammar.Ahead u.config.endOfInput after y →
      (⟨q.id, 0⟩, .terminal y) ∈ (u.along path).lookaheads)

theorem Expects.begun (h : u.Expects path q.left after) (hq : q ∈ u.grammar.rules) :
    u.Begun path q after := by
  obtain ⟨c, hc, rest, hw, hla⟩ := h
  refine ⟨begun_of_waits hc hw hq, fun ha y hy => ?_⟩
  rw [along, ← Grammar.closure_along]
  rcases hla ha y hy with hb | ⟨hn, hy⟩
  · exact .first (.given hc) hw hq ha hb
  · exact .pass (.given hy) hw hq ha hn

theorem begun_start (hr : u.grammar.startRule = .ok r) : u.Begun [] r [] := by
  have hid := (Grammar.startRule_eq_ok_iff.mp hr).2
  refine ⟨.given (congrArg (Core.mk · 0) hid), fun ha y hy => .given ⟨ha, ?_⟩⟩
  rcases hy with hy | ⟨-, rfl⟩
  · exact absurd hy Grammar.not_begins_nil
  · rw [hid]

theorem Begun.expects (h : u.Begun path q after) (hq : q ∈ u.grammar.rules)
    (hright : q.right = done ++ .intermediate name :: rest) :
    u.Expects (path ++ done) name (rest ++ after) := by
  have hdrop : q.right.drop 0 = done ++ .intermediate name :: rest := hright
  obtain ⟨hcore, hla⟩ := read_of_begun hq hdrop h.1
  refine ⟨_, hcore, rest, ⟨q, hq, rfl, ?_⟩, fun ha y hy => ?_⟩
  · rw [hright]
    simp
  · rcases Grammar.ahead_append hy with hb | ⟨hn, hy⟩
    · exact .inl hb
    · exact .inr ⟨hn, hla _ (h.2 ha y hy)⟩

/-- Every intermediate of a string that rule 1 leads to is expected where it stands. -/
theorem expects_of_rightmost (hr : u.grammar.startRule = .ok r) {ids : List RuleId}
    (h : u.grammar.RightmostBy ids r.right (path ++ .intermediate name :: after)) :
    u.Expects path name after := by
  induction ids using List.reverseRecOn generalizing path name after with
  | nil =>
    generalize hs : path ++ .intermediate name :: after = s at h
    cases h with
    | refl =>
      have hmem := (Grammar.startRule_eq_ok_iff.mp hr).1
      have hexp := (begun_start hr).expects hmem hs.symm
      rwa [List.nil_append, List.append_nil] at hexp
  | append_singleton ids id ih =>
    obtain ⟨q, hq, -, before, w, hby, hs⟩ := h.exists_last
    rcases Grammar.split_intermediate hs with ⟨rest, rfl, rfl⟩ | ⟨done, rest, hright, rfl, rfl⟩
    · -- the intermediate was there before the last step, and less could follow it now
      rw [List.append_assoc, List.cons_append] at hby
      obtain ⟨c, hc, rest', hw, hla⟩ := ih hby
      refine ⟨c, hc, rest', hw, fun ha y hy => hla ha y (hy.of_derives ?_)⟩
      have hstep := (Grammar.Derives.rule hq).context rest (w.map .terminal)
      simpa using hstep
    · exact ((ih hby).begun hq).expects hq hright

/-- A rule whose left side is expected is complete once its right side has been read. -/
theorem Begun.complete (h : u.Begun path q after) (hq : q ∈ u.grammar.rules) :
    ⟨q.id, q.right.length⟩ ∈ (u.along (path ++ q.right)).cores ∧ (u.ahead = true → ∀ y,
      u.grammar.Ahead u.config.endOfInput after y →
        (⟨q.id, q.right.length⟩, .terminal y) ∈ (u.along (path ++ q.right)).lookaheads) := by
  have hright : q.right.drop 0 = q.right ++ [] := by simp
  obtain ⟨hcore, hla⟩ := read_of_begun hq hright h.1
  rw [Nat.zero_add] at hcore hla
  exact ⟨hcore, fun ha y hy => hla _ (h.2 ha y hy)⟩

end Setup

end ShiftReduce
