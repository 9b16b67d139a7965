import ShiftReduce.Grammar.Derivation

/-!
# What strings derive

A derivation of two strings side by side splits into one of each. So what a string can begin with,
and whether it can vanish, is decided symbol by symbol.
-/

namespace ShiftReduce.Grammar

variable {g : Grammar} {s t u v : List Symbol} {x : String}

theorem Derives.append (h1 : g.Derives s t) (h2 : g.Derives u v) :
    g.Derives (s ++ u) (t ++ v) := by
  have hl := h1.context [] u
  have hr := h2.context t []
  simp only [List.nil_append, List.append_nil] at hl hr
  exact hl.trans hr

theorem Derives.rule {r : Rule} (h : r ∈ g.rules) : g.Derives [.intermediate r.left] r.right := by
  simpa using Derives.step (u := []) (v := []) h .refl

/-- Rewriting in two strings side by side rewrites in one of them. -/
theorem Derives.split (h : g.Derives (s ++ t) u) :
    ∃ u1 u2, u = u1 ++ u2 ∧ g.Derives s u1 ∧ g.Derives t u2 := by
  induction h with
  | refl => exact ⟨s, t, rfl, .refl, .refl⟩
  | @step r a b hr _ ih =>
    obtain ⟨u1, u2, hu, h1, h2⟩ := ih
    rcases List.append_eq_append_iff.mp hu with ⟨c, rfl, hc⟩ | ⟨c, rfl, rfl⟩
    · cases c with
      | nil =>
        rw [List.nil_append] at hc
        refine ⟨a, r.right ++ b, by simp, by simpa using h1, ?_⟩
        simpa using Derives.step (u := []) hr (by simpa [hc] using h2)
      | cons y c =>
        obtain ⟨rfl, rfl⟩ := List.cons.inj hc
        exact ⟨a ++ r.right ++ c, u2, by simp, .step hr h1, h2⟩
    · exact ⟨u1, c ++ r.right ++ b, by simp, h1, .step hr h2⟩

/-- Terminals are not rewritten. -/
theorem Derives.terminal (h : g.Derives [.terminal x] u) : u = [.terminal x] := by
  induction h with
  | refl => rfl
  | @step r a b _ _ ih =>
    rcases List.append_eq_singleton_iff.mp ih with ⟨-, h⟩ | ⟨-, h⟩
    · cases h
    · cases h

theorem Derives.nil (h : g.Derives [] u) : u = [] := by
  induction h with
  | refl => rfl
  | step _ _ ih => simp at ih

/-! ## Vanishing -/

theorem derives_append_nil : g.Derives (s ++ t) [] ↔ g.Derives s [] ∧ g.Derives t [] := by
  constructor
  · intro h
    obtain ⟨u1, u2, hu, h1, h2⟩ := h.split
    obtain ⟨rfl, rfl⟩ := List.append_eq_nil_iff.mp hu.symm
    exact ⟨h1, h2⟩
  · rintro ⟨h1, h2⟩
    exact h1.append h2

theorem not_derives_terminal_nil : ¬g.Derives (.terminal x :: s) [] := by
  intro h
  have h := (derives_append_nil (s := [.terminal x]).mp h).1.terminal
  cases h

/-! ## Beginning with a terminal -/

theorem Derives.begins (h : g.Derives s t) (ht : g.Begins t x) : g.Begins s x := by
  obtain ⟨u, hu⟩ := ht
  exact ⟨u, h.trans hu⟩

theorem begins_append : g.Begins (s ++ t) x ↔ g.Begins s x ∨ g.Derives s [] ∧ g.Begins t x := by
  constructor
  · rintro ⟨u, hu⟩
    obtain ⟨u1, u2, he, h1, h2⟩ := hu.split
    cases u1 with
    | nil => exact .inr ⟨h1, u, he ▸ h2⟩
    | cons y u1 =>
      obtain ⟨rfl, -⟩ := List.cons.inj he
      exact .inl ⟨u1, h1⟩
  · rintro (⟨u, hu⟩ | ⟨hs, u, hu⟩)
    · exact ⟨u ++ t, hu.append .refl⟩
    · exact ⟨u, hs.append hu⟩

theorem begins_terminal {y : String} : g.Begins (.terminal y :: s) x ↔ x = y := by
  constructor
  · intro h
    rcases begins_append (s := [.terminal y]).mp h with ⟨u, hu⟩ | ⟨h, -⟩
    · have := hu.terminal
      simp_all
    · exact absurd h not_derives_terminal_nil
  · rintro rfl
    exact ⟨s, .refl⟩

theorem not_begins_nil : ¬g.Begins [] x := by
  rintro ⟨u, hu⟩
  cases hu.nil

/-- Every symbol of a derived string was there or stands on a right side. -/
theorem Derives.mem (h : g.Derives s t) {y : Symbol} (hy : y ∈ t) :
    y ∈ s ∨ ∃ r ∈ g.rules, y ∈ r.right := by
  induction h generalizing y with
  | refl => exact .inl hy
  | @step r a b hr _ ih =>
    rcases List.mem_append.mp hy with hy | hy
    · rcases List.mem_append.mp hy with hy | hy
      · exact ih (List.mem_append_left _ hy)
      · exact .inr ⟨r, hr, hy⟩
    · exact ih (List.mem_append_right _ (List.mem_cons_of_mem _ hy))

theorem Begins.mem (h : g.Begins s x) : .terminal x ∈ s ∨ ∃ r ∈ g.rules, .terminal x ∈ r.right := by
  obtain ⟨t, ht⟩ := h
  exact ht.mem List.mem_cons_self

end ShiftReduce.Grammar
