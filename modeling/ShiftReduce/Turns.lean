import ShiftReduce.Fault

/-!
# Loops turn by turn

A loop that has no bound of its own is given by what one turn does: it goes on with another value,
it is over, or it fails. `Turns turn n a b` says that `n` turns lead from `a` to `b`, and `Ends` that
the loop is over then. A loop that raises a bounded measure with every turn has no long runs, and if
no turn fails it ends.
-/

namespace ShiftReduce

universe u

variable {α : Type u}

inductive Turns (turn : α → Except Fault (Option α)) : Nat → α → α → Prop where
  | refl (a : α) : Turns turn 0 a a
  | step {n : Nat} {a b c : α} (h : turn a = .ok (some b)) (t : Turns turn n b c) :
      Turns turn (n + 1) a c

/-- After `n` turns the loop is over. -/
structure Ends (turn : α → Except Fault (Option α)) (n : Nat) (a b : α) : Prop where
  turns : Turns turn n a b
  finished : turn b = .ok none

namespace Turns

/-- What `n` turns lead to, none if the loop is over before. -/
def iterate (turn : α → Except Fault (Option α)) : Nat → α → Except Fault (Option α)
  | 0, a => .ok (some a)
  | n + 1, a =>
    match turn a with
    | .ok (some b) => iterate turn n b
    | outcome => outcome

end Turns

variable {turn turn' : α → Except Fault (Option α)} {n m : Nat} {a b c : α}

namespace Turns

theorem single (h : turn a = .ok (some b)) : Turns turn 1 a b := .step h (.refl b)

theorem trans (h1 : Turns turn n a b) (h2 : Turns turn m b c) : Turns turn (n + m) a c := by
  induction h1 with
  | refl =>
    rw [Nat.zero_add]
    exact h2
  | step h _ ih =>
    rw [Nat.succ_add_eq_add_succ]
    exact .step h (ih h2)

theorem mono (hturn : ∀ a b, turn a = .ok (some b) → turn' a = .ok (some b))
    (h : Turns turn n a b) : Turns turn' n a b := by
  induction h with
  | refl => exact .refl _
  | step h _ ih => exact .step (hturn _ _ h) ih

theorem of_iterate (h : iterate turn n a = .ok (some b)) : Turns turn n a b := by
  induction n generalizing a with
  | zero =>
    obtain rfl := Option.some.inj (Except.ok.inj h)
    exact .refl a
  | succ n ih =>
    unfold iterate at h
    split at h
    · rename_i c hc
      exact .step hc (ih h)
    · rename_i hstop
      exact absurd h (hstop b)

/-- Where each turn of a loop has a counterpart, a run has one. -/
theorem map {β : Type u} {other : β → Except Fault (Option β)} {f : α → β} {p : α → Prop}
    (hturn : ∀ a b, p a → turn a = .ok (some b) → p b ∧ other (f a) = .ok (some (f b)))
    (h : Turns turn n a b) (ha : p a) : p b ∧ Turns other n (f a) (f b) := by
  induction h with
  | refl => exact ⟨ha, .refl _⟩
  | step h _ ih =>
    obtain ⟨hb, hother⟩ := hturn _ _ ha h
    obtain ⟨hc, hrun⟩ := ih hb
    exact ⟨hc, .step hother hrun⟩

/-- What every turn keeps, a run keeps. -/
theorem keeps {p : α → Prop} (hp : ∀ a b, p a → turn a = .ok (some b) → p b)
    (h : Turns turn n a b) (ha : p a) : p b := by
  induction h with
  | refl => exact ha
  | step h _ ih => exact ih (hp _ _ ha h)

/-- A run from `a` that relates each value to the next one relates the last one to `a`. -/
theorem relates {p : α → Prop} {r : α → α → Prop} (hrefl : ∀ a, r a a)
    (htrans : ∀ a b c, r a b → r b c → r a c)
    (hr : ∀ a b, p a → turn a = .ok (some b) → p b ∧ r a b) (h : Turns turn n a b) (ha : p a) :
    r a b := by
  induction h with
  | refl => exact hrefl _
  | step h _ ih =>
    obtain ⟨hb, hab⟩ := hr _ _ ha h
    exact htrans _ _ _ hab (ih hb)

/-- There are no more turns than the measure can rise. -/
theorem add_le {p : α → Prop} (measure : α → Int)
    (hp : ∀ a b, p a → turn a = .ok (some b) → p b ∧ measure a + 1 ≤ measure b)
    (h : Turns turn n a b) (ha : p a) : measure a + n ≤ measure b := by
  induction h with
  | refl => simp
  | step h _ ih =>
    obtain ⟨hb, hle⟩ := hp _ _ ha h
    have := ih hb
    omega

/-- Of two runs from the same value, one goes on where the other one stops. -/
theorem linear (hb : Turns turn n a b) (hc : Turns turn m a c) :
    (∃ k, Turns turn k b c) ∨ ∃ k, Turns turn k c b := by
  induction hb generalizing m with
  | refl => exact .inl ⟨m, hc⟩
  | step h t ih =>
    cases hc with
    | refl => exact .inr ⟨_, .step h t⟩
    | step h' t' =>
      obtain rfl := Option.some.inj (Except.ok.inj (h.symm.trans h'))
      exact ih t'

/-- Where there is no next turn, a run stops. -/
theorem eq_of_stop (h : Turns turn n a b) (hstop : ∀ c, turn a ≠ .ok (some c)) : b = a := by
  cases h with
  | refl => rfl
  | step h _ => exact absurd h (hstop _)

end Turns

namespace Ends

theorem trans_turns (h2 : Ends turn m b c) (h1 : Turns turn n a b) : Ends turn (n + m) a c :=
  ⟨h1.trans h2.turns, h2.finished⟩

theorem stop (h : Ends turn n a b) (c : α) : turn b ≠ .ok (some c) := by
  rw [h.finished]
  simp

theorem unique (hb : Ends turn n a b) (hc : Ends turn m a c) : b = c := by
  rcases hb.turns.linear hc.turns with ⟨k, h⟩ | ⟨k, h⟩
  · exact (h.eq_of_stop hb.stop).symm
  · exact h.eq_of_stop hc.stop

/-- No turn fails on the way of a loop that ends. -/
theorem ne_error (hc : Ends turn n a c) (hb : Turns turn m a b) (f : Fault) :
    turn b ≠ .error f := by
  intro hfail
  rcases hb.linear hc.turns with ⟨k, h⟩ | ⟨k, h⟩
  · obtain rfl := h.eq_of_stop (by simp [hfail])
    exact absurd (hfail.symm.trans hc.finished) (by simp)
  · obtain rfl := h.eq_of_stop hc.stop
    exact absurd (hfail.symm.trans hc.finished) (by simp)

end Ends

/-- A loop ends or fails if each turn raises a measure that has a bound. -/
theorem exists_last {p : α → Prop} (measure : α → Int) {limit : Int}
    (hp : ∀ a b, p a → turn a = .ok (some b) → p b ∧ measure a + 1 ≤ measure b)
    (hlimit : ∀ a, p a → measure a ≤ limit) (ha : p a) :
    ∃ n b, Turns turn n a b ∧ ∀ c, turn b ≠ .ok (some c) := by
  have hloop (k : Nat) (a : α) (ha : p a) (hk : limit ≤ measure a + k) :
      ∃ n b, Turns turn n a b ∧ ∀ c, turn b ≠ .ok (some c) := by
    induction k generalizing a with
    | zero =>
      refine ⟨0, a, .refl a, fun c hc => ?_⟩
      obtain ⟨hpc, hle⟩ := hp a c ha hc
      have := hlimit c hpc
      omega
    | succ k ih =>
      by_cases hnext : ∃ c, turn a = .ok (some c)
      · obtain ⟨c, hc⟩ := hnext
        obtain ⟨hpc, hle⟩ := hp a c ha hc
        obtain ⟨n, b, ht, hb⟩ := ih c hpc (by omega)
        exact ⟨n + 1, b, .step hc ht, hb⟩
      · exact ⟨0, a, .refl a, not_exists.mp hnext⟩
  exact hloop (limit - measure a).toNat a ha (by omega)

end ShiftReduce
