import ShiftReduce.Fault

/-!
# Outcomes

`Yields full x p`: the computation `x` succeeds with a result that has the property `p`, or the
state numbers do not suffice, and then `full` holds. No other fault is left open.
-/

namespace ShiftReduce

universe u v

def Yields {α : Type u} (full : Prop) (x : Except Fault α) (p : α → Prop) : Prop :=
  match x with
  | .ok a => p a
  | .error f => f = .tooManyStates ∧ full

namespace Yields

variable {α : Type u} {β : Type u} {γ : Type v} {full : Prop} {x : Except Fault α} {p q : α → Prop}

theorem ok {a : α} (h : p a) : Yields full (.ok a) p := h

theorem mono (h : Yields full x p) (hpq : ∀ a, p a → q a) : Yields full x q := by
  cases x with
  | ok a => exact hpq a h
  | error f => exact h

theorem bind {f : α → Except Fault β} {r : β → Prop} (h : Yields full x p)
    (hf : ∀ a, p a → Yields full (f a) r) : Yields full (x >>= f) r := by
  cases x with
  | ok a => exact hf a h
  | error f => exact h

/-- A loop keeps an invariant that speaks of the values dealt with so far. -/
theorem foldlM {f : α → γ → Except Fault α} {l : List γ} (inv : List γ → α → Prop)
    (hstep : ∀ done c rest a, l = done ++ c :: rest → inv done a →
      Yields full (f a c) (inv (done ++ [c]))) {a : α} (ha : inv [] a) :
    Yields full (l.foldlM f a) (inv l) := by
  have hloop (rest done : List γ) (a : α) (hl : l = done ++ rest) (ha : inv done a) :
      Yields full (rest.foldlM f a) (inv l) := by
    induction rest generalizing done a with
    | nil =>
      rw [List.append_nil] at hl
      rw [List.foldlM_nil, hl]
      exact ha
    | cons c rest ih =>
      rw [List.foldlM_cons]
      refine (hstep done c rest a hl ha).bind fun b hb => ih (done ++ [c]) b ?_ hb
      rw [hl, List.append_assoc, List.singleton_append]
  exact hloop l [] a rfl ha

theorem of_eq_ok {a : α} (h : Yields full x p) (ha : x = .ok a) : p a := by
  subst ha
  exact h

/-- A computation that leaves no room for a fault has a result. -/
theorem exists_ok (h : Yields False x p) : ∃ a, x = .ok a ∧ p a := by
  cases x with
  | ok a => exact ⟨a, rfl, h⟩
  | error f => exact h.2.elim

end Yields

theorem exists_of_map_eq_ok {ε α β : Type} {x : Except ε α} {f : α → β} {b : β}
    (h : x.map f = .ok b) : ∃ a, x = .ok a ∧ f a = b := by
  cases x with
  | error e => cases h
  | ok a => exact ⟨a, rfl, Except.ok.inj h⟩

theorem exists_of_bind_eq_ok {ε α β : Type} {x : Except ε α} {f : α → Except ε β} {b : β}
    (h : x >>= f = .ok b) : ∃ a, x = .ok a ∧ f a = .ok b := by
  cases x with
  | error e => cases h
  | ok a => exact ⟨a, rfl, h⟩

/-- What every turn of a loop keeps, the loop keeps. -/
theorem foldlM_keeps {ε α γ : Type} {f : α → γ → Except ε α} {p : α → Prop}
    (hf : ∀ a c b, p a → f a c = .ok b → p b) {l : List γ} {a b : α}
    (h : l.foldlM f a = .ok b) (ha : p a) : p b := by
  induction l generalizing a with
  | nil =>
    obtain rfl := Except.ok.inj h
    exact ha
  | cons c l ih =>
    rw [List.foldlM_cons] at h
    obtain ⟨a', hstep, h⟩ := exists_of_bind_eq_ok h
    exact ih h (hf a c a' ha hstep)

end ShiftReduce
