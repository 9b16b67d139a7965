/-!
# Settling

Repeating a step until it changes nothing. The number of repetitions is bounded, and whoever
calls `settle` picks a bound that the step cannot use up.
-/

namespace ShiftReduce

universe u

variable {α : Type u} [DecidableEq α]

/-- Repeats `step` until it changes nothing, at most `bound` times. -/
def settle (step : α → α) : Nat → α → α
  | 0, a => a
  | bound + 1, a =>
    let b := step a
    if b = a then a else settle step bound b

/-- A property that each step keeps holds of the result. -/
theorem settle_induction {step : α → α} {p : α → Prop} (h : ∀ a, p a → p (step a)) (bound : Nat)
    {a : α} (ha : p a) : p (settle step bound a) := by
  induction bound generalizing a with
  | zero => exact ha
  | succ n ih =>
    simp only [settle]
    split
    · exact ha
    · exact ih (h a ha)

/-- The step changes the result no more if each change raises a measure that is bounded by
`limit`, and the bound on the repetitions covers what is left below `limit`. -/
theorem step_settle {step : α → α} {p : α → Prop} (measure : α → Nat) {limit bound : Nat}
    (hp : ∀ a, p a → p (step a)) (hlimit : ∀ a, p a → measure a ≤ limit)
    (hgrows : ∀ a, p a → step a ≠ a → measure a < measure (step a))
    {a : α} (ha : p a) (hbound : limit ≤ measure a + bound) :
    step (settle step bound a) = settle step bound a := by
  induction bound generalizing a with
  | zero =>
    by_cases h : step a = a
    · exact h
    · have := hgrows a ha h
      have := hlimit (step a) (hp a ha)
      omega
  | succ n ih =>
    simp only [settle]
    split
    · assumption
    · rename_i h
      have := hgrows a ha h
      exact ih (hp a ha) (by omega)

end ShiftReduce
