import ShiftReduce.Collection.Construction

/-!
# Collections in the making

`Reached u c` says that `c` is what the construction works on at the beginning of a visit or at
its end. A complete collection has been reached, and all its states have been visited.
-/

namespace ShiftReduce.Collection

inductive Reached (u : Setup) : Collection → Prop where
  | initial {s : State} {c : Collection} (hs : u.start u.config.method = .ok s)
      (hc : initial u s = .ok c) : Reached u c
  | visit {c d : Collection} (hc : Reached u c) (h : c.visited < c.states.size)
      (hd : c.visit u = .ok d) : Reached u d

variable {u : Setup}

theorem Reached.visitAll {bound : Nat} {c d : Collection} (hc : Reached u c)
    (h : visitAll u bound c = .ok d) : Reached u d ∧ d.states.size ≤ d.visited := by
  induction bound generalizing c with
  | zero =>
    unfold Collection.visitAll at h
    split at h
    · cases h
    · cases h
      exact ⟨hc, by omega⟩
  | succ n ih =>
    unfold Collection.visitAll at h
    split at h
    · rename_i hlt
      cases hv : c.visit u with
      | error f => simp [hv, bind, Except.bind] at h
      | ok e =>
        simp only [hv, bind, Except.bind] at h
        exact ih (.visit hc hlt hv) h
    · cases h
      exact ⟨hc, by omega⟩

theorem reached_of_construct {s : State} {c : Collection} (hs : u.start u.config.method = .ok s)
    (h : construct u s = .ok c) : Reached u c ∧ c.states.size ≤ c.visited := by
  unfold construct at h
  split at h
  · cases h
  · rename_i d hi
    exact (Reached.initial hs hi).visitAll h

theorem reached_of_build {c : Collection} (h : build u = .ok c) :
    Reached u c ∧ c.states.size ≤ c.visited := by
  unfold build at h
  split at h
  · cases h
  · rename_i s hs
    split at h
    · cases h
    · rename_i d hd
      cases h
      exact reached_of_construct hs hd

end ShiftReduce.Collection
