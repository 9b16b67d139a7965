import Std.Data.TreeMap

/-!
# Groups

A list split into groups by a key. Each group is in the order of the list, and what has no key is
left out.
-/

namespace ShiftReduce

universe u v

structure Groups (κ : Type u) (α : Type v) [Ord κ] where
  table : Std.TreeMap κ (List α)

namespace Groups

variable {κ : Type u} {α : Type v} [Ord κ]

/-- The group of a key, empty if nothing has the key. -/
def get (g : Groups κ α) (k : κ) : List α := g.table.getD k []

/-- Puts `a` in front of the group of `k`. -/
def cons (g : Groups κ α) (k : κ) (a : α) : Groups κ α := ⟨g.table.insert k (a :: g.get k)⟩

def ofList (key : α → Option κ) (l : List α) : Groups κ α :=
  l.foldr
    (fun a g =>
      match key a with
      | some k => g.cons k a
      | none => g)
    ⟨∅⟩

variable [Std.TransOrd κ]

theorem get_cons_self (g : Groups κ α) (k : κ) (a : α) : (g.cons k a).get k = a :: g.get k := by
  simp [get, cons]

variable [Std.LawfulEqOrd κ]

theorem get_cons_of_ne (g : Groups κ α) {j k : κ} (h : j ≠ k) (a : α) :
    (g.cons k a).get j = g.get j := by
  have hne : compare k j ≠ .eq := fun he => h (Std.LawfulEqOrd.eq_of_compare he).symm
  simp [get, cons, Std.TreeMap.getD_insert, hne]

theorem get_ofList [DecidableEq κ] (key : α → Option κ) (l : List α) (k : κ) :
    (ofList key l).get k = l.filter (key · = some k) := by
  induction l with
  | nil => simp [ofList, get]
  | cons a l ih =>
    rw [List.filter_cons, ← ih]
    cases ha : key a with
    | none => simp [ofList, ha]
    | some j =>
      by_cases hj : j = k
      · subst hj
        simpa [ofList, ha] using get_cons_self _ j a
      · have hk : k ≠ j := fun h => hj h.symm
        simpa [ofList, ha, hj] using get_cons_of_ne _ hk a

end Groups

end ShiftReduce
