import ShiftReduce.OrderedSet

/-!
# Families of sets

A set for each of some keys. The keys are in the order in which they were met, and the set of a key
that has not been met is empty. Sets are only extended, so a family only grows.
-/

namespace ShiftReduce

universe u v

structure Family (κ : Type u) (α : Type v) [Ord κ] [Ord α] where
  keys : OrderedSet κ
  /-- The set of each key at the place of the key. -/
  sets : Array (OrderedSet α)
  size_sets : sets.size = keys.size
  deriving DecidableEq, Repr

namespace Family

variable {κ : Type u} {α : Type v} [Ord κ] [Ord α]

def empty : Family κ α := ⟨∅, #[], rfl⟩

instance : EmptyCollection (Family κ α) := ⟨empty⟩

instance : Inhabited (Family κ α) := ⟨empty⟩

def get (f : Family κ α) (k : κ) : OrderedSet α :=
  match f.keys.place? k with
  | some n => f.sets[n]?.getD ∅
  | none => ∅

variable [Std.TransOrd κ] [Std.LawfulEqOrd κ]

theorem get_eq_empty {f : Family κ α} {k : κ} (h : k ∉ f.keys) : f.get k = ∅ := by
  simp [get, OrderedSet.place?_eq_none_iff.mpr h]

@[simp] theorem get_empty (k : κ) : (∅ : Family κ α).get k = ∅ :=
  get_eq_empty (OrderedSet.not_mem_empty k)

variable [Std.TransOrd α] [Std.LawfulEqOrd α]

/-- Adds the members of `s` to the set of `k`, which is a key from then on. -/
def extend (f : Family κ α) (k : κ) (s : OrderedSet α) : Family κ α :=
  match h : f.keys.place? k with
  | some n => ⟨f.keys, f.sets.modify n (·.union s), by simp [f.size_sets]⟩
  | none =>
    ⟨f.keys.insert k, f.sets.push s, by
      rw [Array.size_push, f.size_sets, ← OrderedSet.length_toList, ← OrderedSet.length_toList,
        OrderedSet.toList_insert_of_not_mem (OrderedSet.place?_eq_none_iff.mp h),
        List.length_append, List.length_singleton]⟩

theorem keys_extend (f : Family κ α) (k : κ) (s : OrderedSet α) :
    (f.extend k s).keys = f.keys.insert k := by
  unfold extend
  split
  · rename_i n h
    exact (OrderedSet.insert_of_mem (OrderedSet.isSome_place?_iff.mp (h ▸ rfl))).symm
  · rfl

theorem get_extend_self (f : Family κ α) (k : κ) (s : OrderedSet α) :
    (f.extend k s).get k = (f.get k).union s := by
  unfold extend
  split
  · rename_i n h
    obtain ⟨hn, -⟩ := List.getElem?_eq_some_iff.mp (OrderedSet.place?_eq_some_iff.mp h)
    have hn : n < f.sets.size := f.size_sets ▸ hn
    simp [get, h, hn, Array.getElem_modify_self]
  · rename_i h
    have hk := OrderedSet.place?_eq_none_iff.mp h
    simp only [get, OrderedSet.place?_insert_self hk, ← f.size_sets, h]
    simp [OrderedSet.union, OrderedSet.isEmpty_iff.mpr]

theorem get_extend_of_ne (f : Family κ α) {j k : κ} (h : j ≠ k) (s : OrderedSet α) :
    (f.extend k s).get j = f.get j := by
  unfold extend
  split
  · rename_i n hk
    simp only [get]
    split
    · rename_i m hj
      have hne : n ≠ m := by
        rintro rfl
        rw [OrderedSet.place?_eq_some_iff] at hj hk
        exact h (Option.some.inj (hj.symm.trans hk))
      simp [Array.getElem?_modify, hne]
    · rfl
  · simp only [get, OrderedSet.place?_insert_of_ne h]
    split
    · rename_i m hj
      obtain ⟨hm, -⟩ := List.getElem?_eq_some_iff.mp (OrderedSet.place?_eq_some_iff.mp hj)
      have hm : m < f.sets.size := f.size_sets ▸ hm
      simp [Array.getElem?_push, Nat.ne_of_lt hm]
    · rfl

/-- A key that has been met gets nothing from an empty set. -/
theorem extend_empty {f : Family κ α} {k : κ} (h : k ∈ f.keys) : f.extend k ∅ = f := by
  unfold extend
  split
  · rename_i n hn
    have hsets : f.sets.modify n (·.union ∅) = f.sets := by
      refine Array.ext (by simp) fun m hm hm' => ?_
      rw [Array.getElem_modify]
      split
      · rw [OrderedSet.union_empty]
      · rfl
    simp only [hsets]
  · rename_i hn
    exact absurd h (OrderedSet.place?_eq_none_iff.mp hn)

/-- Every set only grows. -/
theorem mem_get_extend {f : Family κ α} {j k : κ} {s : OrderedSet α} {a : α}
    (h : a ∈ f.get j) : a ∈ (f.extend k s).get j := by
  by_cases hk : j = k
  · subst hk
    rw [get_extend_self, OrderedSet.mem_union]
    exact .inl h
  · rwa [get_extend_of_ne f hk]

end Family

end ShiftReduce
