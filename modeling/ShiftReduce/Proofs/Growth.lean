import Mathlib.Algebra.Group.Action.Defs
import Mathlib.Algebra.GroupWithZero.Nat
import Mathlib.Algebra.Order.BigOperators.Group.List
import Mathlib.Algebra.Order.Group.Nat
import Mathlib.Data.List.Perm.Subperm
import Mathlib.Logic.Function.Iterate
import ShiftReduce.Family
import ShiftReduce.Settle

/-!
# Growth

`Grows weight a b`: `b` is `a`, or it weighs more. Inserting into ordered sets and extending
families only grows them, and what they can hold bounds their weight. So a pass of insertions that
is repeated with enough turns comes to rest.
-/

namespace ShiftReduce

universe u v

def Grows {α : Type u} (weight : α → Nat) (a b : α) : Prop := a = b ∨ weight a < weight b

namespace Grows

variable {α : Type u} {weight : α → Nat} {a b c : α}

theorem refl (a : α) : Grows weight a a := .inl rfl

theorem trans (h1 : Grows weight a b) (h2 : Grows weight b c) : Grows weight a c := by
  rcases h1 with rfl | h1
  · exact h2
  rcases h2 with rfl | h2
  · exact .inr h1
  · exact .inr (Nat.lt_trans h1 h2)

theorem le (h : Grows weight a b) : weight a ≤ weight b := by
  rcases h with rfl | h
  · exact Nat.le_refl _
  · exact Nat.le_of_lt h

theorem foldl {β : Type v} {f : α → β → α} (hf : ∀ a x, Grows weight a (f a x)) (l : List β)
    (a : α) : Grows weight a (l.foldl f a) := by
  induction l generalizing a with
  | nil => exact .refl a
  | cons x l ih => exact (hf a x).trans (ih (f a x))

/-- A growing step comes to rest if the bound on the turns covers what can still be gained. -/
theorem step_settle [DecidableEq α] (weight : α → Nat) (limit : Nat) {step : α → α}
    (hstep : ∀ a, Grows weight a (step a)) {p : α → Prop} (hp : ∀ a, p a → p (step a)) {bound : Nat}
    (hlimit : ∀ a, p a → weight a ≤ limit) (ha : p a) (hbound : limit ≤ weight a + bound) :
    step (settle step bound a) = settle step bound a := by
  refine ShiftReduce.step_settle weight hp hlimit ?_ ha hbound
  intro b _ hne
  rcases hstep b with h | h
  · exact absurd h.symm hne
  · exact h

end Grows

/-- A result that has come to rest is what enough repetitions lead to. -/
theorem exists_iterate_eq_settle {α : Type u} [DecidableEq α] {step : α → α} {bound : Nat} {a : α}
    (h : step (settle step bound a) = settle step bound a) :
    ∃ n, ∀ k, n ≤ k → step^[k] a = settle step bound a := by
  have hreach : ∃ n, step^[n] a = settle step bound a := by
    clear h
    induction bound generalizing a with
    | zero => exact ⟨0, rfl⟩
    | succ bound ih =>
      simp only [settle]
      split
      · exact ⟨0, rfl⟩
      · obtain ⟨n, hn⟩ := ih (a := step a)
        exact ⟨n + 1, hn⟩
  obtain ⟨n, hn⟩ := hreach
  refine ⟨n, fun k hk => ?_⟩
  obtain ⟨j, rfl⟩ := Nat.exists_eq_add_of_le hk
  rw [Nat.add_comm, Function.iterate_add_apply, hn]
  exact Function.iterate_fixed h j

/-- Replacing one entry of a list changes the sum by the difference. -/
theorem sum_map_set {α : Type u} (w : α → Nat) (l : List α) {n : Nat} (hn : n < l.length) (a : α) :
    ((l.set n a).map w).sum + w l[n] = (l.map w).sum + w a := by
  induction l generalizing n with
  | nil => cases hn
  | cons b l ih =>
    cases n with
    | zero =>
      simp only [List.set_cons_zero, List.map_cons, List.sum_cons, List.getElem_cons_zero]
      omega
    | succ n =>
      have := ih (Nat.lt_of_succ_lt_succ hn)
      simp only [List.set_cons_succ, List.map_cons, List.sum_cons, List.getElem_cons_succ]
      omega

/-! ## Ordered sets -/

namespace OrderedSet

variable {α : Type u} [Ord α]

/-- A set has no more members than any list that has them all. -/
theorem size_le_length {s : OrderedSet α} {l : List α} (h : ∀ a ∈ s, a ∈ l) :
    s.size ≤ l.length := by
  rw [← length_toList]
  exact (List.Nodup.subperm s.nodup h).length_le

variable [Std.TransOrd α] [Std.LawfulEqOrd α]

theorem size_insert_of_not_mem {s : OrderedSet α} {a : α} (h : a ∉ s) :
    (s.insert a).size = s.size + 1 := by
  rw [← length_toList, toList_insert_of_not_mem h, List.length_append, List.length_singleton,
    length_toList]

theorem grows_insert (s : OrderedSet α) (a : α) : Grows size s (s.insert a) := by
  by_cases h : a ∈ s
  · exact .inl (insert_of_mem h).symm
  · exact .inr (by rw [size_insert_of_not_mem h]; omega)

theorem grows_union (s t : OrderedSet α) : Grows size s (s.union t) := by
  rw [union_eq]
  exact Grows.foldl grows_insert t.toList s

theorem size_lt_size_union_iff {s t : OrderedSet α} :
    s.size < (s.union t).size ↔ ∃ a ∈ t, a ∉ s := by
  constructor
  · intro hlt
    by_contra hno
    have hsub : ∀ a ∈ t, a ∈ s := by
      simpa only [not_exists, not_and, not_not] using hno
    rw [union_of_subset hsub] at hlt
    exact Nat.lt_irrefl _ hlt
  · rintro ⟨a, ha, hnot⟩
    refine (grows_union s t).resolve_left fun heq => hnot ?_
    rw [heq]
    exact mem_union.mpr (.inr ha)

end OrderedSet

/-! ## Families -/

namespace Family

variable {κ : Type u} {α : Type v} [Ord κ] [Ord α]

/-- The number of keys and of members of their sets. -/
def weight (f : Family κ α) : Nat := f.keys.size + (f.sets.toList.map OrderedSet.size).sum

theorem ext_of_eq {f g : Family κ α} (hk : f.keys = g.keys) (hs : f.sets = g.sets) : f = g := by
  cases f
  cases g
  simp_all

variable [Std.TransOrd κ] [Std.LawfulEqOrd κ]

theorem exists_get_of_mem {f : Family κ α} {s : OrderedSet α} (h : s ∈ f.sets) :
    ∃ k ∈ f.keys, f.get k = s := by
  obtain ⟨n, hn, hs⟩ := Array.mem_iff_getElem.mp h
  have hk : n < f.keys.toList.length := by
    rw [OrderedSet.length_toList, ← f.size_sets]
    exact hn
  refine ⟨f.keys.toList[n], OrderedSet.mem_toList.mp (List.getElem_mem hk), ?_⟩
  have hp : f.keys.place? f.keys.toList[n] = some n :=
    OrderedSet.place?_eq_some_iff.mpr (List.getElem?_eq_getElem hk)
  simp [get, hp, hs, hn]

theorem weight_le {f : Family κ α} {names : List κ} {values : List α}
    (hn : ∀ k ∈ f.keys, k ∈ names) (hv : ∀ k, ∀ a ∈ f.get k, a ∈ values) :
    f.weight ≤ names.length * (values.length + 1) := by
  have hkeys : f.keys.size ≤ names.length := OrderedSet.size_le_length hn
  have hsum : (f.sets.toList.map OrderedSet.size).sum ≤ f.sets.toList.length * values.length := by
    have hle : ∀ n ∈ f.sets.toList.map OrderedSet.size, n ≤ values.length := by
      intro n hn
      obtain ⟨s, hs, rfl⟩ := List.mem_map.mp hn
      obtain ⟨k, -, rfl⟩ := exists_get_of_mem (Array.mem_toList_iff.mp hs)
      exact OrderedSet.size_le_length (hv k)
    have h := List.sum_le_card_nsmul _ _ hle
    rwa [List.length_map, smul_eq_mul] at h
  rw [Array.length_toList, f.size_sets] at hsum
  calc f.weight ≤ f.keys.size + f.keys.size * values.length := Nat.add_le_add_left hsum _
    _ = f.keys.size * (values.length + 1) := by rw [Nat.mul_succ, Nat.add_comm]
    _ ≤ names.length * (values.length + 1) := Nat.mul_le_mul_right _ hkeys

variable [Std.TransOrd α] [Std.LawfulEqOrd α]

theorem mem_keys_extend {f : Family κ α} {j k : κ} {s : OrderedSet α} :
    j ∈ (f.extend k s).keys ↔ j ∈ f.keys ∨ j = k := by
  rw [keys_extend, OrderedSet.mem_insert]

theorem mem_get_extend_iff {f : Family κ α} {j k : κ} {s : OrderedSet α} {a : α} :
    a ∈ (f.extend k s).get j ↔ a ∈ f.get j ∨ (j = k ∧ a ∈ s) := by
  by_cases h : j = k
  · subst h
    simp [get_extend_self]
  · simp [get_extend_of_ne f h, h]

theorem grows_extend (f : Family κ α) (k : κ) (s : OrderedSet α) :
    Grows weight f (f.extend k s) := by
  unfold extend
  split
  · rename_i n hk
    obtain ⟨hn, -⟩ := List.getElem?_eq_some_iff.mp (OrderedSet.place?_eq_some_iff.mp hk)
    have hn : n < f.sets.toList.length := by
      rw [Array.length_toList, f.size_sets]
      exact hn
    have hm : (f.sets.modify n (·.union s)).toList =
        f.sets.toList.set n (f.sets.toList[n].union s) := by
      rw [Array.toList_modify, List.modify_eq_set, List.getElem?_eq_getElem hn]
      rfl
    rcases OrderedSet.grows_union f.sets.toList[n] s with h | h
    · refine .inl (ext_of_eq rfl (Array.toList_inj.mp ?_))
      rw [hm, ← h, List.set_getElem_self]
    · refine .inr (Nat.add_lt_add_left ?_ _)
      have hsum := sum_map_set OrderedSet.size f.sets.toList hn (f.sets.toList[n].union s)
      simp only [hm]
      omega
  · rename_i hk
    have hk := OrderedSet.place?_eq_none_iff.mp hk
    right
    simp only [weight, OrderedSet.size_insert_of_not_mem hk]
    simp
    omega

end Family

end ShiftReduce
