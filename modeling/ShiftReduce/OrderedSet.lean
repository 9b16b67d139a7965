import Std.Data.TreeMap

/-!
# Ordered sets

A set that keeps its members in the order of first insertion. Inserting a member again changes
nothing, so both the members and their order are determined by the insertions. An index leads from
each member to its place.
-/

namespace ShiftReduce

universe u

/-! ## Places in a list -/

section Places

variable {α : Type u} [Ord α]

/-- Enters the members of a list and their places, the first of which is `n`. -/
def enterPlaces (m : Std.TreeMap α Nat) (l : List α) (n : Nat) : Std.TreeMap α Nat :=
  (l.zipIdx n).foldl (fun m p => m.insert p.1 p.2) m

def places (l : List α) : Std.TreeMap α Nat := enterPlaces ∅ l 0

theorem places_append_singleton (l : List α) (a : α) :
    places (l ++ [a]) = (places l).insert a l.length := by
  simp [places, enterPlaces, List.zipIdx_append]

variable [Std.TransOrd α] [Std.LawfulEqOrd α]

theorem getElem?_enterPlaces_of_not_mem {l : List α} {a : α} (h : a ∉ l)
    (m : Std.TreeMap α Nat) (n : Nat) : (enterPlaces m l n)[a]? = m[a]? := by
  induction l generalizing m n with
  | nil => rfl
  | cons b l ih =>
    obtain ⟨hb, hl⟩ := not_or.mp (mt List.mem_cons.mpr h)
    have hne : compare b a ≠ .eq := fun he => hb (Std.LawfulEqOrd.eq_of_compare he).symm
    simpa [enterPlaces, Std.TreeMap.getElem?_insert, hne] using ih hl (m.insert b n) (n + 1)

theorem getElem?_enterPlaces {l : List α} (hl : l.Nodup) {k : Nat} {a : α} (h : l[k]? = some a)
    (m : Std.TreeMap α Nat) (n : Nat) : (enterPlaces m l n)[a]? = some (n + k) := by
  induction l generalizing m n k with
  | nil => simp at h
  | cons b l ih =>
    obtain ⟨hb, hl⟩ := List.nodup_cons.mp hl
    cases k with
    | zero =>
      obtain rfl : b = a := by simpa using h
      have := getElem?_enterPlaces_of_not_mem hb (m.insert b n) (n + 1)
      simpa [enterPlaces] using this
    | succ k =>
      have := ih hl (by simpa using h) (m.insert b n) (n + 1)
      simpa [enterPlaces, Nat.add_comm, Nat.add_left_comm] using this

theorem getElem?_places {l : List α} (hl : l.Nodup) {a : α} {n : Nat} :
    (places l)[a]? = some n ↔ l[n]? = some a := by
  constructor
  · intro h
    by_cases ha : a ∈ l
    · obtain ⟨k, hk⟩ := List.getElem?_of_mem ha
      have := getElem?_enterPlaces hl hk ∅ 0
      simp only [places, this, Nat.zero_add, Option.some.injEq] at h
      exact h ▸ hk
    · simp [places, getElem?_enterPlaces_of_not_mem ha] at h
  · intro h
    simpa [places] using getElem?_enterPlaces hl h ∅ 0

end Places

/-! ## Sets -/

structure OrderedSet (α : Type u) [Ord α] where
  toArray : Array α
  index : Std.TreeMap α Nat
  nodup : toArray.toList.Nodup
  index_eq : index = places toArray.toList

namespace OrderedSet

variable {α : Type u} [Ord α]

def toList (s : OrderedSet α) : List α := s.toArray.toList

instance : Membership α (OrderedSet α) := ⟨fun s a => a ∈ s.toList⟩

theorem mem_toList {s : OrderedSet α} {a : α} : a ∈ s.toList ↔ a ∈ s := Iff.rfl

@[ext] theorem ext {s t : OrderedSet α} (h : s.toList = t.toList) : s = t := by
  obtain ⟨a, i, _, hi⟩ := s
  obtain ⟨b, j, _, hj⟩ := t
  obtain rfl : a = b := Array.toList_inj.mp h
  simp [hi, hj]

instance [DecidableEq α] : DecidableEq (OrderedSet α) := fun s t =>
  decidable_of_iff (s.toArray = t.toArray)
    ⟨fun h => ext (congrArg Array.toList h), fun h => congrArg toArray h⟩

instance [Repr α] : Repr (OrderedSet α) := ⟨fun s n => reprPrec s.toList n⟩

def empty : OrderedSet α := ⟨#[], ∅, List.nodup_nil, rfl⟩

instance : EmptyCollection (OrderedSet α) := ⟨empty⟩

instance : Inhabited (OrderedSet α) := ⟨empty⟩

@[simp] theorem toList_empty : (∅ : OrderedSet α).toList = [] := rfl

@[simp] theorem not_mem_empty (a : α) : a ∉ (∅ : OrderedSet α) := by simp [← mem_toList]

def size (s : OrderedSet α) : Nat := s.toArray.size

@[simp] theorem length_toList (s : OrderedSet α) : s.toList.length = s.size := rfl

def isEmpty (s : OrderedSet α) : Bool := s.toArray.isEmpty

theorem isEmpty_iff {s : OrderedSet α} : s.isEmpty = true ↔ s = ∅ := by
  rw [isEmpty, Array.isEmpty_iff]
  exact ⟨fun h => ext (congrArg Array.toList h), fun h => h ▸ rfl⟩

/-- The place of a member in the order of insertion. -/
def place? (s : OrderedSet α) (a : α) : Option Nat := s.index[a]?

variable [Std.TransOrd α] [Std.LawfulEqOrd α]

theorem place?_eq_some_iff {s : OrderedSet α} {a : α} {n : Nat} :
    s.place? a = some n ↔ s.toList[n]? = some a := by
  rw [place?, s.index_eq]
  exact getElem?_places s.nodup

theorem isSome_place?_iff {s : OrderedSet α} {a : α} : (s.place? a).isSome = true ↔ a ∈ s := by
  rw [Option.isSome_iff_exists, ← mem_toList, List.mem_iff_getElem?]
  exact exists_congr fun _ => place?_eq_some_iff

theorem place?_eq_none_iff {s : OrderedSet α} {a : α} : s.place? a = none ↔ a ∉ s := by
  rw [← isSome_place?_iff]
  simp

instance (s : OrderedSet α) (a : α) : Decidable (a ∈ s) :=
  decidable_of_iff _ isSome_place?_iff

/-- Adds `a` behind the members, unless it is one of them. -/
def insert (s : OrderedSet α) (a : α) : OrderedSet α :=
  if h : a ∈ s then s
  else
    let n := s.size
    { toArray := s.toArray.push a
      index := s.index.insert a n
      nodup := by
        rw [Array.toList_push]
        refine List.nodup_append.mpr ⟨s.nodup, by simp, ?_⟩
        intro b hb c hc
        rintro rfl
        exact h (List.mem_singleton.mp hc ▸ hb)
      index_eq := by
        rw [Array.toList_push, places_append_singleton, s.index_eq]
        rfl }

theorem insert_of_mem {s : OrderedSet α} {a : α} (h : a ∈ s) : s.insert a = s :=
  dif_pos h

theorem toList_insert_of_not_mem {s : OrderedSet α} {a : α} (h : a ∉ s) :
    (s.insert a).toList = s.toList ++ [a] := by
  simp [insert, h, toList]

@[simp] theorem mem_insert {s : OrderedSet α} {a b : α} : b ∈ s.insert a ↔ b ∈ s ∨ b = a := by
  by_cases h : a ∈ s
  · rw [insert_of_mem h]
    constructor
    · exact Or.inl
    · rintro (hb | rfl) <;> assumption
  · rw [← mem_toList, toList_insert_of_not_mem h]
    simp [mem_toList]

/-- Members keep their places. -/
theorem prefix_insert (s : OrderedSet α) (a : α) : s.toList <+: (s.insert a).toList := by
  by_cases h : a ∈ s
  · exact ⟨[], by rw [insert_of_mem h, List.append_nil]⟩
  · exact ⟨[a], (toList_insert_of_not_mem h).symm⟩

theorem place?_insert_self {s : OrderedSet α} {a : α} (h : a ∉ s) :
    (s.insert a).place? a = some s.size := by
  rw [place?_eq_some_iff, toList_insert_of_not_mem h, ← length_toList,
    List.getElem?_append_right (Nat.le_refl _), Nat.sub_self]
  rfl

theorem place?_insert_of_ne {s : OrderedSet α} {a b : α} (h : b ≠ a) :
    (s.insert a).place? b = s.place? b := by
  have hne : compare a b ≠ .eq := fun he => h (Std.LawfulEqOrd.eq_of_compare he).symm
  unfold insert
  split
  · rfl
  · simp [place?, Std.TreeMap.getElem?_insert, hne]

/-- Inserts the members of a list from left to right. -/
def insertAll (s : OrderedSet α) (l : List α) : OrderedSet α :=
  l.foldl insert s

@[simp] theorem insertAll_nil (s : OrderedSet α) : s.insertAll [] = s := rfl

@[simp] theorem insertAll_cons (s : OrderedSet α) (a : α) (l : List α) :
    s.insertAll (a :: l) = (s.insert a).insertAll l := rfl

@[simp] theorem mem_insertAll {s : OrderedSet α} {l : List α} {a : α} :
    a ∈ s.insertAll l ↔ a ∈ s ∨ a ∈ l := by
  induction l generalizing s with
  | nil => simp
  | cons b l ih => simp [ih, or_assoc]

/-- New members stand behind the old ones in their own order. -/
theorem toList_insertAll_of_nodup {s : OrderedSet α} {l : List α} (hl : l.Nodup)
    (h : ∀ a ∈ l, a ∉ s) : (s.insertAll l).toList = s.toList ++ l := by
  induction l generalizing s with
  | nil => simp
  | cons b l ih =>
    obtain ⟨hb, hl⟩ := List.nodup_cons.mp hl
    rw [insertAll_cons, ih hl, toList_insert_of_not_mem (h b List.mem_cons_self),
      List.append_assoc, List.singleton_append]
    intro a ha
    rw [mem_insert]
    rintro (hs | rfl)
    · exact h a (List.mem_cons_of_mem b ha) hs
    · exact hb ha

theorem prefix_insertAll (s : OrderedSet α) (l : List α) :
    s.toList <+: (s.insertAll l).toList := by
  induction l generalizing s with
  | nil => exact List.prefix_rfl
  | cons b l ih => exact (prefix_insert s b).trans (ih (s.insert b))

theorem insertAll_of_subset {s : OrderedSet α} {l : List α} (h : ∀ a ∈ l, a ∈ s) :
    s.insertAll l = s := by
  induction l with
  | nil => rfl
  | cons b l ih =>
    rw [insertAll_cons, insert_of_mem (h b List.mem_cons_self)]
    exact ih fun a ha => h a (List.mem_cons_of_mem b ha)

theorem insertAll_append (s : OrderedSet α) (l m : List α) :
    s.insertAll (l ++ m) = (s.insertAll l).insertAll m := List.foldl_append

theorem insertAll_toList_insert (s t : OrderedSet α) (a : α) :
    s.insertAll (t.insert a).toList = (s.insertAll t.toList).insert a := by
  by_cases h : a ∈ t
  · rw [insert_of_mem h, insert_of_mem (mem_insertAll.mpr (.inr h))]
  · rw [toList_insert_of_not_mem h, insertAll_append]
    rfl

/-- The distinct members of a list in the order of first occurrence. -/
def ofList (l : List α) : OrderedSet α :=
  insertAll ∅ l

@[simp] theorem mem_ofList {l : List α} {a : α} : a ∈ ofList l ↔ a ∈ l := by
  simp [ofList]

theorem ofList_toList (s : OrderedSet α) : ofList s.toList = s :=
  ext (toList_insertAll_of_nodup s.nodup fun a _ => not_mem_empty a)

/-- The members of `s`, and behind them the other members of `t`. -/
def union (s t : OrderedSet α) : OrderedSet α :=
  if s.isEmpty then t else s.insertAll t.toList

theorem union_eq (s t : OrderedSet α) : s.union t = s.insertAll t.toList := by
  unfold union
  split
  · rename_i h
    rw [isEmpty_iff.mp h]
    exact (ofList_toList t).symm
  · rfl

@[simp] theorem mem_union {s t : OrderedSet α} {a : α} : a ∈ s.union t ↔ a ∈ s ∨ a ∈ t := by
  rw [union_eq, mem_insertAll, mem_toList]

theorem union_of_subset {s t : OrderedSet α} (h : ∀ a ∈ t, a ∈ s) : s.union t = s := by
  rw [union_eq]
  exact insertAll_of_subset h

theorem empty_union (s : OrderedSet α) : (∅ : OrderedSet α).union s = s := rfl

theorem union_empty (s : OrderedSet α) : s.union ∅ = s := by
  rw [union_eq]
  rfl

theorem union_assoc (s t r : OrderedSet α) : (s.union t).union r = s.union (t.union r) := by
  simp only [union_eq]
  generalize r.toList = l
  induction l generalizing t with
  | nil => rfl
  | cons a l ih => rw [insertAll_cons, insertAll_cons, ← insertAll_toList_insert, ih]

/-- Uniting with what a list holds inserts the members of the list. -/
theorem union_ofList (s : OrderedSet α) (l : List α) : s.union (ofList l) = s.insertAll l := by
  rw [union_eq, ofList]
  have hfrom (t : OrderedSet α) : s.insertAll (t.insertAll l).toList =
      (s.insertAll t.toList).insertAll l := by
    induction l generalizing t with
    | nil => rfl
    | cons a l ih => rw [insertAll_cons, insertAll_cons, ih, insertAll_toList_insert]
  exact hfrom ∅

/-- Whether two sets have the same members, in whatever order. -/
def sameMembers (s t : OrderedSet α) : Bool :=
  s.toList.all (· ∈ t) && t.toList.all (· ∈ s)

theorem sameMembers_iff {s t : OrderedSet α} :
    s.sameMembers t = true ↔ ∀ a, a ∈ s ↔ a ∈ t := by
  simp only [sameMembers, Bool.and_eq_true, List.all_eq_true, decide_eq_true_eq, mem_toList]
  exact ⟨fun h a => ⟨h.1 a, h.2 a⟩, fun h => ⟨fun a => (h a).mp, fun a => (h a).mpr⟩⟩

/-- Whether no member of one set is a member of the other. -/
def disjoint (s t : OrderedSet α) : Bool :=
  s.toList.all (· ∉ t)

theorem disjoint_iff {s t : OrderedSet α} :
    s.disjoint t = true ↔ ∀ a, a ∈ s → a ∉ t := by
  simp [disjoint, mem_toList]

end OrderedSet

end ShiftReduce
