import ShiftReduce.Groups
import ShiftReduce.State.Basic

/-!
# Successors

Reading a symbol moves the dot of each item that waits for it. The moved items, in the order of
their cores, are the kernel of the successor.
-/

namespace ShiftReduce.State

/-- The symbols behind the dots in the order of the items. -/
def nextSymbols (s : State) : OrderedSet Symbol :=
  .ofList (s.items.filterMap Item.nextSymbol?)

/-! ## The order of a kernel -/

/-- The items by their cores, which are pairwise different. -/
def byCore (items : List Item) : Std.TreeMap Core Item := .ofList (items.map fun i => (i.core, i))

def sortByCore (items : List Item) : List Item := (byCore items).toList.map Prod.snd

theorem mem_byCore {items : List Item} (h : (items.map Item.core).Nodup) {c : Core} {i : Item} :
    (c, i) ∈ (byCore items).toList ↔ c = i.core ∧ i ∈ items := by
  have hd : (items.map fun i => (i.core, i)).Pairwise fun a b => ¬compare a.1 b.1 = .eq := by
    rw [List.pairwise_map]
    exact (List.pairwise_map.mp h).imp fun hne he => hne (Std.LawfulEqOrd.eq_of_compare he)
  have hget {j : Item} (hj : j ∈ items) : (byCore items)[j.core]? = some j :=
    Std.TreeMap.getElem?_ofList_of_mem Std.ReflOrd.compare_self hd (List.mem_map_of_mem hj)
  rw [Std.TreeMap.mem_toList_iff_getElem?_eq_some]
  constructor
  · intro hi
    by_cases hc : c ∈ items.map Item.core
    · obtain ⟨j, hj, rfl⟩ := List.mem_map.mp hc
      obtain rfl := Option.some.inj ((hget hj).symm.trans hi)
      exact ⟨rfl, hj⟩
    · have hn : (byCore items)[c]? = none :=
        Std.TreeMap.getElem?_ofList_of_contains_eq_false (by simpa using hc)
      rw [hn] at hi
      cases hi
  · rintro ⟨rfl, hi⟩
    exact hget hi

theorem mem_sortByCore {items : List Item} (h : (items.map Item.core).Nodup) {i : Item} :
    i ∈ sortByCore items ↔ i ∈ items := by
  rw [sortByCore, List.mem_map]
  constructor
  · rintro ⟨⟨c, j⟩, hj, rfl⟩
    exact ((mem_byCore h).mp hj).2
  · exact fun hi => ⟨(i.core, i), (mem_byCore h).mpr ⟨rfl, hi⟩, rfl⟩

theorem pairwise_sortByCore {items : List Item} (h : (items.map Item.core).Nodup) :
    (sortByCore items).Pairwise fun i j => compare i.core j.core = .lt := by
  rw [sortByCore, List.pairwise_map]
  refine Std.TreeMap.ordered_keys_toList.imp_of_mem ?_
  rintro ⟨c, i⟩ ⟨d, j⟩ hi hj hlt
  obtain ⟨rfl, -⟩ := (mem_byCore h).mp hi
  obtain ⟨rfl, -⟩ := (mem_byCore h).mp hj
  exact hlt

/-! ## Drafts -/

/-- The draft whose items are those of `waiting`, moved over the next symbol. -/
def moved (method : Method) (waiting : List Item) : State :=
  { draft method with items := sortByCore (waiting.filterMap Item.advance?) }

/-- The draft behind the symbol `x`. -/
def successorDraft (s : State) (x : Symbol) : State :=
  moved s.method (s.items.filter (·.nextSymbol? = some x))

/-- The draft behind each symbol. -/
def successors (s : State) : List (Symbol × State) :=
  let waiting := Groups.ofList Item.nextSymbol? s.items
  s.nextSymbols.toList.map fun x => (x, moved s.method (waiting.get x))

theorem successors_eq (s : State) :
    s.successors = s.nextSymbols.toList.map fun x => (x, s.successorDraft x) := by
  simp [successors, successorDraft, Groups.get_ofList]

/-! ## Recorded successors -/

/-- Records `target` as the state behind `x`. -/
def assign (s : State) (x : Symbol) (target : StateId) : State :=
  { s with items := s.items.map fun i =>
      if i.nextSymbol? = some x then { i with next := some target } else i }

/-- The recorded state behind `x`. -/
def successor? (s : State) (x : Symbol) : Option StateId :=
  (s.items.find? (·.nextSymbol? = some x)).bind Item.next

end ShiftReduce.State
