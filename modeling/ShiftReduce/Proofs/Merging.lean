import ShiftReduce.Proofs.ClosureOrder
import ShiftReduce.State.Merge
import ShiftReduce.State.Successors

/-!
# Merged states and recorded successors

Merging keeps the cores and the recorded successors of a state and unites the lookaheads, core by
core. Recording a successor keeps everything but the successor behind one symbol.
-/

namespace ShiftReduce.State

variable {g : Grammar} {s t : State} {x y : Symbol}

/-! ## States that match -/

/-- The cores agree place by place and, in LR(1), the lookaheads agree. -/
def Alike (s t : State) : Prop :=
  s.cores = t.cores ∧ (s.method = .lr1 → s.itemSet.lookaheads = t.itemSet.lookaheads)

theorem Alike.symm (h : s.Alike t) (hm : s.method = t.method) : t.Alike s :=
  ⟨h.1.symm, fun h1 => (h.2 (hm.trans h1)).symm⟩

theorem Alike.length_eq (h : s.cores = t.cores) : s.items.length = t.items.length := by
  simpa [cores] using congrArg List.length h

theorem core_getElem_eq (h : s.cores = t.cores) {n : Nat} (hn : n < s.items.length)
    (hn' : n < t.items.length) : s.items[n].core = t.items[n].core := by
  have := congrArg (·[n]?) h
  simpa [cores, hn, hn'] using this

theorem cores_eq_of_getElem (hlen : s.items.length = t.items.length)
    (h : ∀ (n : Nat) (hn : n < s.items.length) (hn' : n < t.items.length),
      s.items[n].core = t.items[n].core) : s.cores = t.cores := by
  refine List.ext_getElem (by simpa [cores] using hlen) fun n hn hn' => ?_
  simp only [cores, List.length_map] at hn hn'
  simpa [cores] using h n hn hn'

theorem mem_pairs_getElem (hs : s.cores.Nodup) {n : Nat} (hn : n < s.items.length) :
    (s.items[n].core, y) ∈ s.pairs ↔ y ∈ s.items[n].lookaheads := by
  constructor
  · intro h
    obtain ⟨i, hi, hc, hy⟩ := mem_pairs.mp h
    obtain rfl := List.inj_on_of_nodup_map hs hi (List.getElem_mem hn) hc
    exact hy
  · exact fun hy => mem_pairs.mpr ⟨_, List.getElem_mem hn, rfl, hy⟩

theorem mergeable_iff_getElem : s.mergeable t = true ↔ s.method = t.method ∧
    s.items.length = t.items.length ∧ ∀ (n : Nat) (hn : n < s.items.length)
      (hn' : n < t.items.length), itemsMatch s.method s.items[n] t.items[n] = true := by
  simp only [mergeable, Bool.and_eq_true, decide_eq_true_eq, beq_iff_eq, and_assoc,
    List.all_eq_true]
  refine and_congr_right fun _ => and_congr_right fun hlen => ⟨fun h n hn hn' => ?_, fun h => ?_⟩
  · have hz : n < (s.items.zip t.items).length := by
      rw [List.length_zip]
      omega
    simpa using h _ (List.getElem_mem hz)
  · rintro ⟨i, j⟩ hij
    obtain ⟨n, hn, he⟩ := List.mem_iff_getElem.mp hij
    rw [List.getElem_zip] at he
    obtain ⟨rfl, rfl⟩ := Prod.mk.inj he
    rw [List.length_zip] at hn
    exact h n (by omega) (by omega)

theorem itemsMatch_iff {m : Method} {i j : Item} : itemsMatch m i j = true ↔
    i.core = j.core ∧ (m = .lr1 → ∀ y, y ∈ i.lookaheads ↔ y ∈ j.lookaheads) := by
  simp only [itemsMatch, Bool.and_eq_true, decide_eq_true_eq, Bool.or_eq_true,
    OrderedSet.sameMembers_iff]
  refine and_congr_right fun _ => ?_
  by_cases hm : m = .lr1 <;> simp [hm]

theorem cores_eq_of_mergeable (h : s.mergeable t = true) : s.cores = t.cores := by
  obtain ⟨-, hlen, h⟩ := mergeable_iff_getElem.mp h
  exact cores_eq_of_getElem hlen fun n hn hn' => (itemsMatch_iff.mp (h n hn hn')).1

theorem mergeable_iff (hs : s.cores.Nodup) (hm : s.method = t.method) :
    s.mergeable t = true ↔ s.Alike t := by
  constructor
  · intro h
    have hc := cores_eq_of_mergeable h
    obtain ⟨-, hlen, h⟩ := mergeable_iff_getElem.mp h
    refine ⟨hc, fun h1 => Set.ext fun ⟨c, y⟩ => ?_⟩
    have hmem (n : Nat) (hn : n < s.items.length) (hn' : n < t.items.length) :
        (s.items[n].core, y) ∈ s.pairs ↔ (t.items[n].core, y) ∈ t.pairs := by
      rw [mem_pairs_getElem hs hn, mem_pairs_getElem (hc ▸ hs) hn']
      exact (itemsMatch_iff.mp (h n hn hn')).2 h1 y
    constructor
    · intro hp
      obtain ⟨i, hi, rfl, -⟩ := mem_pairs.mp hp
      obtain ⟨n, hn, rfl⟩ := List.mem_iff_getElem.mp hi
      have hn' : n < t.items.length := hlen ▸ hn
      have := (hmem n hn hn').mp hp
      rwa [← core_getElem_eq hc hn hn'] at this
    · intro hp
      obtain ⟨i, hi, rfl, -⟩ := mem_pairs.mp hp
      obtain ⟨n, hn', rfl⟩ := List.mem_iff_getElem.mp hi
      have hn : n < s.items.length := hlen ▸ hn'
      have := (hmem n hn hn').mpr hp
      rwa [core_getElem_eq hc hn hn'] at this
  · rintro ⟨hc, hla⟩
    refine mergeable_iff_getElem.mpr ⟨hm, Alike.length_eq hc, fun n hn hn' => itemsMatch_iff.mpr
      ⟨core_getElem_eq hc hn hn', fun h1 y => ?_⟩⟩
    rw [← mem_pairs_getElem hs hn, ← mem_pairs_getElem (hc ▸ hs) hn', core_getElem_eq hc hn hn']
    exact Set.ext_iff.mp (hla h1) _

/-! ## Absorbing -/

theorem merge_eq_ok_iff {m : State} {grew : Bool} : s.merge t = .ok (m, grew) ↔
    s.mergeable t = true ∧ m = s.absorb t ∧
      grew = decide (s.lookaheadCount < (s.absorb t).lookaheadCount) := by
  unfold merge
  split
  · rename_i h
    simp [h, @eq_comm _ m, @eq_comm _ grew]
  · rename_i h
    simp [h]

/-- Absorbing changes nothing but lookaheads. -/
theorem map_absorb {β : Type} {f : Item → β} (hf : ∀ i la, f (i.unite la) = f i)
    (h : s.cores = t.cores) : (s.absorb t).items.map f = s.items.map f := by
  have hlen := Alike.length_eq h
  refine List.ext_getElem (by simp [absorb, hlen]) fun n hn hn' => ?_
  simp [absorb, hf]

theorem cores_absorb (h : s.cores = t.cores) : (s.absorb t).cores = s.cores :=
  map_absorb (f := Item.core) (fun _ _ => rfl) h

theorem mem_pairs_absorb (h : s.cores = t.cores) {c : Core} :
    (c, y) ∈ (s.absorb t).pairs ↔ (c, y) ∈ s.pairs ∨ (c, y) ∈ t.pairs := by
  have hlen := Alike.length_eq h
  have hget (n : Nat) (hn : n < s.items.length) (hn' : n < t.items.length) :
      s.items[n].unite t.items[n].lookaheads ∈ (s.absorb t).items := by
    refine List.mem_iff_getElem.mpr ⟨n, ?_, by simp [absorb]⟩
    rw [absorb, List.length_zipWith]
    omega
  constructor
  · intro hp
    obtain ⟨k, hk, rfl, hy⟩ := mem_pairs.mp hp
    obtain ⟨n, hn, rfl⟩ := List.mem_iff_getElem.mp hk
    have hlt : n < s.items.length ∧ n < t.items.length := by
      rw [absorb, List.length_zipWith] at hn
      omega
    simp only [absorb, List.getElem_zipWith] at hy ⊢
    rcases OrderedSet.mem_union.mp hy with hy | hy
    · exact .inl (mem_pairs.mpr ⟨_, List.getElem_mem hlt.1, rfl, hy⟩)
    · exact .inr (mem_pairs.mpr
        ⟨_, List.getElem_mem hlt.2, (core_getElem_eq h hlt.1 hlt.2).symm, hy⟩)
  · rintro (hp | hp)
    · obtain ⟨i, hi, rfl, hy⟩ := mem_pairs.mp hp
      obtain ⟨n, hn, rfl⟩ := List.mem_iff_getElem.mp hi
      exact mem_pairs.mpr ⟨_, hget n hn (hlen ▸ hn), rfl, OrderedSet.mem_union.mpr (.inl hy)⟩
    · obtain ⟨j, hj, rfl, hy⟩ := mem_pairs.mp hp
      obtain ⟨n, hn', rfl⟩ := List.mem_iff_getElem.mp hj
      have hn : n < s.items.length := hlen ▸ hn'
      exact mem_pairs.mpr ⟨_, hget n hn hn', core_getElem_eq h hn hn',
        OrderedSet.mem_union.mpr (.inr hy)⟩

theorem lookaheads_absorb (h : s.cores = t.cores) : (s.absorb t).itemSet.lookaheads =
    s.itemSet.lookaheads ∪ t.itemSet.lookaheads :=
  Set.ext fun ⟨_, _⟩ => mem_pairs_absorb h

theorem itemSet_absorb (h : s.cores = t.cores) :
    (s.absorb t).itemSet = s.itemSet ∪ t.itemSet := by
  refine ItemSet.ext ?_ (lookaheads_absorb h)
  rw [itemSet_cores_eq (cores_absorb h)]
  change s.itemSet.cores = s.itemSet.cores ∪ t.itemSet.cores
  rw [← itemSet_cores_eq h, Set.union_self]

/-- A state absorbs nothing from one that has no other lookaheads. -/
theorem absorb_eq_self (hs : s.cores.Nodup) (h : s.cores = t.cores)
    (hsub : t.itemSet.lookaheads ⊆ s.itemSet.lookaheads) : s.absorb t = s := by
  have hlen := Alike.length_eq h
  have hitems : s.items.zipWith (fun i j => i.unite j.lookaheads) t.items = s.items := by
    refine List.ext_getElem (by simp [hlen]) fun n hn hn' => ?_
    have hnt : n < t.items.length := hlen ▸ hn'
    have hla : ∀ y ∈ t.items[n].lookaheads, y ∈ s.items[n].lookaheads := by
      intro y hy
      have hp := hsub (show (t.items[n].core, y) ∈ t.itemSet.lookaheads from
        mem_pairs.mpr ⟨_, List.getElem_mem hnt, rfl, hy⟩)
      rw [← core_getElem_eq h hn' hnt] at hp
      exact (mem_pairs_getElem hs hn').mp hp
    rw [List.getElem_zipWith, Item.unite, OrderedSet.union_of_subset hla]
  rw [absorb, hitems]

theorem proper_absorb (hs : s.Proper g) (h : s.cores = t.cores) : (s.absorb t).Proper g := by
  refine ⟨fun k hk => ?_, by rw [cores_absorb h]; exact hs.nodup⟩
  have hr : k.rule ∈ (s.absorb t).items.map Item.rule := List.mem_map_of_mem hk
  rw [map_absorb (fun _ _ => rfl) h] at hr
  obtain ⟨i, hi, hr⟩ := List.mem_map.mp hr
  rw [← hr]
  exact hs.rules i hi

/-! ## Recorded successors -/

/-- Each item with its next symbol and what it has recorded. -/
def steps (s : State) : List (Option Symbol × Option StateId) :=
  s.items.map fun i => (i.nextSymbol?, i.next)

theorem successor?_eq_steps : s.successor? x = (s.steps.find? (·.1 = some x)).bind (·.2) := by
  rw [steps, List.find?_map, successor?]
  show _ = ((s.items.find? (·.nextSymbol? = some x)).map _).bind _
  cases s.items.find? (·.nextSymbol? = some x) <;> rfl

/-- Items that wait for the same symbol have recorded the same successor. -/
def Uniform (s : State) : Prop :=
  ∀ i ∈ s.items, ∀ x, i.nextSymbol? = some x → i.next = s.successor? x

/-- A complete item has recorded nothing. -/
def Ended (s : State) : Prop := ∀ i ∈ s.items, i.nextSymbol? = none → i.next = none

theorem mem_nextSymbols : x ∈ s.nextSymbols ↔ ∃ i ∈ s.items, i.nextSymbol? = some x := by
  rw [nextSymbols, OrderedSet.mem_ofList, List.mem_filterMap]

/-- The next symbols depend on the cores only. -/
theorem mem_nextSymbols_iff_waits (hs : s.Proper g) :
    x ∈ s.nextSymbols ↔ ∃ c ∈ s.cores, ∃ rest, g.Waits c x rest := by
  rw [mem_nextSymbols]
  constructor
  · rintro ⟨i, hi, hx⟩
    exact ⟨i.core, mem_cores.mpr ⟨i, hi, rfl⟩, i.rest,
      (Item.waits_iff (hs.rules i hi)).mpr ⟨hx, rfl⟩⟩
  · rintro ⟨c, hc, rest, hw⟩
    obtain ⟨i, hi, -, hx, -⟩ := hs.exists_item_of_waits hc hw
    exact ⟨i, hi, hx⟩

theorem nextSymbols_congr (hs : s.Proper g) (ht : t.Proper g) (h : s.cores = t.cores) :
    s.nextSymbols = t.nextSymbols := by
  have hsymbols (s : State) : s.items.filterMap Item.nextSymbol? =
      (s.items.map fun i => (i.rule, i.dot)).filterMap fun p => (p.1.right.drop p.2).head? := by
    rw [List.filterMap_map]
    rfl
  rw [nextSymbols, nextSymbols, hsymbols, hsymbols, aligned_of_cores_eq hs ht h]

theorem mem_nextSymbols_of_successor? {target : StateId} (h : s.successor? x = some target) :
    x ∈ s.nextSymbols := by
  obtain ⟨i, hi, -⟩ := Option.bind_eq_some_iff.mp h
  exact mem_nextSymbols.mpr ⟨i, List.mem_of_find?_eq_some hi, by simpa using List.find?_some hi⟩

theorem uniform_of_next_none (h : ∀ i ∈ s.items, i.next = none) : s.Uniform := by
  intro i hi x _
  rw [h i hi, successor?]
  cases hf : s.items.find? (·.nextSymbol? = some x) with
  | none => rfl
  | some j => exact (h j (List.mem_of_find?_eq_some hf)).symm

theorem ended_of_next_none (h : ∀ i ∈ s.items, i.next = none) : s.Ended := fun i hi _ => h i hi

theorem successor?_eq_none (h : ∀ i ∈ s.items, i.next = none) : s.successor? x = none := by
  rw [successor?]
  cases hf : s.items.find? (·.nextSymbol? = some x) with
  | none => rfl
  | some j => exact h j (List.mem_of_find?_eq_some hf)

theorem steps_absorb (h : s.cores = t.cores) : (s.absorb t).steps = s.steps :=
  map_absorb (fun _ _ => rfl) h

theorem successor?_absorb (h : s.cores = t.cores) : (s.absorb t).successor? x = s.successor? x := by
  rw [successor?_eq_steps, successor?_eq_steps, steps_absorb h]

theorem uniform_iff_steps :
    s.Uniform ↔ ∀ p ∈ s.steps, ∀ x, p.1 = some x → p.2 = s.successor? x := by
  unfold steps Uniform
  rw [List.forall_mem_map]

theorem uniform_absorb (hs : s.Uniform) (h : s.cores = t.cores) : (s.absorb t).Uniform := by
  rw [uniform_iff_steps, steps_absorb h]
  intro p hp x hx
  rw [successor?_absorb h]
  exact uniform_iff_steps.mp hs p hp x hx

theorem ended_iff_steps : s.Ended ↔ ∀ p ∈ s.steps, p.1 = none → p.2 = none := by
  unfold steps Ended
  rw [List.forall_mem_map]

theorem ended_absorb (hs : s.Ended) (h : s.cores = t.cores) : (s.absorb t).Ended := by
  rw [ended_iff_steps, steps_absorb h]
  exact ended_iff_steps.mp hs

/-! ## Recording a successor -/

variable {target : StateId}

/-- Recording a successor changes nothing but what items have recorded. -/
theorem map_assign {β : Type} {f : Item → β} (hf : ∀ (i : Item) n, f { i with next := n } = f i) :
    (s.assign x target).items.map f = s.items.map f := by
  rw [assign, List.map_map]
  refine List.map_congr_left fun i _ => ?_
  simp only [Function.comp_apply]
  split
  · exact hf i _
  · rfl

theorem cores_assign : (s.assign x target).cores = s.cores :=
  map_assign (f := Item.core) fun _ _ => rfl

theorem pairs_assign : (s.assign x target).pairs = s.pairs := by
  have hp (s : State) : s.pairs = (s.items.map fun i =>
      i.lookaheads.toList.map (Prod.mk i.core)).flatten := List.flatMap_def
  rw [hp, hp, map_assign fun _ _ => rfl]

theorem itemSet_assign : (s.assign x target).itemSet = s.itemSet := by
  rw [itemSet, cores_assign, pairs_assign]
  rfl

theorem proper_assign (hs : s.Proper g) : (s.assign x target).Proper g := by
  refine ⟨fun k hk => ?_, by rw [cores_assign]; exact hs.nodup⟩
  have hr : k.rule ∈ (s.assign x target).items.map Item.rule := List.mem_map_of_mem hk
  rw [map_assign fun _ _ => rfl] at hr
  obtain ⟨i, hi, hr⟩ := List.mem_map.mp hr
  rw [← hr]
  exact hs.rules i hi

theorem nextSymbols_assign : (s.assign x target).nextSymbols = s.nextSymbols := by
  have hn (s : State) : s.nextSymbols = .ofList ((s.items.map Item.nextSymbol?).filterMap id) := by
    rw [List.filterMap_map]
    rfl
  rw [hn, hn, map_assign fun _ _ => rfl]

/-- An item with what `assign` records in it. -/
def noted (x : Symbol) (target : StateId) (i : Item) : Item :=
  if i.nextSymbol? = some x then { i with next := some target } else i

theorem nextSymbol?_noted (i : Item) : (noted x target i).nextSymbol? = i.nextSymbol? := by
  unfold noted
  split <;> rfl

theorem find?_assign : (s.assign x target).items.find? (·.nextSymbol? = some y) =
    (s.items.find? (·.nextSymbol? = some y)).map (noted x target) := by
  change (s.items.map (noted x target)).find? _ = _
  rw [List.find?_map]
  simp only [Function.comp_def, nextSymbol?_noted]

theorem successor?_assign_self (hx : x ∈ s.nextSymbols) :
    (s.assign x target).successor? x = some target := by
  obtain ⟨i, hi, hix⟩ := mem_nextSymbols.mp hx
  rw [successor?, find?_assign]
  cases hj : s.items.find? (·.nextSymbol? = some x) with
  | none => exact absurd (List.find?_eq_none.mp hj i hi) (by simp [hix])
  | some j =>
    have hjx : j.nextSymbol? = some x := by simpa using List.find?_some hj
    simp [noted, hjx]

theorem successor?_assign_of_ne (h : y ≠ x) :
    (s.assign x target).successor? y = s.successor? y := by
  rw [successor?, successor?, find?_assign]
  cases hj : s.items.find? (·.nextSymbol? = some y) with
  | none => rfl
  | some j =>
    have hjy : j.nextSymbol? = some y := by simpa using List.find?_some hj
    simp [noted, hjy, h]

theorem uniform_assign (hs : s.Uniform) : (s.assign x target).Uniform := by
  intro k hk y hy
  obtain ⟨i, hi, rfl⟩ := List.mem_map.mp hk
  change (noted x target i).nextSymbol? = some y at hy
  change (noted x target i).next = _
  rw [nextSymbol?_noted] at hy
  by_cases h : y = x
  · subst h
    rw [successor?_assign_self (mem_nextSymbols.mpr ⟨i, hi, hy⟩), noted, if_pos hy]
  · rw [successor?_assign_of_ne h, ← hs i hi y hy, noted, if_neg]
    rw [hy, Option.some.injEq]
    exact h

theorem ended_assign (hs : s.Ended) : (s.assign x target).Ended := by
  intro k hk hy
  obtain ⟨i, hi, rfl⟩ := List.mem_map.mp hk
  change (noted x target i).nextSymbol? = none at hy
  change (noted x target i).next = none
  rw [nextSymbol?_noted] at hy
  rw [noted, if_neg (by simp [hy])]
  exact hs i hi hy

end ShiftReduce.State
