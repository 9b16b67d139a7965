import ShiftReduce.Proofs.Additions
import ShiftReduce.Proofs.ClosureOrder
import ShiftReduce.State.Successors

/-!
# Successors of a state

The draft behind a symbol is the item set advanced over the symbol, in the order of the cores; once
closed, it is the successor of the item set. A kernel is sorted, so the set of its cores determines
their list, and with it the list of all cores of the closed state.
-/

namespace ShiftReduce

/-! ## Kernels -/

/-- Cores in ascending order. -/
abbrev Ascending (cs : List Core) : Prop := cs.Pairwise fun c d => compare c d = .lt

theorem Ascending.nodup {cs : List Core} (h : Ascending cs) : cs.Nodup := by
  refine h.imp fun hlt he => ?_
  rw [he, Std.ReflOrd.compare_self] at hlt
  cases hlt

theorem Ascending.eq_of_mem_iff {cs ds : List Core} (hc : Ascending cs) (hd : Ascending ds)
    (h : ∀ c, c ∈ cs ↔ c ∈ ds) : cs = ds := by
  refine List.Perm.eq_of_pairwise ?_ hc hd ((List.perm_ext_iff_of_nodup hc.nodup hd.nodup).mpr h)
  intro a b _ _ hab hba
  rw [Std.OrientedOrd.eq_swap, hab] at hba
  cases hba

/-- The cores that a draft of the construction begins with: the start, or items of which something
has been read. -/
def Kernel (cs : List Core) : Prop :=
  cs = [⟨startId, 0⟩] ∨ cs ≠ [] ∧ (∀ c ∈ cs, 0 < c.dot) ∧ Ascending cs

/-- What has been read determines the kernel. -/
theorem Kernel.eq_of_dot_pos {cs ds : List Core} (hc : Kernel cs) (hd : Kernel ds)
    (hsub : ∀ c ∈ cs, 0 < c.dot → c ∈ ds) (hsub' : ∀ c ∈ ds, 0 < c.dot → c ∈ cs) : cs = ds := by
  have hmixed {cs : List Core} (hne : cs ≠ []) (hpos : ∀ c ∈ cs, 0 < c.dot)
      (hsub : ∀ c ∈ cs, 0 < c.dot → c ∈ [(⟨startId, 0⟩ : Core)]) : False := by
    obtain ⟨c, hc⟩ := List.exists_mem_of_ne_nil _ hne
    have hdot := hpos c hc
    rw [List.mem_singleton.mp (hsub c hc hdot)] at hdot
    exact Nat.lt_irrefl 0 hdot
  rcases hc with rfl | ⟨hne, hpos, hasc⟩ <;> rcases hd with rfl | ⟨hne', hpos', hasc'⟩
  · rfl
  · exact (hmixed hne' hpos' hsub').elim
  · exact (hmixed hne hpos hsub).elim
  · exact hasc.eq_of_mem_iff hasc' fun c =>
      ⟨fun h => hsub c h (hpos c h), fun h => hsub' c h (hpos' c h)⟩

namespace Item

theorem advance?_eq_some {i k : Item} : i.advance? = some k ↔
    i.nextSymbol?.isSome = true ∧ k.rule = i.rule ∧ k.dot = i.dot + 1 ∧
      k.lookaheads = i.lookaheads ∧ k.next = none := by
  have hx : i.nextSymbol?.isSome = true ↔ i.dot < i.rule.right.length := by
    simp [nextSymbol?, after]
  rw [hx]
  unfold advance?
  constructor
  · intro h
    split at h
    · rename_i hlt
      cases h
      exact ⟨hlt, rfl, rfl, rfl, rfl⟩
    · cases h
  · rintro ⟨hlt, hr, hd, hl, hn⟩
    cases k
    simp_all

theorem exists_advance? {i : Item} {x : Symbol} (h : i.nextSymbol? = some x) :
    ∃ k, i.advance? = some k := by
  have hlt : i.dot < i.rule.right.length := by
    have := congrArg Option.isSome h
    simpa [nextSymbol?, after] using this
  exact ⟨_, by rw [advance?, dif_pos hlt]⟩

theorem core_advance? {i k : Item} (h : i.advance? = some k) : k.core = i.core.next := by
  obtain ⟨-, hr, hd, -⟩ := advance?_eq_some.mp h
  rw [core, hr, hd]
  rfl

end Item

namespace State

variable {g : Grammar} {u v : Setup} {s t : State} {x : Symbol}

/-! ## Drafts -/

theorem nodup_advanced (hn : s.cores.Nodup) (x : Symbol) :
    (((s.items.filter (·.nextSymbol? = some x)).filterMap Item.advance?).map Item.core).Nodup := by
  have hd : (s.items.filter (·.nextSymbol? = some x)).Pairwise fun i j => i.core ≠ j.core :=
    (List.pairwise_map.mp hn).filter _
  refine List.pairwise_map.mpr (List.Pairwise.filterMap _ ?_ hd)
  intro i j hne k hk l hl he
  rw [Item.core_advance? hk, Item.core_advance? hl] at he
  exact hne (Core.next_inj he)

theorem mem_items_successorDraft (hn : s.cores.Nodup) {k : Item} :
    k ∈ (s.successorDraft x).items ↔
      ∃ i ∈ s.items, i.nextSymbol? = some x ∧ i.advance? = some k := by
  rw [successorDraft, moved, mem_sortByCore (nodup_advanced hn x)]
  simp [List.mem_filterMap, and_assoc]

theorem ascending_successorDraft (hn : s.cores.Nodup) (x : Symbol) :
    Ascending (s.successorDraft x).cores :=
  List.pairwise_map.mpr (pairwise_sortByCore (nodup_advanced hn x))

theorem Orderly.successorDraft (hs : s.Orderly) (x : Symbol) : (s.successorDraft x).Orderly := by
  refine ⟨(ascending_successorDraft hs.nodup x).nodup, fun k hk => ?_⟩
  obtain ⟨i, hi, -, hk⟩ := (mem_items_successorDraft hs.nodup).mp hk
  rw [(Item.advance?_eq_some.mp hk).2.2.2.1]
  exact hs.carries i hi

/-- The draft comes from adding the moved items one after another. -/
theorem Orderly.gathered_successorDraft (hs : s.Orderly) (x : Symbol) :
    (s.successorDraft x).Gathered := by
  refine (hs.successorDraft x).gathered rfl rfl fun k hk => ?_
  obtain ⟨i, -, -, hk⟩ := (mem_items_successorDraft hs.nodup).mp hk
  exact (Item.advance?_eq_some.mp hk).2.2.2.2

theorem proper_successorDraft (hs : s.Proper g) (x : Symbol) : (s.successorDraft x).Proper g := by
  refine ⟨fun k hk => ?_, (ascending_successorDraft hs.nodup x).nodup⟩
  obtain ⟨i, hi, -, hk⟩ := (mem_items_successorDraft hs.nodup).mp hk
  rw [(Item.advance?_eq_some.mp hk).2.1]
  exact hs.rules i hi

theorem mem_cores_successorDraft (hs : s.Proper g) {c : Core} : c ∈ (s.successorDraft x).cores ↔
    ∃ d ∈ s.cores, (∃ rest, g.Waits d x rest) ∧ c = d.next := by
  constructor
  · intro h
    obtain ⟨k, hk, rfl⟩ := mem_cores.mp h
    obtain ⟨i, hi, hx, hk⟩ := (mem_items_successorDraft hs.nodup).mp hk
    exact ⟨i.core, mem_cores.mpr ⟨i, hi, rfl⟩,
      ⟨i.rest, (Item.waits_iff (hs.rules i hi)).mpr ⟨hx, rfl⟩⟩, Item.core_advance? hk⟩
  · rintro ⟨d, hd, ⟨rest, hw⟩, rfl⟩
    obtain ⟨i, hi, rfl, hx, -⟩ := hs.exists_item_of_waits hd hw
    obtain ⟨k, hk⟩ := Item.exists_advance? hx
    exact mem_cores.mpr ⟨k, (mem_items_successorDraft hs.nodup).mpr ⟨i, hi, hx, hk⟩,
      Item.core_advance? hk⟩

theorem itemSet_successorDraft (hs : s.Proper g) (x : Symbol) :
    (s.successorDraft x).itemSet = s.itemSet.advance g x := by
  refine ItemSet.ext (Set.ext fun c => mem_cores_successorDraft hs) (Set.ext fun ⟨c, y⟩ => ?_)
  constructor
  · intro h
    obtain ⟨k, hk, rfl, hy⟩ := mem_pairs.mp h
    obtain ⟨i, hi, hx, hk⟩ := (mem_items_successorDraft hs.nodup).mp hk
    refine ⟨i.core, mem_pairs.mpr ⟨i, hi, rfl, ?_⟩,
      ⟨i.rest, (Item.waits_iff (hs.rules i hi)).mpr ⟨hx, rfl⟩⟩, Item.core_advance? hk⟩
    rw [← (Item.advance?_eq_some.mp hk).2.2.2.1]
    exact hy
  · rintro ⟨d, hd, ⟨rest, hw⟩, he⟩
    obtain ⟨i, hi, rfl, hy⟩ := mem_pairs.mp hd
    obtain ⟨hx, -⟩ := (Item.waits_iff (hs.rules i hi)).mp hw
    obtain ⟨k, hk⟩ := Item.exists_advance? hx
    refine mem_pairs.mpr ⟨k, (mem_items_successorDraft hs.nodup).mpr ⟨i, hi, hx, hk⟩,
      (Item.core_advance? hk).trans he.symm, ?_⟩
    rw [(Item.advance?_eq_some.mp hk).2.2.2.1]
    exact hy

theorem cores_successorDraft_congr (hs : s.Proper g) (ht : t.Proper g) (h : s.cores = t.cores)
    (x : Symbol) : (s.successorDraft x).cores = (t.successorDraft x).cores := by
  refine (ascending_successorDraft hs.nodup x).eq_of_mem_iff
    (ascending_successorDraft ht.nodup x) fun c => ?_
  rw [mem_cores_successorDraft hs, mem_cores_successorDraft ht, h]

theorem dot_pos_of_mem_successorDraft (hs : s.Proper g) {c : Core}
    (hc : c ∈ (s.successorDraft x).cores) : 0 < c.dot := by
  obtain ⟨d, -, -, rfl⟩ := (mem_cores_successorDraft hs).mp hc
  exact Nat.succ_pos d.dot

theorem kernel_successorDraft (hs : s.Proper g) (hx : x ∈ s.nextSymbols) :
    Kernel (s.successorDraft x).cores := by
  rw [nextSymbols, OrderedSet.mem_ofList, List.mem_filterMap] at hx
  obtain ⟨i, hi, hx⟩ := hx
  obtain ⟨k, hk⟩ := Item.exists_advance? hx
  have hne : (s.successorDraft x).cores ≠ [] :=
    List.ne_nil_of_mem
      (mem_cores.mpr ⟨k, (mem_items_successorDraft hs.nodup).mpr ⟨i, hi, hx, hk⟩, rfl⟩)
  exact .inr ⟨hne, fun c hc => dot_pos_of_mem_successorDraft hs hc,
    ascending_successorDraft hs.nodup x⟩

theorem closed_successorDraft : (s.successorDraft x).closed = false := rfl

/-! ## Closed successors -/

/-- The closed state behind `x`. -/
def closedSuccessor (u : Setup) (s : State) (x : Symbol) : State := (s.successorDraft x).close u

theorem proper_closedSuccessor (hs : s.Proper u.grammar) (x : Symbol) :
    (s.closedSuccessor u x).Proper u.grammar :=
  proper_close (proper_successorDraft hs x)

theorem itemSet_closedSuccessor (hs : s.Proper u.grammar) (x : Symbol) :
    (s.closedSuccessor u x).itemSet = s.itemSet.successor u.grammar s.method.looksAhead x := by
  rw [closedSuccessor, itemSet_close (proper_successorDraft hs x) rfl, itemSet_successorDraft hs x]
  rfl

theorem cores_closedSuccessor_congr (hg : u.grammar = v.grammar) (hs : s.Proper u.grammar)
    (ht : t.Proper v.grammar) (h : s.cores = t.cores) (x : Symbol) :
    (s.closedSuccessor u x).cores = (t.closedSuccessor v x).cores := by
  refine cores_close_congr hg (proper_successorDraft hs x) (proper_successorDraft ht x) ?_ rfl rfl
  exact cores_successorDraft_congr hs (hg ▸ ht) h x

/-! ## States that come from kernels -/

/-- The list of cores is that of a closed kernel. -/
def FromKernel (u : Setup) (s : State) : Prop :=
  ∃ d : State, d.Proper u.grammar ∧ d.closed = false ∧ Kernel d.cores ∧ s.cores = (d.close u).cores

theorem fromKernel_closedSuccessor (hs : s.Proper u.grammar) (hx : x ∈ s.nextSymbols) :
    FromKernel u (s.closedSuccessor u x) :=
  ⟨s.successorDraft x, proper_successorDraft hs x, rfl, kernel_successorDraft hs hx, rfl⟩

/-- What a kernel has read is not touched by closing. -/
theorem mem_cores_of_dot_pos {d : State} (hd : d.closed = false) {c : Core}
    (hc : c ∈ (d.close u).cores) (hpos : 0 < c.dot) : c ∈ d.cores := by
  rcases (mem_cores_close hd).mp hc with h | ⟨q, -, -, rfl⟩
  · exact h
  · exact absurd hpos (Nat.lt_irrefl 0)

/-- A state that comes from a kernel has items. -/
theorem FromKernel.exists_core (h : s.FromKernel u) : ∃ c, c ∈ s.cores := by
  obtain ⟨d, -, hd, hk, hs⟩ := h
  have hsub {c : Core} (hc : c ∈ d.cores) : c ∈ s.cores := by
    rw [hs, mem_cores_close hd]
    exact .inl hc
  rcases hk with hk | ⟨hne, -, -⟩
  · exact ⟨⟨startId, 0⟩, hsub (by rw [hk]; exact List.mem_singleton_self _)⟩
  · obtain ⟨c, hc⟩ := List.exists_mem_of_ne_nil _ hne
    exact ⟨c, hsub hc⟩

/-- Drafts that close into the same cores have the same kernel. -/
theorem kernel_eq_of_close {d e : State} (hd : Kernel d.cores) (he : Kernel e.cores)
    (hdc : d.closed = false) (hec : e.closed = false)
    (h : ∀ c, c ∈ (d.close u).cores ↔ c ∈ (e.close v).cores) : d.cores = e.cores := by
  refine hd.eq_of_dot_pos he (fun c hc hpos => ?_) fun c hc hpos => ?_
  · exact mem_cores_of_dot_pos hec ((h c).mp ((mem_cores_close hdc).mpr (.inl hc))) hpos
  · exact mem_cores_of_dot_pos hdc ((h c).mpr ((mem_cores_close hec).mpr (.inl hc))) hpos

/-- States with the same cores have them in the same order. -/
theorem cores_eq_of_mem_iff (hg : u.grammar = v.grammar) (hs : FromKernel u s)
    (ht : FromKernel v t) (h : ∀ c, c ∈ s.cores ↔ c ∈ t.cores) : s.cores = t.cores := by
  obtain ⟨d, hd, hdc, hdk, hds⟩ := hs
  obtain ⟨e, he, hec, hek, het⟩ := ht
  have hcores : d.cores = e.cores :=
    kernel_eq_of_close hdk hek hdc hec fun c => by rw [← hds, h, het]
  rw [hds, het]
  exact cores_close_congr hg hd he hcores hdc hec

end State

end ShiftReduce
