import ShiftReduce.Proofs.Invariant

/-!
# Comparing states

States are compared item by item, in the order in which closing has left the items. That is as good
as comparing them as sets: a kernel is sorted, the order of what closing adds depends on the kernel
alone, and what has been read tells the kernel from what closing adds. So two states match if and
only if they come from the same kernel, and the start state, of which nothing has been read, matches
no successor.
-/

namespace ShiftReduce.State

/-- The state `s` comes from the draft `k`, the start or a successor: it has been closed, and since
then other states may have been merged into it, and its number and successors recorded. -/
inductive Obtained (u : Setup) : State → State → Prop where
  | start {d : State} (h : u.start u.config.method = .ok d) : Obtained u d (d.close u)
  | successor {k s d : State} {x : Symbol} (h : Obtained u k s) (hd : (x, d) ∈ s.successors) :
      Obtained u d (d.close u)
  | merge {k l s t m : State} {grew : Bool} (hs : Obtained u k s) (ht : Obtained u l t)
      (h : s.merge t = .ok (m, grew)) : Obtained u k m
  | number {k s : State} (h : Obtained u k s) (n : StateId) :
      Obtained u k { s with number := some n }
  | record {k s : State} (h : Obtained u k s) (x : Symbol) (target : StateId) :
      Obtained u k (s.assign x target)

/-- What the method compares, as a set: the cores and, in LR(1), the lookaheads of each. -/
def told (s : State) : Set (Core × Set Symbol) :=
  {p | ∃ i ∈ s.items, p = (i.core, {y | s.method = .lr1 ∧ y ∈ i.lookaheads})}

variable {u : Setup} {g : Grammar} {k l s t : State} {x : Symbol}

theorem cores_of_told_eq (h : s.told = t.told) {c : Core} (hc : c ∈ s.cores) : c ∈ t.cores := by
  obtain ⟨i, hi, rfl⟩ := mem_cores.mp hc
  have hmem : (i.core, {y | s.method = .lr1 ∧ y ∈ i.lookaheads}) ∈ s.told := ⟨i, hi, rfl⟩
  rw [h] at hmem
  obtain ⟨j, hj, he⟩ := hmem
  exact mem_cores.mpr ⟨j, hj, (Prod.mk.inj he).1.symm⟩

theorem lookaheads_of_told_eq (h : s.told = t.told) (h1 : s.method = .lr1) :
    s.itemSet.lookaheads ⊆ t.itemSet.lookaheads := by
  rintro ⟨c, y⟩ hp
  obtain ⟨i, hi, rfl, hy⟩ := mem_pairs.mp hp
  have hmem : (i.core, {y | s.method = .lr1 ∧ y ∈ i.lookaheads}) ∈ s.told := ⟨i, hi, rfl⟩
  rw [h] at hmem
  obtain ⟨j, hj, he⟩ := hmem
  obtain ⟨hcore, hla⟩ := Prod.mk.inj he
  have hyj : y ∈ {y | t.method = .lr1 ∧ y ∈ j.lookaheads} := hla ▸ ⟨h1, hy⟩
  exact mem_pairs.mpr ⟨j, hj, hcore.symm, hyj.2⟩

theorem told_subset (hs : s.Proper g) (ht : t.Proper g) (hm : s.method = t.method)
    (hc : ∀ c ∈ s.cores, c ∈ t.cores)
    (hla : s.method = .lr1 → s.itemSet.lookaheads = t.itemSet.lookaheads) : s.told ⊆ t.told := by
  rintro p ⟨i, hi, rfl⟩
  obtain ⟨j, hj, hcore⟩ := mem_cores.mp (hc _ (mem_cores.mpr ⟨i, hi, rfl⟩))
  refine ⟨j, hj, Prod.ext hcore.symm (Set.ext fun y => ?_)⟩
  rw [← hm]
  refine and_congr_right fun h1 => ?_
  rw [hs.mem_lookaheads_iff hi, ht.mem_lookaheads_iff hj, hcore, hla h1]

/-- Items of a grammar are told apart by their cores, so what is told is an item set. -/
theorem told_eq_iff (hs : s.Proper g) (ht : t.Proper g) (hm : s.method = t.method) :
    s.told = t.told ↔ (∀ c, c ∈ s.cores ↔ c ∈ t.cores) ∧
      (s.method = .lr1 → s.itemSet.lookaheads = t.itemSet.lookaheads) := by
  constructor
  · exact fun h => ⟨fun c => ⟨cores_of_told_eq h, cores_of_told_eq h.symm⟩, fun h1 =>
      (lookaheads_of_told_eq h h1).antisymm (lookaheads_of_told_eq h.symm (hm ▸ h1))⟩
  · rintro ⟨hc, hla⟩
    exact (told_subset hs ht hm (fun c => (hc c).mp) hla).antisymm
      (told_subset ht hs hm.symm (fun c => (hc c).mpr) fun h1 => (hla (hm.trans h1)).symm)

/-! ## States and their drafts -/

/-- What holds of a state that comes from the draft `k`. -/
structure Formed (u : Setup) (k s : State) : Prop where
  draft : k.Proper u.grammar
  opened : k.closed = false
  draftMethod : k.method = u.config.method
  /-- Nothing has been read, or something of every item. -/
  begins : u.start u.config.method = .ok k ∨ ∀ c ∈ k.cores, 0 < c.dot
  kernel : Kernel k.cores
  proper : s.Proper u.grammar
  method : s.method = u.config.method
  cores : s.cores = (k.close u).cores
  lookaheads : u.config.method = .lr1 → s.itemSet.lookaheads = (k.close u).itemSet.lookaheads

theorem formed_close (hk : k.Proper u.grammar) (hopen : k.closed = false)
    (hm : k.method = u.config.method)
    (hbegins : u.start u.config.method = .ok k ∨ ∀ c ∈ k.cores, 0 < c.dot)
    (hkernel : Kernel k.cores) : Formed u k (k.close u) :=
  ⟨hk, hopen, hm, hbegins, hkernel, proper_close hk, method_close.trans hm, rfl, fun _ => rfl⟩

theorem formed_start (h : u.start u.config.method = .ok k) : Formed u k (k.close u) := by
  have hk := proper_start h
  obtain ⟨r, hr, rfl⟩ := start_eq_ok h
  exact formed_close hk rfl rfl (.inl h)
    (.inl (congrArg (fun id => [Core.mk id 0]) (Grammar.startRule_eq_ok_iff.mp hr).2))

theorem Formed.successor (h : Formed u k s) (hl : (x, l) ∈ s.successors) :
    Formed u l (l.close u) := by
  rw [successors_eq] at hl
  obtain ⟨y, hy, he⟩ := List.mem_map.mp hl
  obtain ⟨rfl, rfl⟩ := Prod.mk.inj he
  exact formed_close (proper_successorDraft h.proper y) rfl h.method
    (.inr fun c hc => dot_pos_of_mem_successorDraft h.proper hc) (kernel_successorDraft h.proper hy)

/-- In LR(1) states that match have the same lookaheads, so merging changes nothing. -/
theorem Formed.merge {m : State} {grew : Bool} (hs : Formed u k s) (ht : Formed u l t)
    (h : s.merge t = .ok (m, grew)) : Formed u k m := by
  obtain ⟨hmergeable, rfl, -⟩ := merge_eq_ok_iff.mp h
  have halike := (mergeable_iff hs.proper.nodup (hs.method.trans ht.method.symm)).mp hmergeable
  refine { hs with
    proper := proper_absorb hs.proper halike.1
    cores := (cores_absorb halike.1).trans hs.cores
    lookaheads := fun h1 => ?_ }
  rw [lookaheads_absorb halike.1, ← halike.2 (hs.method.trans h1), Set.union_self,
    hs.lookaheads h1]

theorem Obtained.formed (h : Obtained u k s) : Formed u k s := by
  induction h with
  | start h => exact formed_start h
  | successor _ hd ih => exact ih.successor hd
  | merge _ _ h ihs iht => exact ihs.merge iht h
  | number _ n ih => exact { ih with proper := ⟨ih.proper.rules, ih.proper.nodup⟩ }
  | record _ x target ih =>
    exact { ih with
      proper := proper_assign ih.proper
      cores := cores_assign.trans ih.cores
      lookaheads := fun h1 => by rw [itemSet_assign, ih.lookaheads h1] }

/-! ## Matching states -/

theorem Formed.fromKernel (h : Formed u k s) : s.FromKernel u :=
  ⟨k, h.draft, h.opened, h.kernel, h.cores⟩

theorem Formed.mergeable_iff (hs : Formed u k s) (ht : Formed u l t) :
    s.mergeable t = true ↔ s.Alike t :=
  State.mergeable_iff hs.proper.nodup (hs.method.trans ht.method.symm)

/-- What has been read keeps the lookaheads that it had in the draft. -/
theorem mem_lookaheads_of_dot_pos (hk : k.Proper u.grammar) (hopen : k.closed = false) {c : Core}
    {y : Symbol} (hpos : 0 < c.dot) (h : (c, y) ∈ (k.close u).itemSet.lookaheads) :
    (c, y) ∈ k.itemSet.lookaheads := by
  rw [itemSet_close hk hopen, ItemSet.mem_lookaheads_closure] at h
  cases h with
  | given h => exact h
  | first => exact absurd hpos (Nat.lt_irrefl 0)
  | pass => exact absurd hpos (Nat.lt_irrefl 0)

theorem lookaheads_subset_of_close (hk : k.Proper u.grammar) (hl : l.Proper u.grammar)
    (hopen : k.closed = false) (hopen' : l.closed = false) (hpos : ∀ c ∈ k.cores, 0 < c.dot)
    (h : (k.close u).itemSet.lookaheads ⊆ (l.close u).itemSet.lookaheads) :
    k.itemSet.lookaheads ⊆ l.itemSet.lookaheads := by
  rintro ⟨c, y⟩ hp
  have hc : c ∈ k.cores := by
    obtain ⟨i, hi, rfl, -⟩ := mem_pairs.mp hp
    exact mem_cores.mpr ⟨i, hi, rfl⟩
  refine mem_lookaheads_of_dot_pos hl hopen' (hpos c hc) (h ?_)
  rw [itemSet_close hk hopen]
  exact .given hp

theorem not_dot_pos_of_start (h : u.start u.config.method = .ok k) :
    ¬∀ c ∈ k.cores, 0 < c.dot := by
  obtain ⟨r, -, rfl⟩ := start_eq_ok h
  exact fun hpos => absurd (hpos ⟨r.id, 0⟩ (List.mem_singleton_self _)) (Nat.lt_irrefl 0)

namespace Formed

theorem cores_draft_eq (hs : Formed u k s) (ht : Formed u l t) (h : s.cores = t.cores) :
    k.cores = l.cores :=
  kernel_eq_of_close hs.kernel ht.kernel hs.opened ht.opened fun c => by
    rw [← hs.cores, ← ht.cores, h]

/-- States that match come from the same kernel. -/
theorem told_draft_eq (hs : Formed u k s) (ht : Formed u l t) (h : s.Alike t) :
    k.told = l.told := by
  have hcores := hs.cores_draft_eq ht h.1
  rcases hs.begins with hstart | hpos
  · rcases ht.begins with hstart' | hpos
    · rw [Except.ok.inj (hstart.symm.trans hstart')]
    · exact absurd (hcores ▸ hpos) (not_dot_pos_of_start hstart)
  · have hclosed (h1 : u.config.method = .lr1) :
        (k.close u).itemSet.lookaheads = (l.close u).itemSet.lookaheads := by
      rw [← hs.lookaheads h1, ← ht.lookaheads h1, h.2 (hs.method.trans h1)]
    refine (told_eq_iff hs.draft ht.draft (hs.draftMethod.trans ht.draftMethod.symm)).mpr
      ⟨fun c => by rw [hcores], fun h1 => Set.Subset.antisymm ?_ ?_⟩
    · exact lookaheads_subset_of_close hs.draft ht.draft hs.opened ht.opened hpos
        (hclosed (hs.draftMethod.symm.trans h1)).subset
    · exact lookaheads_subset_of_close ht.draft hs.draft ht.opened hs.opened (hcores ▸ hpos)
        (hclosed (hs.draftMethod.symm.trans h1)).superset

/-- States that come from the same kernel match. -/
theorem alike_of_told_draft_eq (hs : Formed u k s) (ht : Formed u l t) (h : k.told = l.told) :
    s.Alike t := by
  have hm : k.method = l.method := hs.draftMethod.trans ht.draftMethod.symm
  obtain ⟨hmem, hla⟩ := (told_eq_iff hs.draft ht.draft hm).mp h
  have hcores : k.cores = l.cores :=
    hs.kernel.eq_of_dot_pos ht.kernel (fun c hc _ => (hmem c).mp hc) fun c hc _ => (hmem c).mpr hc
  refine ⟨?_, fun h1 => ?_⟩
  · rw [hs.cores, ht.cores]
    exact cores_close_congr rfl hs.draft ht.draft hcores hs.opened ht.opened
  · have h1 : u.config.method = .lr1 := hs.method.symm.trans h1
    have hset : k.itemSet = l.itemSet :=
      ItemSet.ext (itemSet_cores_eq hcores) (hla (hs.draftMethod.trans h1))
    rw [hs.lookaheads h1, ht.lookaheads h1, itemSet_close hs.draft hs.opened,
      itemSet_close ht.draft ht.opened, hset, hm]

theorem told_eq_iff_alike (hs : Formed u k s) (ht : Formed u l t) :
    s.told = t.told ↔ s.Alike t := by
  rw [told_eq_iff hs.proper ht.proper (hs.method.trans ht.method.symm), Alike]
  refine and_congr_left fun _ => ⟨fun h => ?_, fun h c => by rw [h]⟩
  exact cores_eq_of_mem_iff rfl hs.fromKernel ht.fromKernel h

end Formed

/-- Comparing states item by item is comparing them as sets. -/
structure ComparesExactly (u : Setup) : Prop where
  kernels : ∀ k l s t, Obtained u k s → Obtained u l t →
    (s.mergeable t = true ↔ k.told = l.told)
  items : ∀ k l s t, Obtained u k s → Obtained u l t →
    (s.mergeable t = true ↔ s.told = t.told)
  /-- The start state matches no successor of any state. -/
  start : ∀ d s k r x e t, u.start u.config.method = .ok d → Obtained u d s → Obtained u k r →
    (x, e) ∈ r.successors → Obtained u e t → s.mergeable t = false ∧ t.mergeable s = false

theorem comparesExactly (u : Setup) : ComparesExactly u where
  kernels k l s t hs ht := by
    rw [hs.formed.mergeable_iff ht.formed]
    exact ⟨hs.formed.told_draft_eq ht.formed, hs.formed.alike_of_told_draft_eq ht.formed⟩
  items k l s t hs ht := by
    rw [hs.formed.mergeable_iff ht.formed, hs.formed.told_eq_iff_alike ht.formed]
  start d s k r x e t hd hs hr he ht := by
    have hne : ¬s.cores = t.cores := by
      intro hc
      have hcores := hs.formed.cores_draft_eq ht.formed hc
      refine not_dot_pos_of_start hd fun c hmem => ?_
      rw [hcores] at hmem
      rw [successors_eq] at he
      obtain ⟨y, -, he⟩ := List.mem_map.mp he
      obtain ⟨-, rfl⟩ := Prod.mk.inj he
      exact dot_pos_of_mem_successorDraft hr.formed.proper hmem
    refine ⟨Bool.eq_false_iff.mpr fun h => hne (cores_eq_of_mergeable h),
      Bool.eq_false_iff.mpr fun h => hne (cores_eq_of_mergeable h).symm⟩

/-- The rules `START ::= S`, `S ::= a START` and `S ::= b`. -/
def repeatedEdits : List Edit :=
  [.addRule ⟨startName, [.intermediate "S"], ""⟩,
    .addRule ⟨"S", [.terminal "a", .intermediate startName], ""⟩,
    .addRule ⟨"S", [.terminal "b"], ""⟩]

/-- The state behind `a` has all items of the start state and one more. It matches the state behind
another `a`, which comes from the same kernel. -/
theorem comparesExactly_repeated : ∃ d,
    (Setup.new (.ofEdits repeatedEdits) ⟨.lr1, "EOI"⟩).start .lr1 = .ok d ∧
      (d.close (.new (.ofEdits repeatedEdits) ⟨.lr1, "EOI"⟩)).mergeable
        ((d.close (.new (.ofEdits repeatedEdits) ⟨.lr1, "EOI"⟩)).closedSuccessor
          (.new (.ofEdits repeatedEdits) ⟨.lr1, "EOI"⟩) (.terminal "a")) = false ∧
      ((d.close (.new (.ofEdits repeatedEdits) ⟨.lr1, "EOI"⟩)).successorDraft
        (.terminal "a")).told =
          (((d.close (.new (.ofEdits repeatedEdits) ⟨.lr1, "EOI"⟩)).closedSuccessor
            (.new (.ofEdits repeatedEdits) ⟨.lr1, "EOI"⟩) (.terminal "a")).successorDraft
              (.terminal "a")).told := by
  generalize hu : Setup.new (.ofEdits repeatedEdits) ⟨.lr1, "EOI"⟩ = u
  have hm : u.config.method = .lr1 := by rw [← hu]; rfl
  have hrun : (u.start .lr1).map (fun d =>
      let s := (d.close u).closedSuccessor u (.terminal "a")
      (decide (.terminal "a" ∈ (d.close u).nextSymbols), decide (.terminal "a" ∈ s.nextSymbols),
        s.mergeable (s.closedSuccessor u (.terminal "a")))) = .ok (true, true, true) := by
    rw [← hu]
    decide +kernel
  obtain ⟨d, hd, hrun⟩ := exists_of_map_eq_ok hrun
  obtain ⟨hfirst, hrun⟩ := Prod.mk.inj hrun
  obtain ⟨hsecond, hmergeable⟩ := Prod.mk.inj hrun
  have hmem {s : State} (hx : .terminal "a" ∈ s.nextSymbols) :
      (.terminal "a", s.successorDraft (.terminal "a")) ∈ s.successors := by
    rw [successors_eq]
    exact List.mem_map.mpr ⟨_, hx, rfl⟩
  have hstart : u.start u.config.method = .ok d := by rw [hm, hd]
  have hone := hmem (of_decide_eq_true hfirst)
  have htwo := hmem (of_decide_eq_true hsecond)
  have hs : Obtained u _ ((d.close u).closedSuccessor u (.terminal "a")) :=
    .successor (.start hstart) hone
  refine ⟨d, hd, ?_, ?_⟩
  · exact ((comparesExactly u).start _ _ _ _ _ _ _ hstart (.start hstart) (.start hstart) hone hs).1
  · exact ((comparesExactly u).kernels _ _ _ _ hs (.successor hs htwo)).mp hmergeable

end ShiftReduce.State
