import ShiftReduce.Proofs.Filling
import ShiftReduce.Proofs.Merging

/-!
# Merging closed states

A state that lookaheads have been merged into is not closed again. It need not be: whatever a
closure holds comes from one core or one lookahead of the draft, so closing two drafts and merging
the closures gives what uniting the lookaheads of the drafts and closing once gives. Merging changes
nothing but lookaheads, and it tells whether they grew.
-/

namespace ShiftReduce.State

variable {u : Setup} {g : Grammar} {s t m : State} {grew : Bool} {n : Nat} {y : Symbol}

/-! ## Closing again -/

/-- The draft that has the items of `s`. -/
def reopened (s : State) : State := { s with closed := false }

theorem Proper.reopened (h : s.Proper g) : s.reopened.Proper g := ⟨h.rules, h.nodup⟩

theorem itemSet_close_reopened (hs : s.Proper u.grammar) :
    (s.reopened.close u).itemSet = s.itemSet.closure u.grammar s.method.looksAhead :=
  itemSet_close hs.reopened rfl

/-- A closed state that closing its items again would not change. -/
structure Saturated (u : Setup) (s : State) : Prop where
  proper : s.Proper u.grammar
  closed : s.closed = true
  again : s.reopened.close u = s

theorem Saturated.closure_itemSet (h : Saturated u s) :
    s.itemSet.closure u.grammar s.method.looksAhead = s.itemSet := by
  rw [← itemSet_close_reopened h.proper, h.again]

/-- The lookaheads that closing again finds for an item are its own. -/
theorem adjust_reopened (hs : s.Proper u.grammar)
    (hclosure : s.itemSet.closure u.grammar s.method.looksAhead = s.itemSet) {i : Item}
    (hi : i ∈ s.items) : adjust u (s.reopened.expansions u) i = i := by
  have hrule := hs.rules i hi
  have hsub : ∀ y ∈ (adjust u (s.reopened.expansions u) i).lookaheads, y ∈ i.lookaheads := by
    intro y hy
    have hmem : adjust u (s.reopened.expansions u) i ∈ (s.reopened.close u).items :=
      (mem_items_close rfl).mpr (.inl ⟨i, hi, rfl⟩)
    rw [(proper_close hs.reopened).mem_lookaheads_iff hmem, core_adjust,
      itemSet_close_reopened hs, hclosure] at hy
    exact (hs.mem_lookaheads_iff hi).mpr hy
  by_cases hd : i.dot = 0
  · have hunite : adjust u (s.reopened.expansions u) i =
        i.unite ((s.reopened.expansions u).get i.rule.left) := by
      rw [adjust, if_pos hd, Grammar.rule_id hrule]
    rw [hunite, Item.unite, OrderedSet.union_of_subset]
    exact fun y hy => hsub y ((mem_adjust hrule).mpr (.inr ⟨hd, hy⟩))
  · rw [adjust, if_neg hd]

/-- A closed state that holds what its items ask for is the closure of these items. -/
theorem saturated_of_closure (hs : s.Proper u.grammar) (hclosed : s.closed = true)
    (hclosure : s.itemSet.closure u.grammar s.method.looksAhead = s.itemSet) :
    Saturated u s := by
  refine ⟨hs, hclosed, ?_⟩
  have hadded : (s.reopened.expansions u).keys.toList.flatMap
      (added u s.reopened.begun (s.reopened.expansions u)) = [] := by
    refine List.flatMap_eq_nil_iff.mpr fun name hname => List.map_eq_nil_iff.mpr ?_
    refine List.filter_eq_nil_iff.mpr fun q hq => ?_
    rw [u.alternatives_eq, Grammar.mem_alternatives] at hq
    obtain ⟨hq, rfl⟩ := hq
    have hcore : ⟨q.id, 0⟩ ∈ (s.reopened.close u).itemSet.cores :=
      (mem_cores_close rfl).mpr (.inr ⟨q, hq, hname, rfl⟩)
    rw [itemSet_close_reopened hs, hclosure] at hcore
    have hbegun : q.id ∈ s.reopened.begun := mem_begun hcore
    simpa using hbegun
  have hitems : (s.reopened.close u).items = s.items := by
    rw [items_close rfl, hadded, List.append_nil]
    exact (List.map_congr_left fun i hi => adjust_reopened hs hclosure hi).trans (List.map_id _)
  have hclose : s.reopened.close u =
      { s with items := (s.reopened.close u).items, closed := true } := rfl
  rw [hclose, hitems, ← hclosed]

theorem saturated_close (hs : s.Proper u.grammar) (hopen : s.closed = false) :
    Saturated u (s.close u) := by
  refine saturated_of_closure (proper_close hs) closed_close ?_
  rw [itemSet_close hs hopen, method_close]
  exact ItemSet.closure_closure

/-! ## Merging -/

/-- Merging `t` into `s` gives `m`, and `grew` tells whether an item of `m` has more lookaheads than
the one of `s` had. -/
structure Merged (s t m : State) (grew : Bool) : Prop where
  method : m.method = s.method
  number : m.number = s.number
  closed : m.closed = s.closed
  kept : m.items.map (fun i => (i.rule, i.dot, i.next)) =
    s.items.map fun i => (i.rule, i.dot, i.next)
  lookaheads : ∀ (n : Nat) (i j k : Item), s.items[n]? = some i → t.items[n]? = some j →
    m.items[n]? = some k → ∀ y, y ∈ k.lookaheads ↔ y ∈ i.lookaheads ∨ y ∈ j.lookaheads
  grew : grew = true ↔ ∃ (n : Nat) (i k : Item), s.items[n]? = some i ∧ m.items[n]? = some k ∧
    ∃ y ∈ k.lookaheads, y ∉ i.lookaheads

theorem getElem?_absorb {i j : Item} (hi : s.items[n]? = some i) (hj : t.items[n]? = some j) :
    (s.absorb t).items[n]? = some (i.unite j.lookaheads) := by
  rw [absorb, List.getElem?_zipWith, hi, hj]

/-- The count rises only if some set of lookaheads grows. -/
theorem lookaheadCount_lt_absorb_iff (hlen : s.items.length = t.items.length) :
    s.lookaheadCount < (s.absorb t).lookaheadCount ↔
      ∃ p ∈ s.items.zip t.items, ∃ y ∈ p.2.lookaheads, y ∉ p.1.lookaheads := by
  have hitems : (s.items.zip t.items).map Prod.fst = s.items :=
    List.map_fst_zip hlen.le
  have hcount : s.lookaheadCount =
      ((s.items.zip t.items).map fun p => p.1.lookaheads.size).sum := by
    rw [lookaheadCount_eq_sum]
    conv_lhs => rw [← hitems, List.map_map]
    rfl
  have hcount' : (s.absorb t).lookaheadCount =
      ((s.items.zip t.items).map fun p => (p.1.lookaheads.union p.2.lookaheads).size).sum := by
    rw [lookaheadCount_eq_sum, absorb, ← List.map_uncurry_zip_eq_zipWith, List.map_map]
    rfl
  rw [hcount, hcount']
  constructor
  · intro hlt
    obtain ⟨p, hp, hlt⟩ := List.exists_lt_of_sum_lt _ _ hlt
    exact ⟨p, hp, OrderedSet.size_lt_size_union_iff.mp hlt⟩
  · rintro ⟨p, hp, hgained⟩
    refine List.sum_lt_sum _ _ (fun q _ => (OrderedSet.grows_union _ _).le) ⟨p, hp, ?_⟩
    exact OrderedSet.size_lt_size_union_iff.mpr hgained

theorem mem_items_absorb {k : Item} (h : k ∈ (s.absorb t).items) :
    ∃ i ∈ s.items, ∃ j ∈ t.items, k = i.unite j.lookaheads := by
  rw [absorb, ← List.map_uncurry_zip_eq_zipWith] at h
  obtain ⟨⟨i, j⟩, hij, rfl⟩ := List.mem_map.mp h
  obtain ⟨hi, hj⟩ := List.of_mem_zip hij
  exact ⟨i, hi, j, hj, rfl⟩

/-- Where the count does not rise nothing has changed. -/
theorem absorb_eq_of_count (hlen : s.items.length = t.items.length)
    (h : ¬s.lookaheadCount < (s.absorb t).lookaheadCount) : s.absorb t = s := by
  have hitems : ∀ p ∈ s.items.zip t.items, p.1.unite p.2.lookaheads = p.1 := by
    intro p hp
    rw [Item.unite, OrderedSet.union_of_subset fun y hy => by_contra fun hnot =>
      h ((lookaheadCount_lt_absorb_iff hlen).mpr ⟨p, hp, y, hy, hnot⟩)]
  have hfst : s.items.zipWith (fun i j => i.unite j.lookaheads) t.items = s.items := by
    rw [← List.map_uncurry_zip_eq_zipWith]
    exact (List.map_congr_left hitems).trans (List.map_fst_zip hlen.le)
  rw [absorb, hfst]

theorem added_absorb (hn : s.cores.Nodup) (h : s.cores = t.cores) :
    Added s (s.absorb t) (decide (s.lookaheadCount < (s.absorb t).lookaheadCount)) := by
  have hlen := Alike.length_eq h
  have hlength : (s.absorb t).items.length = s.items.length := by
    simp [absorb, hlen]
  have hweight : s.weight < (s.absorb t).weight ↔
      s.lookaheadCount < (s.absorb t).lookaheadCount := by
    rw [weight, weight, hlength, Nat.add_lt_add_iff_left]
  refine ⟨rfl, rfl, by rwa [cores_absorb h], ?_, by rw [decide_eq_true_iff, hweight]⟩
  by_cases hlt : s.lookaheadCount < (s.absorb t).lookaheadCount
  · exact .inr (hweight.mpr hlt)
  · exact .inl (absorb_eq_of_count hlen hlt).symm

theorem Orderly.merge (hs : s.Orderly) (ht : t.Orderly) (h : s.merge t = .ok (m, grew)) :
    m.Orderly := by
  obtain ⟨hmergeable, rfl, -⟩ := merge_eq_ok_iff.mp h
  have hm := (mergeable_iff_getElem.mp hmergeable).1
  refine ⟨(added_absorb hs.nodup (cores_eq_of_mergeable hmergeable)).nodup, fun k hk => ?_⟩
  obtain ⟨i, hi, j, hj, rfl⟩ := mem_items_absorb hk
  exact carried_union (hs.carries i hi) (hm ▸ ht.carries j hj)

theorem merged_of_merge (h : s.merge t = .ok (m, grew)) : Merged s t m grew := by
  obtain ⟨hmergeable, rfl, rfl⟩ := merge_eq_ok_iff.mp h
  have hc := cores_eq_of_mergeable hmergeable
  have hlen := Alike.length_eq hc
  refine ⟨rfl, rfl, rfl, map_absorb (fun _ _ => rfl) hc, fun n i j k hi hj hk y => ?_, ?_⟩
  · rw [getElem?_absorb hi hj] at hk
    obtain rfl := Option.some.inj hk
    exact OrderedSet.mem_union
  · rw [decide_eq_true_iff, lookaheadCount_lt_absorb_iff hlen]
    constructor
    · rintro ⟨⟨i, j⟩, hp, y, hy, hnot⟩
      obtain ⟨n, hn⟩ := List.mem_iff_getElem?.mp hp
      obtain ⟨hi, hj⟩ := List.getElem?_zip_eq_some.mp hn
      exact ⟨n, i, _, hi, getElem?_absorb hi hj, y, OrderedSet.mem_union.mpr (.inr hy), hnot⟩
    · rintro ⟨n, i, k, hi, hk, y, hy, hnot⟩
      obtain ⟨hn, -⟩ := List.getElem?_eq_some_iff.mp hi
      have hj := List.getElem?_eq_getElem (hlen ▸ hn : n < t.items.length)
      rw [getElem?_absorb hi hj] at hk
      obtain rfl := Option.some.inj hk
      have hmem : (i, t.items[n]) ∈ s.items.zip t.items :=
        List.mem_iff_getElem?.mpr ⟨n, List.getElem?_zip_eq_some.mpr ⟨hi, hj⟩⟩
      exact ⟨_, hmem, y, (OrderedSet.mem_union.mp hy).resolve_left hnot, hnot⟩

/-- A state that is merged from saturated ones is saturated. -/
theorem Saturated.merge (hs : Saturated u s) (ht : Saturated u t)
    (h : s.merge t = .ok (m, grew)) : Saturated u m := by
  obtain ⟨hmergeable, rfl, -⟩ := merge_eq_ok_iff.mp h
  have hc := cores_eq_of_mergeable hmergeable
  have hmethod : t.method = s.method := (mergeable_iff_getElem.mp hmergeable).1.symm
  have hsclosure := hs.closure_itemSet
  have htclosure := ht.closure_itemSet
  rw [hmethod] at htclosure
  refine saturated_of_closure (proper_absorb hs.proper hc) hs.closed ?_
  change (s.absorb t).itemSet.closure u.grammar s.method.looksAhead = _
  rw [itemSet_absorb hc, ItemSet.closure_union, hsclosure, htclosure]

/-! ## Closing goes with merging -/

/-- The rules and dots agree place by place, and so do the lookaheads. -/
structure Agrees (s t : State) : Prop where
  dotted : s.dotted = t.dotted
  lookaheads : ∀ (n : Nat) (i j : Item), s.items[n]? = some i → t.items[n]? = some j →
    ∀ y, y ∈ i.lookaheads ↔ y ∈ j.lookaheads

theorem agrees_of_lookaheads (hs : s.Proper g) (ht : t.Proper g) (hc : s.cores = t.cores)
    (hla : s.itemSet.lookaheads = t.itemSet.lookaheads) : s.Agrees t := by
  refine ⟨aligned_of_cores_eq hs ht hc, fun n i j hi hj y => ?_⟩
  obtain ⟨hn, rfl⟩ := List.getElem?_eq_some_iff.mp hi
  obtain ⟨hn', rfl⟩ := List.getElem?_eq_some_iff.mp hj
  rw [← mem_pairs_getElem hs.nodup hn, ← mem_pairs_getElem ht.nodup hn', core_getElem_eq hc hn hn']
  exact Set.ext_iff.mp hla _

/-- Whether the lookaheads of two drafts are united before they are closed or after makes no
difference. -/
theorem agrees_absorb_close (hs : s.Proper u.grammar) (ht : t.Proper u.grammar)
    (hopen : s.closed = false) (hopen' : t.closed = false) (hm : s.method = t.method)
    (hc : s.cores = t.cores) :
    ((s.close u).absorb (t.close u)).Agrees ((s.absorb t).close u) := by
  have hcores : (s.close u).cores = (t.close u).cores :=
    cores_close_congr rfl hs ht hc hopen hopen'
  have hdraft : (s.absorb t).Proper u.grammar := proper_absorb hs hc
  refine agrees_of_lookaheads (proper_absorb (proper_close hs) hcores) (proper_close hdraft) ?_ ?_
  · rw [cores_absorb hcores]
    exact cores_close_congr rfl hs hdraft (cores_absorb hc).symm hopen hopen
  · rw [itemSet_close hdraft hopen, itemSet_absorb hc, itemSet_absorb hcores,
      itemSet_close hs hopen, itemSet_close ht hopen', ← hm, ← ItemSet.closure_union]
    rfl

/-- What merging does to states, whether they are closed or not. -/
structure MergesExactly (u : Setup) : Prop where
  merged : ∀ s t m grew, s.merge t = .ok (m, grew) → Merged s t m grew
  /-- LALR(1) drafts with the same cores can be merged, and so can the states they are closed to. -/
  closes : ∀ s t, Filled u.grammar .lalr1 s → Filled u.grammar .lalr1 t → s.cores = t.cores →
    ∃ d m grew grew', s.merge t = .ok (d, grew) ∧
      (s.close u).merge (t.close u) = .ok (m, grew') ∧ m.Agrees (d.close u) ∧ Saturated u m
  /-- What is merged again and again stays saturated. -/
  saturated : ∀ s t m grew, Saturated u s → Saturated u t → s.merge t = .ok (m, grew) →
    Saturated u m

theorem exists_merge_of_cores_eq (hs : s.Proper g) (hm : s.method = t.method)
    (hlr : s.method ≠ .lr1) (hc : s.cores = t.cores) : ∃ grew, s.merge t = .ok (s.absorb t, grew) :=
  ⟨_, merge_eq_ok_iff.mpr
    ⟨(mergeable_iff hs.nodup hm).mpr ⟨hc, fun h1 => absurd h1 hlr⟩, rfl, rfl⟩⟩

theorem mergesExactly (u : Setup) : MergesExactly u where
  merged _ _ _ _ h := merged_of_merge h
  saturated _ _ _ _ hs ht h := hs.merge ht h
  closes s t hs ht hc := by
    have hm : s.method = t.method := hs.method.trans ht.method.symm
    have hlr : s.method ≠ .lr1 := by
      rw [hs.method]
      decide
    have hcores : (s.close u).cores = (t.close u).cores :=
      cores_close_congr rfl hs.proper ht.proper hc hs.opened ht.opened
    obtain ⟨grew, hd⟩ := exists_merge_of_cores_eq hs.proper hm hlr hc
    obtain ⟨grew', hmerge⟩ := exists_merge_of_cores_eq (proper_close hs.proper)
      (method_close.trans (hm.trans method_close.symm)) (by rwa [method_close]) hcores
    refine ⟨_, _, grew, grew', hd, hmerge, ?_, ?_⟩
    · exact agrees_absorb_close hs.proper ht.proper hs.opened ht.opened hm hc
    · exact (saturated_close hs.proper hs.opened).merge (saturated_close ht.proper ht.opened) hmerge

/-- The items of `leftAdditions` with other lookaheads. -/
def rightAdditions : List Addition :=
  [⟨⟨⟨"A", [.terminal "b", .intermediate "S"], ""⟩, 5⟩, 1, .ofList [.terminal "d"]⟩,
    ⟨⟨⟨"S", [.intermediate "A"], ""⟩, 3⟩, 0, .ofList [.terminal "EOI"]⟩]

/-- The first draft brings `c` for its second item and the other one `d` for the first, and both get
from there to the items that closing adds. -/
theorem mergesExactly_left : ∃ d m grew grew',
    ((draft .lalr1).fill leftAdditions).merge ((draft .lalr1).fill rightAdditions) = .ok (d, grew) ∧
      (((draft .lalr1).fill leftAdditions).close (.new (.ofEdits leftEdits) ⟨.lalr1, "EOI"⟩)).merge
        (((draft .lalr1).fill rightAdditions).close (.new (.ofEdits leftEdits) ⟨.lalr1, "EOI"⟩)) =
          .ok (m, grew') ∧
      m.Agrees (d.close (.new (.ofEdits leftEdits) ⟨.lalr1, "EOI"⟩)) ∧
      Saturated (.new (.ofEdits leftEdits) ⟨.lalr1, "EOI"⟩) m ∧ grew' = true ∧
      m.items.map Item.text = ["A ::= b • S, EOI/d", "S ::= • A, c/EOI/b/a/d",
        "S ::= • S A a, EOI/b/a/d", "A ::= •, c/EOI/b/a/d", "A ::= • b S, c/EOI/b/a/d"] := by
  have hleft : ∀ a ∈ leftAdditions, a.rule ∈ (Grammar.ofEdits leftEdits).rules := by
    decide +kernel
  have hright : ∀ a ∈ rightAdditions, a.rule ∈ (Grammar.ofEdits leftEdits).rules := by
    decide +kernel
  have hcores : ((draft .lalr1).fill leftAdditions).cores =
      ((draft .lalr1).fill rightAdditions).cores := by
    decide +kernel
  have htext : ((((draft .lalr1).fill leftAdditions).close
      (.new (.ofEdits leftEdits) ⟨.lalr1, "EOI"⟩)).merge
        (((draft .lalr1).fill rightAdditions).close
          (.new (.ofEdits leftEdits) ⟨.lalr1, "EOI"⟩))).map
            (fun p => (p.2, p.1.items.map Item.text)) = .ok (true, ["A ::= b • S, EOI/d",
              "S ::= • A, c/EOI/b/a/d", "S ::= • S A a, EOI/b/a/d", "A ::= •, c/EOI/b/a/d",
              "A ::= • b S, c/EOI/b/a/d"]) := by
    decide +kernel
  obtain ⟨d, m, grew, grew', hd, hm, hagree, hsaturated⟩ :=
    (mergesExactly (.new (.ofEdits leftEdits) ⟨.lalr1, "EOI"⟩)).closes _ _
      (filled_fill .lalr1 hleft) (filled_fill .lalr1 hright) hcores
  rw [hm] at htext
  obtain ⟨hgrew, htext⟩ := Prod.mk.inj (Except.ok.inj htext)
  exact ⟨d, m, grew, grew', hd, hm, hagree, hsaturated, hgrew, htext⟩

end ShiftReduce.State
