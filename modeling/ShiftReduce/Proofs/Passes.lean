import ShiftReduce.Grammar.Passes
import ShiftReduce.Proofs.FirstSets

/-!
# Loops over the rules come to an end

A loop of passes ends if each step shows what it adds in a weight that has a bound. What can be seen
of the result does not depend on how the passes are counted: it is what the repeated pass settles on.
So the unbounded loops find the same nullable intermediates and the same FIRST sets as the bounded
ones, and these are exact.
-/

namespace ShiftReduce

universe u v w

/-! ## Passes -/

namespace Pass

variable {α : Type u} {β : Type v} {γ : Type w}

/-- A step shows in the weight whether it changes what can be seen of a value, and what it changes
depends on nothing else. -/
structure Adds (weight : α → Nat) (see : α → γ) (step : α → β → α) : Prop where
  le : ∀ a b, weight a ≤ weight (step a b)
  see_eq : ∀ a b, weight (step a b) ≤ weight a → see (step a b) = see a
  see_congr : ∀ a a' b, see a = see a' → see (step a b) = see (step a' b)

namespace Adds

variable {weight : α → Nat} {see : α → γ} {step : α → β → α} {a b : α}

theorem le_foldl (h : Adds weight see step) (l : List β) (a : α) :
    weight a ≤ weight (l.foldl step a) := by
  induction l generalizing a with
  | nil => exact Nat.le_refl _
  | cons b l ih => exact (h.le a b).trans (ih (step a b))

/-- A pass notes a change exactly if the value weighs more at its end. -/
theorem foldl_make (h : Adds weight see step) (l : List β) (p : Pass α) :
    l.foldl (make weight step) p = ⟨l.foldl step p.value,
      p.changed || decide (weight p.value < weight (l.foldl step p.value))⟩ := by
  induction l generalizing p with
  | nil => simp
  | cons b l ih =>
    have hfirst := h.le p.value b
    have hrest := h.le_foldl l (step p.value b)
    have hflag : (decide (weight p.value < weight (step p.value b)) ||
        decide (weight (step p.value b) < weight (l.foldl step (step p.value b)))) =
        decide (weight p.value < weight (l.foldl step (step p.value b))) := by
      rw [← Bool.decide_or, decide_eq_decide]
      omega
    rw [List.foldl_cons, ih, List.foldl_cons, make, Bool.or_assoc, hflag]

/-- A pass that adds nothing changes nothing that can be seen. -/
theorem see_foldl_eq (h : Adds weight see step) (l : List β) (a : α)
    (hle : weight (l.foldl step a) ≤ weight a) : see (l.foldl step a) = see a := by
  induction l generalizing a with
  | nil => rfl
  | cons b l ih =>
    have hfirst := h.le a b
    have hrest := h.le_foldl l (step a b)
    rw [List.foldl_cons] at hle ⊢
    rw [ih (step a b) (by omega), h.see_eq a b (by omega)]

theorem see_foldl_congr (h : Adds weight see step) (l : List β) (hab : see a = see b) :
    see (l.foldl step a) = see (l.foldl step b) := by
  induction l generalizing a b with
  | nil => exact hab
  | cons x l ih => exact ih (h.see_congr a b x hab)

theorem see_iterate_congr (h : Adds weight see step) (l : List β) (hab : see a = see b) (n : Nat) :
    see ((l.foldl step)^[n] a) = see ((l.foldl step)^[n] b) := by
  induction n generalizing a b with
  | zero => exact hab
  | succ n ih => exact ih (h.see_foldl_congr l hab)

theorem turn_eq (h : Adds weight see step) (l : List β) (a : α) :
    turn weight step l ⟨a, true⟩ =
      .ok (some ⟨l.foldl step a, decide (weight a < weight (l.foldl step a))⟩) := by
  rw [turn, if_pos rfl, h.foldl_make, Bool.false_or]

theorem leads_of_not_lt (h : Adds weight see step) {l : List β}
    (hstop : ¬weight a < weight (l.foldl step a)) : Leads weight step l a (l.foldl step a) := by
  refine ⟨1, .single ?_, rfl⟩
  rw [h.turn_eq, decide_eq_false hstop]

theorem leads_of_lt (h : Adds weight see step) {l : List β}
    (hgrew : weight a < weight (l.foldl step a)) (hrest : Leads weight step l (l.foldl step a) b) :
    Leads weight step l a b := by
  obtain ⟨n, hends⟩ := hrest
  refine ⟨n + 1, .step ?_ hends.turns, hends.finished⟩
  rw [h.turn_eq, decide_eq_true hgrew]

/-- The loop makes passes until one adds nothing. -/
theorem exists_leads (h : Adds weight see step) {l : List β} {limit : Nat} {p : α → Prop}
    (hp : ∀ a, p a → p (l.foldl step a)) (hlimit : ∀ a, p a → weight a ≤ limit) (ha : p a) :
    ∃ k, Leads weight step l a ((l.foldl step)^[k + 1] a) ∧
      ¬weight ((l.foldl step)^[k] a) < weight (l.foldl step ((l.foldl step)^[k] a)) := by
  -- by induction on what the weight can still gain
  have hloop (d : Nat) (a : α) (ha : p a) (hd : limit ≤ weight a + d) :
      ∃ k, Leads weight step l a ((l.foldl step)^[k + 1] a) ∧
        ¬weight ((l.foldl step)^[k] a) < weight (l.foldl step ((l.foldl step)^[k] a)) := by
    induction d generalizing a with
    | zero =>
      have hstop : ¬weight a < weight (l.foldl step a) := by
        have := hlimit _ (hp a ha)
        omega
      exact ⟨0, h.leads_of_not_lt hstop, hstop⟩
    | succ d ih =>
      by_cases hgrew : weight a < weight (l.foldl step a)
      · obtain ⟨k, hleads, hstop⟩ := ih (l.foldl step a) (hp a ha) (by omega)
        exact ⟨k + 1, h.leads_of_lt hgrew hleads, hstop⟩
      · exact ⟨0, h.leads_of_not_lt hgrew, hgrew⟩
  exact hloop limit a ha (Nat.le_add_left _ _)

/-- What can be seen of the result is what the repeated pass settles on, also if that begins with
something else that looks the same. -/
theorem exists_leads_settle [DecidableEq α] (h : Adds weight see step) {l : List β} {limit : Nat}
    {p : α → Prop} (hp : ∀ a, p a → p (l.foldl step a)) (hlimit : ∀ a, p a → weight a ≤ limit)
    (ha : p a) (hab : see a = see b) {bound : Nat}
    (hb : l.foldl step (settle (l.foldl step) bound b) = settle (l.foldl step) bound b) :
    ∃ c, Leads weight step l a c ∧ see c = see (settle (l.foldl step) bound b) := by
  obtain ⟨k, hleads, hstop⟩ := h.exists_leads hp hlimit ha
  obtain ⟨n, hn⟩ : ∃ n, ∀ k, n ≤ k →
      (l.foldl step)^[k] b = settle (l.foldl step) bound b := exists_iterate_eq_settle hb
  refine ⟨_, hleads, ?_⟩
  have hrest (m : Nat) : see ((l.foldl step)^[m + k] a) = see ((l.foldl step)^[k] a) := by
    induction m with
    | zero => rw [Nat.zero_add]
    | succ m ih =>
      rw [Nat.succ_add, Function.iterate_succ_apply', h.see_foldl_congr l ih]
      exact h.see_foldl_eq l _ (Nat.le_of_not_lt hstop)
  calc see ((l.foldl step)^[k + 1] a)
      = see ((l.foldl step)^[k] a) := Nat.add_comm k 1 ▸ hrest 1
    _ = see ((l.foldl step)^[n + k] a) := (hrest n).symm
    _ = see ((l.foldl step)^[n + k] b) := h.see_iterate_congr l hab (n + k)
    _ = see (settle (l.foldl step) bound b) := by rw [hn _ (Nat.le_add_right n k)]

end Adds

end Pass

/-! ## Extending families -/

namespace Family

variable {κ : Type u} {α : Type v} [Ord κ] [Ord α]

theorem memberCount_eq_sum (f : Family κ α) :
    f.memberCount = (f.sets.toList.map OrderedSet.size).sum := by
  rw [memberCount, List.sum_eq_foldr, List.foldr_map]

theorem memberCount_le_weight (f : Family κ α) : f.memberCount ≤ f.weight := by
  rw [memberCount_eq_sum, weight]
  exact Nat.le_add_left _ _

variable [Std.TransOrd κ] [Std.LawfulEqOrd κ] [Std.TransOrd α] [Std.LawfulEqOrd α]

/-- An extension adds as many members as it adds to the set of its key. -/
theorem memberCount_extend (f : Family κ α) (k : κ) (s : OrderedSet α) :
    (f.extend k s).memberCount + (f.get k).size = f.memberCount + ((f.get k).union s).size := by
  unfold extend
  split
  · rename_i n hk
    obtain ⟨hn, -⟩ := List.getElem?_eq_some_iff.mp (OrderedSet.place?_eq_some_iff.mp hk)
    have hn : n < f.sets.toList.length := by
      rw [Array.length_toList, f.size_sets]
      exact hn
    have hget : f.get k = f.sets.toList[n] := by
      simp only [get, hk]
      rw [← Array.getElem?_toList, List.getElem?_eq_getElem hn]
      rfl
    have hsum := sum_map_set OrderedSet.size f.sets.toList hn ((f.get k).union s)
    rw [memberCount_eq_sum, memberCount_eq_sum, Array.toList_modify, List.modify_eq_set,
      List.getElem?_eq_getElem hn, hget]
    rw [hget] at hsum
    exact hsum
  · rename_i hk
    rw [get_eq_empty (OrderedSet.place?_eq_none_iff.mp hk), OrderedSet.empty_union]
    simp only [memberCount_eq_sum, Array.toList_push, List.map_append, List.sum_append, List.map_cons,
      List.map_nil, List.sum_singleton]
    rfl

theorem memberCount_le_extend (f : Family κ α) (k : κ) (s : OrderedSet α) :
    f.memberCount ≤ (f.extend k s).memberCount := by
  have hcount := memberCount_extend f k s
  have hunion := (OrderedSet.grows_union (f.get k) s).le
  omega

/-- An extension that adds no member changes no set. -/
theorem get_extend_eq (f : Family κ α) (k : κ) (s : OrderedSet α)
    (h : (f.extend k s).memberCount ≤ f.memberCount) : (f.extend k s).get = f.get := by
  funext j
  by_cases hj : j = k
  · subst hj
    have hcount := memberCount_extend f j s
    rw [get_extend_self]
    rcases OrderedSet.grows_union (f.get j) s with hsame | hgrew
    · exact hsame.symm
    · omega
  · exact get_extend_of_ne f hj s

theorem get_extend_congr {f f' : Family κ α} (h : f.get = f'.get) (k : κ) (s : OrderedSet α) :
    (f.extend k s).get = (f'.extend k s).get := by
  funext j
  by_cases hj : j = k
  · subst hj
    rw [get_extend_self, get_extend_self, h]
  · rw [get_extend_of_ne f hj, get_extend_of_ne f' hj, h]

end Family

/-! ## The loops over the rules -/

namespace FirstSets

open Grammar

variable {g : Grammar}

theorem adds_addNullable : Pass.Adds OrderedSet.size id addNullable where
  le nulls r := (grows_addNullable nulls r).le
  see_eq nulls r hle := ((grows_addNullable nulls r).resolve_right (Nat.not_lt.mpr hle)).symm
  see_congr _ _ r h := congrArg (addNullable · r) h

theorem findsNullable_ofGrammar (g : Grammar) : FindsNullable g (ofGrammar g).nullable := by
  obtain ⟨nulls, hleads, rfl⟩ := adds_addNullable.exists_leads_settle (l := g.rules) (a := ∅)
    (p := fun nulls => ∀ n ∈ nulls, n ∈ g.rules.map (·.left)) (fun _ => nullablePass_left)
    (fun _ => OrderedSet.size_le_length) (fun n hn => absurd hn (OrderedSet.not_mem_empty n)) rfl
    (nullablePass_nullableOf g.rules)
  exact hleads

theorem firstOfSymbol_congr {sets sets' : Family String Symbol} (h : sets.get = sets'.get)
    (x : Symbol) : firstOfSymbol sets x = firstOfSymbol sets' x := by
  cases x with
  | terminal name => rfl
  | intermediate name => exact congrFun h name

theorem adds_impose : Pass.Adds Family.memberCount Family.get impose where
  le sets i := Family.memberCount_le_extend sets i.superset _
  see_eq sets i := Family.get_extend_eq sets i.superset _
  see_congr sets sets' i h := by
    rw [impose, impose, firstOfSymbol_congr h]
    exact Family.get_extend_congr h i.superset _

theorem keys_registered (g : Grammar) : ∀ n ∈ (registered g).keys, n ∈ g.intermediates.toList := by
  refine List.foldlRecOn (motive := fun sets : Family String Symbol =>
    ∀ n ∈ sets.keys, n ∈ g.intermediates.toList) g.intermediates.toList _
    (fun n hn => absurd hn (OrderedSet.not_mem_empty n)) fun sets ih name hname n hn => ?_
  rcases Family.mem_keys_extend.mp hn with hn | rfl
  · exact ih n hn
  · exact hname

/-- No set has a member before the first pass. -/
theorem get_registered (g : Grammar) : (registered g).get = (∅ : Family String Symbol).get := by
  refine List.foldlRecOn (motive := fun sets : Family String Symbol => sets.get = Family.get ∅)
    g.intermediates.toList _ rfl fun sets ih name _ => ?_
  rw [Family.get_extend_congr ih name ∅]
  funext j
  by_cases hj : j = name
  · subst hj
    rw [Family.get_extend_self, OrderedSet.union_empty]
  · exact Family.get_extend_of_ne _ hj ∅

theorem sound_registered (g : Grammar) : Sound g (registered g) := by
  intro n y hy
  rw [get_registered] at hy
  exact sound_empty n y hy

theorem exists_findsSets (g : Grammar) :
    ∃ sets, FindsSets g (ofGrammar g).nullable sets ∧ sets.get = (ofGrammar g).sets.get := by
  have hleft : ∀ r ∈ g.rules, r.left ∈ g.intermediates.toList ++ g.rules.map (·.left) :=
    fun r hr => List.mem_append_right _ (List.mem_map_of_mem hr)
  -- what weighs a family counts its keys as well, so it bounds the number of members
  exact adds_impose.exists_leads_settle (l := inclusions g) (a := registered g)
    (p := fun sets => (∀ n ∈ sets.keys, n ∈ g.intermediates.toList ++ g.rules.map (·.left)) ∧
      Sound g sets)
    (fun sets h => ⟨keys_inclusionPass hleft h.1, h.2.inclusionPass⟩)
    (fun sets h => sets.memberCount_le_weight.trans (Family.weight_le h.1 h.2.mem_rightSymbols))
    ⟨fun n hn => List.mem_append_left _ (keys_registered g n hn), sound_registered g⟩
    (get_registered g) (inclusionPass_sets g)

/-! ## Exactness -/

/-- What the nullable intermediates and the FIRST sets of a grammar have to be. -/
structure Exact (g : Grammar) (f : FirstSets) : Prop where
  /-- The loop over the rules comes to an end, with the nullable intermediates. -/
  findsNullable : FindsNullable g f.nullable
  /-- The loop over what the rules ask for comes to an end, with the FIRST sets. -/
  findsSets : ∃ sets, FindsSets g f.nullable sets ∧ ∀ name, sets.get name = f.sets.get name
  isNullable_iff : ∀ s, f.isNullable s = true ↔ g.Derives s []
  mem_first_iff : ∀ s y, y ∈ f.first s ↔ ∃ x, y = .terminal x ∧ g.Begins s x
  firstWith_eq : ∀ s (lookaheads : List Symbol), f.firstWith s (.ofList lookaheads) =
    if f.isNullable s then (f.first s).insertAll lookaheads else f.first s

theorem collect_eq (f : FirstSets) (found lookaheads : OrderedSet Symbol) (s : List Symbol) :
    f.collect found lookaheads s =
      if f.isNullable s then (f.collect found ∅ s).union lookaheads else f.collect found ∅ s := by
  induction s generalizing found with
  | nil => simp [collect, isNullable, OrderedSet.union_empty]
  | cons x s ih =>
    cases x with
    | terminal name => simp [collect, isNullable, nullableSymbol]
    | intermediate name =>
      by_cases hn : name ∈ f.nullable
      · simp only [collect, hn, if_pos, ih (found.union (f.sets.get name))]
        simp [isNullable, nullableSymbol, hn]
      · simp [collect, isNullable, nullableSymbol, hn]

/-- The FIRST sets of every grammar are exact, and the loops that find them come to an end. -/
theorem ofGrammar_exact (g : Grammar) : Exact g (ofGrammar g) where
  findsNullable := findsNullable_ofGrammar g
  findsSets := by
    obtain ⟨sets, hfinds, hget⟩ := exists_findsSets g
    exact ⟨sets, hfinds, congrFun hget⟩
  isNullable_iff _ := isNullable_iff_derives
  mem_first_iff s y := by
    rw [first, mem_firstWith]
    simp
  firstWith_eq s lookaheads := by
    rw [firstWith, collect_eq, first, firstWith, OrderedSet.union_ofList]

end FirstSets

end ShiftReduce
