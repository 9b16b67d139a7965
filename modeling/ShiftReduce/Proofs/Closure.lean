import ShiftReduce.Proofs.FirstSets
import ShiftReduce.Proofs.StateView
import ShiftReduce.State.Closure

/-!
# Closing a state

The family that closing finds holds what the closure of the item set asks for: its keys are the
intermediates that closed cores wait for, and its sets hold the lookaheads of their alternatives.
Expanding an item only adds what the closure has, and when the passes have come to rest nothing is
left to add. So the closed state is the closure of the draft.
-/

namespace ShiftReduce

/-! ## Families that grow -/

/-- `g` has all that `f` has, and the keys of `f` are its first ones. -/
structure Family.Within {κ : Type} {α : Type} [Ord κ] [Ord α] (f g : Family κ α) : Prop where
  keys : f.keys.toList <+: g.keys.toList
  sets : ∀ k, ∀ a ∈ f.get k, a ∈ g.get k

namespace Family.Within

variable {κ : Type} {α : Type} [Ord κ] [Ord α] {f g h : Family κ α}

theorem refl (f : Family κ α) : f.Within f := ⟨List.prefix_rfl, fun _ _ ha => ha⟩

theorem trans (h1 : f.Within g) (h2 : g.Within h) : f.Within h :=
  ⟨h1.keys.trans h2.keys, fun k a ha => h2.sets k a (h1.sets k a ha)⟩

theorem mem_keys (hw : f.Within g) {k : κ} (hk : k ∈ f.keys) : k ∈ g.keys :=
  hw.keys.subset hk

/-- Keys keep their places. -/
theorem getElem?_keys (hw : f.Within g) {n : Nat} {k : κ} (hk : f.keys.toList[n]? = some k) :
    g.keys.toList[n]? = some k := by
  obtain ⟨hn, rfl⟩ := List.getElem?_eq_some_iff.mp hk
  exact List.prefix_iff_getElem?.mp hw.keys n hn

theorem foldl {β : Type} {op : Family κ α → β → Family κ α}
    (hop : ∀ (f : Family κ α) (b : β), f.Within (op f b)) (l : List β) (f : Family κ α) :
    f.Within (l.foldl op f) := by
  induction l generalizing f with
  | nil => exact refl f
  | cons b l ih => exact (hop f b).trans (ih (op f b))

variable [Std.TransOrd κ] [Std.LawfulEqOrd κ] [Std.TransOrd α] [Std.LawfulEqOrd α]

theorem extend (f : Family κ α) (k : κ) (s : OrderedSet α) : f.Within (f.extend k s) := by
  refine ⟨?_, fun j a ha => Family.mem_get_extend ha⟩
  rw [keys_extend]
  exact OrderedSet.prefix_insert _ k

end Family.Within

namespace State

theorem mem_carried {m : Method} {la : OrderedSet Symbol} {y : Symbol} :
    y ∈ carried m la ↔ m.looksAhead = true ∧ y ∈ la := by
  cases m <;> simp [carried, Method.looksAhead]

variable {u : Setup} {m : Method} {found found' : Family String Symbol} {i : Item} {s : State}

/-! ## Expanding an item -/

theorem mem_keys_expand {n : String} : n ∈ (expand u m found i).keys ↔
    n ∈ found.keys ∨ i.nextSymbol? = some (.intermediate n) := by
  unfold expand
  split
  · rename_i k hk
    rw [Family.mem_keys_extend, hk, Option.some.injEq, Symbol.intermediate.injEq, @eq_comm _ n k]
  · rename_i hne
    refine ⟨.inl, fun h => h.elim id fun h => absurd h (hne n)⟩

theorem mem_get_expand {n : String} {y : Symbol} : y ∈ (expand u m found i).get n ↔
    y ∈ found.get n ∨ i.nextSymbol? = some (.intermediate n) ∧ m.looksAhead = true ∧
      y ∈ u.first.firstWith i.rest i.lookaheads := by
  unfold expand
  split
  · rename_i k hk
    rw [Family.mem_get_extend_iff, mem_carried, hk, Option.some.injEq, Symbol.intermediate.injEq,
      @eq_comm _ n k]
  · rename_i hne
    refine ⟨.inl, fun h => h.elim id fun h => absurd h.1 (hne n)⟩

theorem within_expand : found.Within (expand u m found i) := by
  unfold expand
  split
  · exact .extend _ _ _
  · exact .refl _

theorem grows_expand : Grows Family.weight found (expand u m found i) := by
  unfold expand
  split
  · exact Family.grows_extend _ _ _
  · exact .refl _

theorem mem_firstWith_setup {symbols : List Symbol} {la : OrderedSet Symbol} {y : Symbol} :
    y ∈ u.first.firstWith symbols la ↔
      (∃ x, y = .terminal x ∧ u.grammar.Begins symbols x) ∨
        u.grammar.Derives symbols [] ∧ y ∈ la := by
  rw [u.first_eq, FirstSets.mem_firstWith]

/-- An item of the grammar that begins its rule takes part in the alternatives of its left side. -/
theorem mem_adjust (h : i.rule ∈ u.grammar.rules) {y : Symbol} :
    y ∈ (adjust u found i).lookaheads ↔
      y ∈ i.lookaheads ∨ i.dot = 0 ∧ y ∈ found.get i.rule.left := by
  unfold adjust
  split
  · rename_i hd
    simp [Grammar.rule_id h, Item.unite, hd]
  · rename_i hd
    simp [hd]

/-- Whatever its rule is, an item takes its lookaheads from the family. -/
theorem of_mem_adjust {y : Symbol} (h : y ∈ (adjust u found i).lookaheads) :
    y ∈ i.lookaheads ∨ ∃ n, y ∈ found.get n := by
  unfold adjust at h
  split at h
  · split at h
    · rename_i r _
      exact (OrderedSet.mem_union.mp h).imp id fun h => ⟨r.left, h⟩
    · exact .inl h
  · exact .inl h

theorem rule_adjust : (adjust u found i).rule = i.rule := by
  unfold adjust
  split
  · split <;> rfl
  · rfl

theorem dot_adjust : (adjust u found i).dot = i.dot := by
  unfold adjust
  split
  · split <;> rfl
  · rfl

theorem core_adjust : (adjust u found i).core = i.core := by
  rw [Item.core, Item.core, rule_adjust, dot_adjust]

theorem after_adjust : (adjust u found i).after = i.after := by
  rw [Item.after, Item.after, rule_adjust, dot_adjust]

theorem nextSymbol?_adjust : (adjust u found i).nextSymbol? = i.nextSymbol? := by
  rw [Item.nextSymbol?, Item.nextSymbol?, after_adjust]

/-! ## What a pass does -/

/-- Every pass expands items of the draft, and alternatives of names found before. -/
theorem pass_induction {p : Family String Symbol → Prop}
    (hdraft : ∀ found, p found → ∀ i ∈ s.items, p (expand u s.method found (adjust u found i)))
    (halternative : ∀ found, p found → ∀ r ∈ u.grammar.rules, r.left ∈ found.keys →
      p (expand u s.method found (.ofRule r (found.get r.left)))) (h : p found) :
    p (s.pass u found) := by
  have hnames (names : List Rule) (n : String) (found : Family String Symbol)
      (hr : ∀ r ∈ names, r ∈ u.grammar.rules ∧ r.left = n) (hn : n ∈ found.keys) (h : p found) :
      p (names.foldl (fun found r => expand u s.method found (.ofRule r (found.get n))) found) := by
    induction names generalizing found with
    | nil => exact h
    | cons r names ih =>
      obtain ⟨hr1, rfl⟩ := hr r List.mem_cons_self
      exact ih _ (fun q hq => hr q (List.mem_cons_of_mem _ hq)) (within_expand.mem_keys hn)
        (halternative found h r hr1 hn)
  have hfrom (bound n : Nat) (found : Family String Symbol) (h : p found) :
      p (expandFrom u s.method s.begun bound n found) := by
    induction bound generalizing n found with
    | zero => exact h
    | succ bound ih =>
      unfold expandFrom
      split
      · exact h
      · rename_i name hname
        refine ih _ _ (hnames _ name found ?_ ?_ h)
        · intro r hr
          rw [u.alternatives_eq] at hr
          exact Grammar.mem_alternatives.mp (List.mem_filter.mp hr).1
        · exact Array.mem_of_getElem? hname |> Array.mem_toList_iff.mpr
  refine hfrom _ _ _ ?_
  exact List.foldlRecOn (motive := p) s.items _ h fun found h i hi => hdraft found h i hi

theorem grows_pass (s : State) (found : Family String Symbol) :
    Grows Family.weight found (s.pass u found) :=
  pass_induction (p := Grows Family.weight found) (fun _ h _ _ => h.trans grows_expand)
    (fun _ h _ _ _ => h.trans grows_expand) (.refl found)

/-! ## Soundness -/

open ItemSet

/-- What a family says is so in the closure of the draft. -/
structure FoundSound (u : Setup) (s : State) (found : Family String Symbol) : Prop where
  keys : ∀ n ∈ found.keys, ∃ c rest, ClosureCore u.grammar s.itemSet c ∧
    u.grammar.Waits c (.intermediate n) rest
  sets : ∀ n, ∀ y ∈ found.get n, ∀ q ∈ u.grammar.rules, q.left = n →
    ClosureLookahead u.grammar s.method.looksAhead s.itemSet ⟨q.id, 0⟩ y

theorem FoundSound.expand (hf : FoundSound u s found) (hr : i.rule ∈ u.grammar.rules)
    (hc : ClosureCore u.grammar s.itemSet i.core)
    (hy : ∀ y ∈ i.lookaheads,
      ClosureLookahead u.grammar s.method.looksAhead s.itemSet i.core y) :
    FoundSound u s (expand u s.method found i) := by
  constructor
  · intro n hn
    rcases mem_keys_expand.mp hn with hn | hx
    · exact hf.keys n hn
    · exact ⟨i.core, i.rest, hc, (Item.waits_iff hr).mpr ⟨hx, rfl⟩⟩
  · intro n y hyn q hq hql
    rcases mem_get_expand.mp hyn with hyn | ⟨hx, ha, hyn⟩
    · exact hf.sets n y hyn q hq hql
    · have hw : u.grammar.Waits i.core (.intermediate q.left) i.rest :=
        (Item.waits_iff hr).mpr ⟨hql ▸ hx, rfl⟩
      rcases mem_firstWith_setup.mp hyn with ⟨x, rfl, hx⟩ | ⟨hn, hyl⟩
      · exact .first hc hw hq ha hx
      · exact .pass (hy y hyl) hw hq ha hn

theorem FoundSound.pass (hs : s.Proper u.grammar) (hf : FoundSound u s found) :
    FoundSound u s (s.pass u found) := by
  refine pass_induction ?_ ?_ hf
  · intro found hf i hi
    have hr := hs.rules i hi
    have hc : ClosureCore u.grammar s.itemSet i.core := .given (mem_cores.mpr ⟨i, hi, rfl⟩)
    refine hf.expand (by rwa [rule_adjust]) (by rwa [core_adjust]) fun y hy => ?_
    rw [core_adjust]
    rcases (mem_adjust hr).mp hy with hy | ⟨hd, hy⟩
    · exact .given (mem_pairs.mpr ⟨i, hi, rfl, hy⟩)
    · have h := hf.sets _ y hy i.rule hr rfl
      rwa [← hd] at h
  · intro found hf r hr hn
    obtain ⟨c, rest, hc, hw⟩ := hf.keys _ hn
    exact hf.expand hr (.alternative hc hw hr) fun y hy => hf.sets _ y hy r hr rfl

theorem foundSound_empty : FoundSound u s ∅ := by
  refine ⟨fun n hn => absurd hn (OrderedSet.not_mem_empty n), fun n y hy => ?_⟩
  rw [Family.get_empty] at hy
  exact absurd hy (OrderedSet.not_mem_empty y)

theorem foundSound_expansions (hs : s.Proper u.grammar) : FoundSound u s (s.expansions u) :=
  settle_induction (p := FoundSound u s) (fun _ => FoundSound.pass hs) _ foundSound_empty

/-! ## Coming to rest -/

/-- The names that items of the draft and of alternatives can wait for. -/
def namesInReach (u : Setup) (s : State) : List String :=
  (s.items.filterMap Item.nextSymbol? ++
    u.grammar.rules.filterMap fun r => (Item.ofRule r ∅).nextSymbol?).map Symbol.name

/-- The lookaheads that closing a draft can give to an item. -/
def symbolsInReach (u : Setup) (s : State) : List Symbol :=
  Grammar.rightSymbols u.grammar.rules ++
    s.items.flatMap fun i => i.rule.right ++ i.lookaheads.toList

theorem length_namesInReach : (namesInReach u s).length ≤ s.nameBound u := by
  have h1 := List.length_filterMap_le Item.nextSymbol? s.items
  have h2 := List.length_filterMap_le (fun r => (Item.ofRule r ∅).nextSymbol?) u.grammar.rules
  have h3 := Grammar.length_le_dotCount u.grammar.rules
  rw [namesInReach, List.length_map, List.length_append, nameBound, u.coreCount_eq]
  omega

theorem length_symbolsInReach : (symbolsInReach u s).length ≤ s.symbolBound u := by
  have h1 := Grammar.length_rightSymbols u.grammar.rules
  have h2 (items : List Item) :
      (items.flatMap fun i => i.rule.right ++ i.lookaheads.toList).length ≤
      items.foldr (fun i n => i.rule.right.length + i.lookaheads.size + n) 0 := by
    induction items with
    | nil => exact Nat.le_refl _
    | cons i items ih =>
      rw [List.flatMap_cons, List.length_append, List.length_append, OrderedSet.length_toList,
        List.foldr_cons]
      omega
  have h3 := h2 s.items
  rw [symbolsInReach, List.length_append, symbolBound, u.coreCount_eq]
  omega

structure InReach (u : Setup) (s : State) (found : Family String Symbol) : Prop where
  keys : ∀ n ∈ found.keys, n ∈ namesInReach u s
  sets : ∀ n, ∀ y ∈ found.get n, y ∈ symbolsInReach u s

theorem InReach.expand (hf : InReach u s found) (hr : ∀ x ∈ i.rule.right, x ∈ symbolsInReach u s)
    (hx : ∀ n, i.nextSymbol? = some (.intermediate n) → n ∈ namesInReach u s)
    (hy : ∀ y ∈ i.lookaheads, y ∈ symbolsInReach u s) : InReach u s (expand u m found i) := by
  constructor
  · intro n hn
    rcases mem_keys_expand.mp hn with hn | hn
    · exact hf.keys n hn
    · exact hx n hn
  · intro n y hyn
    rcases mem_get_expand.mp hyn with hyn | ⟨-, -, hyn⟩
    · exact hf.sets n y hyn
    · rcases mem_firstWith_setup.mp hyn with ⟨x, rfl, hb⟩ | ⟨-, hyl⟩
      · rcases hb.mem with hb | hb
        · exact hr _ (List.mem_of_mem_drop (List.mem_of_mem_tail hb))
        · exact List.mem_append_left _ (List.mem_flatMap.mpr hb)
      · exact hy y hyl

theorem InReach.pass (hf : InReach u s found) : InReach u s (s.pass u found) := by
  have hitem {i : Item} (hi : i ∈ s.items) {x : Symbol}
      (hx : x ∈ i.rule.right ++ i.lookaheads.toList) : x ∈ symbolsInReach u s :=
    List.mem_append_right _ (List.mem_flatMap.mpr ⟨i, hi, hx⟩)
  refine pass_induction ?_ ?_ hf
  · intro found hf i hi
    refine hf.expand (fun x hx => hitem hi (List.mem_append_left _ ?_)) ?_ fun y hy => ?_
    · rwa [rule_adjust] at hx
    · intro n hn
      rw [nextSymbol?_adjust] at hn
      exact List.mem_map.mpr ⟨_, List.mem_append_left _ (List.mem_filterMap.mpr ⟨i, hi, hn⟩), rfl⟩
    · rcases of_mem_adjust hy with hy | ⟨n, hy⟩
      · exact hitem hi (List.mem_append_right _ hy)
      · exact hf.sets n y hy
  · intro found hf r hr _
    refine hf.expand (fun x hx => List.mem_append_left _ (List.mem_flatMap.mpr ⟨r, hr, hx⟩)) ?_
      fun y hy => hf.sets _ y hy
    intro n hn
    exact List.mem_map.mpr ⟨_, List.mem_append_right _ (List.mem_filterMap.mpr ⟨r, hr, hn⟩), rfl⟩

theorem inReach_empty : InReach u s ∅ := by
  refine ⟨fun n hn => absurd hn (OrderedSet.not_mem_empty n), fun n y hy => ?_⟩
  rw [Family.get_empty] at hy
  exact absurd hy (OrderedSet.not_mem_empty y)

theorem pass_expansions : s.pass u (s.expansions u) = s.expansions u := by
  refine Grows.step_settle Family.weight (s.passBound u) (grows_pass s) (p := InReach u s)
    (fun _ => InReach.pass) ?_ inReach_empty (Nat.le_add_left _ _)
  intro found hf
  have hn := length_namesInReach (u := u) (s := s)
  have hv := length_symbolsInReach (u := u) (s := s)
  calc found.weight
      ≤ (namesInReach u s).length * ((symbolsInReach u s).length + 1) :=
        Family.weight_le hf.keys hf.sets
    _ ≤ s.nameBound u * (s.symbolBound u + 1) := Nat.mul_le_mul hn (Nat.add_le_add_right hv 1)

theorem inReach_expansions : InReach u s (s.expansions u) :=
  settle_induction (p := InReach u s) (fun _ => InReach.pass) _ inReach_empty

/-! ## Completeness -/

/-- The family has all that the item says. -/
def Expanded (u : Setup) (m : Method) (found : Family String Symbol) (i : Item) : Prop :=
  ∀ n, i.nextSymbol? = some (.intermediate n) → n ∈ found.keys ∧
    ∀ y, m.looksAhead = true → y ∈ u.first.firstWith i.rest i.lookaheads → y ∈ found.get n

theorem expanded_expand : Expanded u m (expand u m found i) i := fun _ hx =>
  ⟨mem_keys_expand.mpr (.inr hx), fun _ ha hy => mem_get_expand.mpr (.inr ⟨hx, ha, hy⟩)⟩

theorem Expanded.mono (h : Expanded u m found i) (hw : found.Within found') :
    Expanded u m found' i := fun n hx =>
  ⟨hw.mem_keys (h n hx).1, fun y ha hy => hw.sets n y ((h n hx).2 y ha hy)⟩

/-- An item with fewer lookaheads says less. -/
theorem Expanded.of_lookaheads {j : Item} (h : Expanded u m found j) (hafter : i.after = j.after)
    (hla : ∀ y ∈ i.lookaheads, y ∈ j.lookaheads) : Expanded u m found i := by
  intro n hx
  have hrest : i.rest = j.rest := congrArg List.tail hafter
  have hnext : j.nextSymbol? = i.nextSymbol? := (congrArg List.head? hafter).symm
  refine ⟨(h n (hnext.trans hx)).1, fun y ha hy => (h n (hnext.trans hx)).2 y ha ?_⟩
  rw [hrest] at hy
  rcases mem_firstWith_setup.mp hy with hy | ⟨hn, hy⟩
  · exact mem_firstWith_setup.mpr (.inl hy)
  · exact mem_firstWith_setup.mpr (.inr ⟨hn, hla y hy⟩)

theorem within_expandAlternatives (begun : List RuleId) (name : String) :
    found.Within (expandAlternatives u m begun found name) :=
  Family.Within.foldl (fun _ _ => within_expand) _ _

theorem within_expandFrom (begun : List RuleId) (bound n : Nat) :
    found.Within (expandFrom u m begun bound n found) := by
  induction bound generalizing n found with
  | zero => exact .refl found
  | succ bound ih =>
    unfold expandFrom
    split
    · exact .refl found
    · exact (within_expandAlternatives begun _).trans (ih (n + 1))

/-- Every name with a place behind `n` has its turn if the bound reaches it. -/
theorem exists_turn (begun : List RuleId) (bound : Nat) {name : String} {n k : Nat}
    (hk : found.keys.toList[k]? = some name) (hn : n ≤ k) (hb : k < n + bound) :
    ∃ found', found.Within found' ∧ (expandAlternatives u m begun found' name).Within
      (expandFrom u m begun bound n found) := by
  induction bound generalizing n found with
  | zero => omega
  | succ bound ih =>
    have hlt := (List.getElem?_eq_some_iff.mp hk).1
    have hlt : n < found.keys.toList.length := by omega
    have hsome : found.keys.toArray[n]? = some found.keys.toList[n] := by
      rw [← Array.getElem?_toList]
      exact List.getElem?_eq_getElem _
    rw [expandFrom, hsome]
    rcases Nat.lt_or_ge n k with hnk | hkn
    · have hw : found.Within (expandAlternatives u m begun found found.keys.toList[n]) :=
        within_expandAlternatives begun _
      obtain ⟨found', hf, ht⟩ := ih (hw.getElem?_keys hk) hnk (by omega)
      exact ⟨found', hw.trans hf, ht⟩
    · obtain rfl : n = k := by omega
      obtain ⟨_, rfl⟩ := List.getElem?_eq_some_iff.mp hk
      exact ⟨found, .refl found, within_expandFrom begun bound (n + 1)⟩

theorem expanded_expandAlternatives {begun : List RuleId} {r : Rule} (hr : r ∈ u.grammar.rules)
    (hb : r.id ∉ begun) : Expanded u m (expandAlternatives u m begun found r.left)
      (.ofRule r (found.get r.left)) := by
  have hmem : r ∈ (u.alternatives r.left).filter (·.id ∉ begun) := by
    simp [u.alternatives_eq, hr, hb]
  obtain ⟨before, after, hsplit⟩ := List.append_of_mem hmem
  rw [expandAlternatives, hsplit, List.foldl_append, List.foldl_cons]
  refine Expanded.mono ?_ (Family.Within.foldl (fun _ _ => within_expand) after _)
  have hw : found.Within (before.foldl
      (fun found q => expand u m found (.ofRule q (found.get r.left))) found) :=
    Family.Within.foldl (fun _ _ => within_expand) before found
  exact expanded_expand.of_lookaheads rfl fun y hy => hw.sets _ y hy

theorem mem_adjust_mono (hr : i.rule ∈ u.grammar.rules) (hw : found.Within found') :
    ∀ y ∈ (adjust u found i).lookaheads, y ∈ (adjust u found' i).lookaheads := by
  intro y hy
  rcases (mem_adjust hr).mp hy with hy | ⟨hd, hy⟩
  · exact (mem_adjust hr).mpr (.inl hy)
  · exact (mem_adjust hr).mpr (.inr ⟨hd, hw.sets _ y hy⟩)

theorem expanded_pass_of_mem (hs : s.Proper u.grammar) (hi : i ∈ s.items) :
    Expanded u s.method (s.pass u found) (adjust u found i) := by
  unfold pass
  refine Expanded.mono ?_ (within_expandFrom _ _ _)
  obtain ⟨before, after, hsplit⟩ := List.append_of_mem hi
  rw [hsplit, List.foldl_append, List.foldl_cons]
  refine Expanded.mono ?_ (Family.Within.foldl (fun _ _ => within_expand) after _)
  have hw : found.Within (before.foldl
      (fun found j => expand u s.method found (adjust u found j)) found) :=
    Family.Within.foldl (fun _ _ => within_expand) before found
  exact expanded_expand.of_lookaheads (after_adjust.trans after_adjust.symm)
    (mem_adjust_mono (hs.rules i hi) hw)

theorem expanded_pass_of_alternative {r : Rule} (hr : r ∈ u.grammar.rules) (hb : r.id ∉ s.begun)
    (hn : r.left ∈ found.keys) (hsize : found.keys.size ≤ s.nameBound u) :
    Expanded u s.method (s.pass u found) (.ofRule r (found.get r.left)) := by
  unfold pass
  have hw : found.Within (s.items.foldl
      (fun found i => expand u s.method found (adjust u found i)) found) :=
    Family.Within.foldl (fun _ _ => within_expand) s.items found
  obtain ⟨k, hk⟩ := List.mem_iff_getElem?.mp hn
  have hlt : k < found.keys.size := (List.getElem?_eq_some_iff.mp hk).1
  obtain ⟨found', hf, ht⟩ := exists_turn (u := u) (m := s.method) s.begun (s.nameBound u)
    (hw.getElem?_keys hk) (Nat.zero_le k) (by omega)
  have hw' := hw.trans hf
  exact ((expanded_expandAlternatives hr hb).mono ht).of_lookaheads rfl fun y hy =>
    hw'.sets _ y hy

/-! ## The closed state -/

theorem items_close (hc : s.closed = false) : (s.close u).items =
    s.items.map (adjust u (s.expansions u)) ++
      (s.expansions u).keys.toList.flatMap (added u s.begun (s.expansions u)) := by
  simp [close, hc]

theorem method_close : (s.close u).method = s.method := by
  unfold close
  split <;> rfl

theorem closed_close : (s.close u).closed = true := by
  unfold close
  split
  · assumption
  · rfl

/-- Closing adds the alternatives that have not been begun. -/
theorem mem_items_close (hc : s.closed = false) {k : Item} : k ∈ (s.close u).items ↔
    (∃ i ∈ s.items, k = adjust u (s.expansions u) i) ∨ ∃ r ∈ u.grammar.rules, r.id ∉ s.begun ∧
      r.left ∈ (s.expansions u).keys ∧ k = .ofRule r ((s.expansions u).get r.left) := by
  rw [items_close hc, List.mem_append]
  refine or_congr ⟨fun h => ?_, fun h => ?_⟩ ⟨fun h => ?_, fun h => ?_⟩
  · obtain ⟨i, hi, rfl⟩ := List.mem_map.mp h
    exact ⟨i, hi, rfl⟩
  · obtain ⟨i, hi, rfl⟩ := h
    exact List.mem_map_of_mem hi
  · obtain ⟨n, hn, h⟩ := List.mem_flatMap.mp h
    obtain ⟨r, hmem, rfl⟩ := List.mem_map.mp h
    obtain ⟨halt, hb⟩ := List.mem_filter.mp hmem
    rw [u.alternatives_eq, Grammar.mem_alternatives] at halt
    obtain ⟨hr, rfl⟩ := halt
    exact ⟨r, hr, by simpa using hb, hn, rfl⟩
  · obtain ⟨r, hr, hb, hn, rfl⟩ := h
    refine List.mem_flatMap.mpr ⟨r.left, hn, List.mem_map_of_mem ?_⟩
    simp [u.alternatives_eq, hr, hb]

theorem cores_close (hc : s.closed = false) : (s.close u).cores = s.cores ++
    (s.expansions u).keys.toList.flatMap fun n =>
      ((u.alternatives n).filter (·.id ∉ s.begun)).map fun r => ⟨r.id, 0⟩ := by
  rw [cores, items_close hc, List.map_append, List.map_map, List.map_flatMap]
  congr 1
  · exact List.map_congr_left fun i _ => core_adjust
  · refine List.flatMap_congr fun n _ => ?_
    rw [added, List.map_map]
    rfl

theorem not_mem_begun {r : Rule} (hr : ⟨r.id, 0⟩ ∉ s.cores) : r.id ∉ s.begun := by
  intro hb
  obtain ⟨i, hi, hid⟩ := List.mem_map.mp hb
  obtain ⟨hi, hd⟩ := List.mem_filter.mp hi
  refine hr (mem_cores.mpr ⟨i, hi, ?_⟩)
  simp only [decide_eq_true_eq] at hd
  rw [Item.core, hid, hd]

theorem mem_begun {r : Rule} (hr : ⟨r.id, 0⟩ ∈ s.cores) : r.id ∈ s.begun := by
  obtain ⟨i, hi, hc⟩ := mem_cores.mp hr
  refine List.mem_map.mpr ⟨i, List.mem_filter.mpr ⟨hi, ?_⟩, congrArg Core.rule hc⟩
  exact decide_eq_true (congrArg Core.dot hc)

theorem mem_cores_close (hc : s.closed = false) {c : Core} : c ∈ (s.close u).cores ↔
    c ∈ s.cores ∨ ∃ q ∈ u.grammar.rules, q.left ∈ (s.expansions u).keys ∧ c = ⟨q.id, 0⟩ := by
  rw [cores_close hc, List.mem_append]
  constructor
  · rintro (h | h)
    · exact .inl h
    · obtain ⟨n, hn, h⟩ := List.mem_flatMap.mp h
      obtain ⟨q, hq, rfl⟩ := List.mem_map.mp h
      have hq := (List.mem_filter.mp hq).1
      rw [u.alternatives_eq, Grammar.mem_alternatives] at hq
      exact .inr ⟨q, hq.1, hq.2 ▸ hn, rfl⟩
  · rintro (h | ⟨q, hq, hn, rfl⟩)
    · exact .inl h
    · by_cases hb : ⟨q.id, 0⟩ ∈ s.cores
      · exact .inl hb
      · refine .inr (List.mem_flatMap.mpr ⟨q.left, hn, List.mem_map.mpr ⟨q, ?_, rfl⟩⟩)
        simp [u.alternatives_eq, hq, not_mem_begun hb]

theorem nodup_cores_close (hn : s.cores.Nodup) (hc : s.closed = false) :
    (s.close u).cores.Nodup := by
  have hid : u.grammar.rules.Pairwise (·.id ≠ ·.id) :=
    u.grammar.pairwise_id_rules.imp fun h => Nat.ne_of_lt h
  have halt (n : String) : ((u.alternatives n).filter (·.id ∉ s.begun)).Pairwise (·.id ≠ ·.id) := by
    rw [u.alternatives_eq]
    exact (hid.filter _).filter _
  rw [cores_close hc, List.nodup_append]
  refine ⟨hn, List.nodup_flatMap.mpr ⟨fun n _ => ?_, ?_⟩, ?_⟩
  · exact List.pairwise_map.mpr ((halt n).imp fun hne he => hne (congrArg Core.rule he))
  · -- alternatives of different names are different rules
    refine (s.expansions u).keys.nodup.imp fun hne c hc1 hc2 => hne ?_
    obtain ⟨r, hr, rfl⟩ := List.mem_map.mp hc1
    obtain ⟨q, hq, hid⟩ := List.mem_map.mp hc2
    have hr := (List.mem_filter.mp hr).1
    have hq := (List.mem_filter.mp hq).1
    rw [u.alternatives_eq, Grammar.mem_alternatives] at hr hq
    have he : q = r := Grammar.eq_of_id_eq hq.1 hr.1 (congrArg Core.rule hid)
    rw [← hr.2, ← hq.2, he]
  · rintro c hc1 d hc2 rfl
    obtain ⟨n, -, hc2⟩ := List.mem_flatMap.mp hc2
    obtain ⟨r, hr, rfl⟩ := List.mem_map.mp hc2
    exact (by simpa using (List.mem_filter.mp hr).2 : r.id ∉ s.begun) (mem_begun hc1)

theorem proper_close (hs : s.Proper u.grammar) : (s.close u).Proper u.grammar := by
  by_cases hclosed : s.closed = true
  · simpa [close, hclosed] using hs
  have hc : s.closed = false := by simpa using hclosed
  refine ⟨fun k hk => ?_, nodup_cores_close hs.nodup hc⟩
  rcases (mem_items_close hc).mp hk with ⟨i, hi, rfl⟩ | ⟨r, hr, -, -, rfl⟩
  · rw [rule_adjust]
    exact hs.rules i hi
  · exact hr

/-- A lookahead of the closed state is one of the draft, or closing has found it. -/
theorem mem_pairs_close (hs : s.Proper u.grammar) (hc : s.closed = false) {c : Core} {y : Symbol} :
    (c, y) ∈ (s.close u).pairs ↔ (c, y) ∈ s.pairs ∨
      ∃ q ∈ u.grammar.rules, y ∈ (s.expansions u).get q.left ∧ c = ⟨q.id, 0⟩ := by
  constructor
  · intro h
    obtain ⟨k, hk, rfl, hy⟩ := mem_pairs.mp h
    rcases (mem_items_close hc).mp hk with ⟨i, hi, rfl⟩ | ⟨r, hr, -, -, rfl⟩
    · rw [core_adjust]
      rcases (mem_adjust (hs.rules i hi)).mp hy with hy | ⟨hd, hy⟩
      · exact .inl (mem_pairs.mpr ⟨i, hi, rfl, hy⟩)
      · exact .inr ⟨i.rule, hs.rules i hi, hy, by rw [← hd]; rfl⟩
    · exact .inr ⟨r, hr, hy, rfl⟩
  · rintro (h | ⟨q, hq, hy, rfl⟩)
    · obtain ⟨i, hi, rfl, hy⟩ := mem_pairs.mp h
      exact mem_pairs.mpr ⟨_, (mem_items_close hc).mpr (.inl ⟨i, hi, rfl⟩), core_adjust,
        (mem_adjust (hs.rules i hi)).mpr (.inl hy)⟩
    · by_cases hb : ⟨q.id, 0⟩ ∈ s.cores
      · obtain ⟨i, hi, hcore⟩ := mem_cores.mp hb
        obtain rfl : i.rule = q :=
          Grammar.eq_of_id_eq (hs.rules i hi) hq (congrArg Core.rule hcore)
        have hd : i.dot = 0 := congrArg Core.dot hcore
        exact mem_pairs.mpr ⟨_, (mem_items_close hc).mpr (.inl ⟨i, hi, rfl⟩),
          core_adjust.trans hcore, (mem_adjust (hs.rules i hi)).mpr (.inr ⟨hd, hy⟩)⟩
      · have hn : q.left ∈ (s.expansions u).keys := by
          by_contra hn
          rw [Family.get_eq_empty hn] at hy
          exact OrderedSet.not_mem_empty y hy
        exact mem_pairs.mpr ⟨_, (mem_items_close hc).mpr (.inr ⟨q, hq, not_mem_begun hb, hn, rfl⟩),
          rfl, hy⟩

/-- When the passes have come to rest, the family has all that the closed items say. -/
theorem expanded_of_mem_close (hs : s.Proper u.grammar) (hc : s.closed = false) {k : Item}
    (hk : k ∈ (s.close u).items) : Expanded u s.method (s.expansions u) k := by
  rw [← pass_expansions]
  rcases (mem_items_close hc).mp hk with ⟨i, hi, rfl⟩ | ⟨r, hr, hb, hn, rfl⟩
  · exact expanded_pass_of_mem hs hi
  · refine expanded_pass_of_alternative hr hb hn ?_
    exact (OrderedSet.size_le_length inReach_expansions.keys).trans length_namesInReach

/-- What an item of the closed state waits for has been expanded. -/
theorem mem_expansions_of_waits (hs : s.Proper u.grammar) (hc : s.closed = false) {c : Core}
    (hcore : c ∈ (s.close u).cores) {n : String} {rest : List Symbol}
    (hw : u.grammar.Waits c (.intermediate n) rest) : n ∈ (s.expansions u).keys ∧
      ∀ y, s.method.looksAhead = true → ((∃ x, y = .terminal x ∧ u.grammar.Begins rest x) ∨
        u.grammar.Derives rest [] ∧ (c, y) ∈ (s.close u).pairs) → y ∈ (s.expansions u).get n := by
  have hproper := proper_close (u := u) hs
  obtain ⟨k, hk, rfl, hx, rfl⟩ := hproper.exists_item_of_waits hcore hw
  obtain ⟨hn, hy⟩ := expanded_of_mem_close hs hc hk n hx
  refine ⟨hn, fun y ha h => hy y ha (mem_firstWith_setup.mpr (h.imp_right fun h => ⟨h.1, ?_⟩))⟩
  obtain ⟨k', hk', hcore', hy'⟩ := mem_pairs.mp h.2
  rwa [hproper.item_eq hk' hk hcore'] at hy'

/-- Closing a draft closes its item set. -/
theorem itemSet_close (hs : s.Proper u.grammar) (hc : s.closed = false) :
    (s.close u).itemSet = s.itemSet.closure u.grammar s.method.looksAhead := by
  have hfound := foundSound_expansions hs
  refine le_antisymm ⟨fun c h => ?_, fun ⟨c, y⟩ h => ?_⟩ (closure_le ⟨fun c h => ?_, fun p h => ?_⟩
    (fun c h q rest hq hw => ?_) (fun c h q rest x hq hw ha hx => ?_)
    fun c y h q rest hq hw ha hn => ?_)
  · rcases (mem_cores_close hc).mp h with h | ⟨q, hq, hn, rfl⟩
    · exact .given h
    · obtain ⟨d, rest, hd, hw⟩ := hfound.keys _ hn
      exact .alternative hd hw hq
  · rcases (mem_pairs_close hs hc).mp h with h | ⟨q, hq, hy, rfl⟩
    · exact .given h
    · exact hfound.sets _ y hy q hq rfl
  · exact (mem_cores_close hc).mpr (.inl h)
  · exact (mem_pairs_close hs hc).mpr (.inl h)
  · exact (mem_cores_close hc).mpr (.inr ⟨q, hq, (mem_expansions_of_waits hs hc h hw).1, rfl⟩)
  · exact (mem_pairs_close hs hc).mpr
      (.inr ⟨q, hq, (mem_expansions_of_waits hs hc h hw).2 _ ha (.inl ⟨x, rfl, hx⟩), rfl⟩)
  · have hcore : c ∈ (s.close u).cores := by
      obtain ⟨k, hk, rfl, -⟩ := mem_pairs.mp h
      exact mem_cores.mpr ⟨k, hk, rfl⟩
    exact (mem_pairs_close hs hc).mpr
      (.inr ⟨q, hq, (mem_expansions_of_waits hs hc hcore hw).2 _ ha (.inr ⟨hn, h⟩), rfl⟩)

end State

end ShiftReduce
