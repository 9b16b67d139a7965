import Mathlib.Data.Set.Card
import Mathlib.Order.Interval.Set.Nat
import ShiftReduce.Proofs.Conflicts
import ShiftReduce.Proofs.Renumbering

/-!
# Isomorphic tables

The numbers of the rules decide the order in which states are formed, closed, merged and propagated,
and nothing else. If two grammars have the same rules under different numbers, then the states that
one path leads to in their tables have the same items with the same lookaheads, but for the numbers
of the rules. So the tables are isomorphic, in every method.
-/

namespace ShiftReduce

/-! ## Crowded setups -/

namespace Setup

variable {u v : Setup} {σ : Equiv.Perm RuleId}

/-- Setups that differ in the grammar only, and there in the numbers of the rules. -/
structure Renumbering (u v : Setup) (σ : Equiv.Perm RuleId) : Prop where
  grammar : u.grammar.Renumbering v.grammar σ
  config : u.config = v.config

theorem Renumbering.symm (h : Renumbering u v σ) : Renumbering v u σ.symm :=
  ⟨h.grammar.symm, h.config.symm⟩

theorem Renumbering.along (h : Renumbering u v σ) (path : List Symbol) :
    (u.along path).Renumbered σ (v.along path) := by
  rw [Setup.along, Setup.along, Setup.ahead, Setup.ahead, h.config]
  exact .along h.grammar path

theorem Crowded.renumber (h : u.Crowded) (hσ : Renumbering u v σ) : v.Crowded := by
  obtain ⟨path, hne, hapart⟩ := h
  refine ⟨path, fun n => ?_, fun n k hnk => ?_⟩
  · obtain ⟨c, hc⟩ := hne n
    exact ⟨c.renumber σ, ((hσ.along _).mem_cores_iff c).mpr hc⟩
  · have hback := hσ.symm.along (path n)
    have hback' := hσ.symm.along (path k)
    rcases hapart n k hnk with hcores | ⟨hm, hset⟩
    · exact .inl fun he => hcores (hback.cores_eq hback' he)
    · exact .inr ⟨hσ.config ▸ hm, fun he => hset (hback.eq hback' he)⟩

end Setup

/-! ## Items and states -/

/-- The item `l` is the item `k` with its rule renumbered. -/
structure Item.Renumbered (σ : Equiv.Perm RuleId) (k l : Item) : Prop where
  core : l.core = k.core.renumber σ
  left : l.rule.left = k.rule.left
  right : l.rule.right = k.rule.right
  mem_lookaheads_iff : ∀ y, y ∈ l.lookaheads ↔ y ∈ k.lookaheads

namespace Item.Renumbered

variable {σ : Equiv.Perm RuleId} {k k' l l' : Item}

theorem dot (h : Renumbered σ k l) : l.dot = k.dot := congrArg Core.dot h.core

theorem nextSymbol? (h : Renumbered σ k l) : l.nextSymbol? = k.nextSymbol? := by
  rw [Item.nextSymbol?, Item.nextSymbol?, after, after, h.right, h.dot]

theorem reducing (hσ : σ startId = startId) (h : Renumbered σ k l) : l.reducing = k.reducing := by
  have hid : l.rule.id = σ k.rule.id := congrArg Core.rule h.core
  have hiff : σ k.rule.id = startId ↔ k.rule.id = startId :=
    ⟨fun he => σ.injective (he.trans hσ.symm), fun he => (congrArg σ he).trans hσ⟩
  have hstart : l.rule.isStart = k.rule.isStart := by
    rw [Rule.isStart, Rule.isStart, hid, Bool.eq_iff_iff, beq_iff_eq, beq_iff_eq, hiff]
  rw [Item.reducing, Item.reducing, atEnd, atEnd, hstart, h.right, h.dot]

theorem overlap (h : Renumbered σ k l) (h' : Renumbered σ k' l') (m : Method) :
    State.overlap m l l' = State.overlap m k k' := by
  have hdisjoint : l.lookaheads.disjoint l'.lookaheads = k.lookaheads.disjoint k'.lookaheads := by
    rw [Bool.eq_iff_iff, OrderedSet.disjoint_iff, OrderedSet.disjoint_iff]
    exact forall_congr' fun y => by rw [h.mem_lookaheads_iff, h'.mem_lookaheads_iff]
  rw [State.overlap, State.overlap, hdisjoint]

end Item.Renumbered

namespace State

/-- The items of `t` are the items of `s` with their rules renumbered. The same of them are in
conflict, and what they have recorded is where `f` takes the recorded states of `s`. -/
structure Corresponds (σ : Equiv.Perm RuleId) (f : StateId → StateId) (s t : State) : Prop where
  cores : (s.cores.map (Core.renumber σ)).Perm t.cores
  item : ∀ k ∈ s.items, ∀ l ∈ t.items, l.core = k.core.renumber σ →
    Item.Renumbered σ k l ∧ l.next = k.next.map f ∧ (l ∈ t.conflicting ↔ k ∈ s.conflicting)
  successor : ∀ x, t.successor? x = (s.successor? x).map f
  check : t.check = [] ↔ s.check = []

/-- States of two grammars with the same items, but for the numbers of the rules. -/
structure Paired (g h : Grammar) (σ : Equiv.Perm RuleId) (s t : State) : Prop where
  rules : g.Renumbering h σ
  left : s.Proper g
  right : t.Proper h
  method : s.method = t.method
  items : s.itemSet.Renumbered σ t.itemSet

namespace Paired

variable {g h : Grammar} {σ : Equiv.Perm RuleId} {s t : State} {k k' l l' : Item} {x : Symbol}

theorem symm (hp : Paired g h σ s t) : Paired h g σ.symm t s :=
  ⟨hp.rules.symm, hp.right, hp.left, hp.method.symm, hp.items.symm⟩

theorem item (hp : Paired g h σ s t) (hk : k ∈ s.items) (hl : l ∈ t.items)
    (hc : l.core = k.core.renumber σ) : Item.Renumbered σ k l := by
  obtain ⟨hleft, hright⟩ := hp.rules.rule_eq (hp.left.rules k hk) (hp.right.rules l hl)
    (congrArg Core.rule hc)
  refine ⟨hc, hleft, hright, fun y => ?_⟩
  rw [hp.right.mem_lookaheads_iff hl, hp.left.mem_lookaheads_iff hk, hc,
    hp.items.mem_lookaheads_iff]

theorem exists_item (hp : Paired g h σ s t) (hk : k ∈ s.items) :
    ∃ l ∈ t.items, l.core = k.core.renumber σ :=
  mem_cores.mp ((hp.items.mem_cores_iff k.core).mpr (mem_cores.mpr ⟨k, hk, rfl⟩))

theorem cores_perm (hp : Paired g h σ s t) : (s.cores.map (Core.renumber σ)).Perm t.cores := by
  refine (List.perm_ext_iff_of_nodup (hp.left.nodup.map (Core.renumber_injective σ))
    hp.right.nodup).mpr fun c => ?_
  rw [List.mem_map]
  constructor
  · rintro ⟨d, hd, rfl⟩
    exact (hp.items.mem_cores_iff d).mpr hd
  · intro hc
    refine ⟨c.renumber σ.symm, (hp.items.mem_cores_iff _).mp ?_, Core.renumber_renumber_symm⟩
    rw [Core.renumber_renumber_symm]
    exact hc

theorem mem_nextSymbols (hp : Paired g h σ s t) (hx : x ∈ s.nextSymbols) : x ∈ t.nextSymbols := by
  obtain ⟨k, hk, hkx⟩ := State.mem_nextSymbols.mp hx
  obtain ⟨l, hl, hc⟩ := hp.exists_item hk
  exact State.mem_nextSymbols.mpr ⟨l, hl, (hp.item hk hl hc).nextSymbol?.trans hkx⟩

theorem clash (hp : Paired g h σ s t) (hk' : k' ∈ t.items) (hl' : l' ∈ t.items)
    (hkc : k'.core = k.core.renumber σ) (hlc : l'.core = l.core.renumber σ)
    (hclash : s.Clash k l) : t.Clash k' l' where
  left := hk'
  right := hl'
  reducing_left := ((hp.item hclash.left hk' hkc).reducing hp.rules.start).trans hclash.reducing_left
  reducing_right :=
    ((hp.item hclash.right hl' hlc).reducing hp.rules.start).trans hclash.reducing_right
  ne he := hclash.ne (Core.renumber_injective σ (by rw [← hkc, ← hlc, he]))
  overlap := by
    rw [← hp.method, (hp.item hclash.left hk' hkc).overlap (hp.item hclash.right hl' hlc)]
    exact hclash.overlap

theorem mem_conflicting (hp : Paired g h σ s t) (hl : l ∈ t.items)
    (hc : l.core = k.core.renumber σ) (hk : k ∈ s.conflicting) : l ∈ t.conflicting := by
  obtain ⟨k', hclash⟩ := State.mem_conflicting.mp hk
  obtain ⟨l', hl', hc'⟩ := hp.exists_item hclash.right
  exact State.mem_conflicting.mpr ⟨l', hp.clash hl hl' hc hc' hclash⟩

theorem check_eq_nil (hp : Paired g h σ s t) {i j : StateId} (hs : s.number = some i)
    (ht : t.number = some j) (hcheck : t.check = []) : s.check = [] := by
  refine (hp.left.check_eq_nil_iff hs).mpr fun k l hclash => ?_
  obtain ⟨k', hk', hkc⟩ := hp.exists_item hclash.left
  obtain ⟨l', hl', hlc⟩ := hp.exists_item hclash.right
  exact (hp.right.check_eq_nil_iff ht).mp hcheck k' l' (hp.clash hk' hl' hkc hlc hclash)

end Paired

end State

/-! ## Tables -/

namespace Table

/-- The table `b` is the table `a` with its rules renumbered by `σ`, and `f` says where the states of
`a` go. -/
structure Isomorphic (a b : Table) (σ : Equiv.Perm RuleId) (f : StateId → StateId) : Prop where
  begins : startState < a.size
  size : a.size = b.size
  bijective : Set.BijOn f {i | i < a.size} {j | j < b.size}
  start : f startState = startState
  states : ∀ (i : StateId) (s : State), a.states[i]? = some s →
    ∃ t, b.states[f i]? = some t ∧ s.Corresponds σ f t

/-- Tables for one configuration, of grammars that differ in the numbers of their rules. -/
structure Renumbered (a b : Table) (σ : Equiv.Perm RuleId) : Prop where
  complete_left : a.Complete
  complete_right : b.Complete
  setup : a.setup.Renumbering b.setup σ

variable {t a b : Table} {g h : Grammar} {σ : Equiv.Perm RuleId} {i i' j j' : StateId}
  {path path' : List Symbol}

namespace Complete

theorem eq_of_itemSet_eq (ht : t.Complete) (hi : i < t.size) (hj : j < t.size)
    (he : (t.get i).itemSet = (t.get j).itemSet) : i = j :=
  ht.distinct i j hi hj ⟨ht.cores_eq hi hj (by rw [he]), fun _ => by rw [he]⟩

/-- The lookaheads of a state are those along the paths that lead to it. -/
theorem mem_lookaheads_iff_along (ht : t.Complete) (hi : i < t.size) {p : Core × Symbol} :
    p ∈ (t.get i).itemSet.lookaheads ↔
      ∃ path, t.At path i ∧ p ∈ (t.setup.along path).lookaheads := by
  refine ⟨fun hp => ?_, fun ⟨path, hat, hp⟩ => hat.lookaheads hp⟩
  by_cases hm : t.config.method = .lr1
  · obtain ⟨path, hat⟩ := ht.exists_at hi
    exact ⟨path, hat, hat.exact (by rw [hm]; decide) ▸ hp⟩
  · -- the path leads to a state with the same cores, and there is only one
    obtain ⟨path, hcores, halong⟩ := (ht.built i hi).grounded.lookaheads p hp
    obtain ⟨c, hc⟩ := ht.exists_core hi
    obtain ⟨k, hat⟩ := ht.exists_at_of_mem (hcores ▸ hc)
    have hki : k = i :=
      ht.eq_of_cores_eq hm hat.lt hi (ht.cores_eq hat.lt hi (hat.cores.trans hcores))
    exact ⟨path, hki ▸ hat, halong⟩

end Complete

namespace Renumbered

theorem symm (hab : Renumbered a b σ) : Renumbered b a σ.symm :=
  ⟨hab.complete_right, hab.complete_left, hab.setup.symm⟩

theorem method (hab : Renumbered a b σ) : a.config.method = b.config.method :=
  congrArg Config.method hab.setup.config

/-- A path through `a` is a path through `b`. -/
theorem exists_at (hab : Renumbered a b σ) (hi : a.At path i) : ∃ j, b.At path j := by
  obtain ⟨c, hc⟩ := hab.complete_left.exists_core hi.lt
  rw [hi.cores] at hc
  exact hab.complete_right.exists_at_of_mem (((hab.setup.along path).mem_cores_iff c).mpr hc)

/-- Paths that meet in `a` meet in `b`. -/
theorem eq_of_at (hab : Renumbered a b σ) (hi : a.At path i) (hi' : a.At path' i)
    (hj : b.At path j) (hj' : b.At path' j') : j = j' := by
  have hpath := hab.setup.along path
  have hpath' := hab.setup.along path'
  by_cases hm : b.config.method = .lr1
  · have hma : a.config.method ≠ .lalr1 := by
      rw [hab.method, hm]
      decide
    have hmb : b.config.method ≠ .lalr1 := by
      rw [hm]
      decide
    refine hab.complete_right.eq_of_itemSet_eq hj.lt hj'.lt ?_
    rw [hj.exact hmb, hj'.exact hmb]
    exact hpath.eq hpath' ((hi.exact hma).symm.trans (hi'.exact hma))
  · refine hab.complete_right.eq_of_cores_eq hm hj.lt hj'.lt
      (hab.complete_right.cores_eq hj.lt hj'.lt ?_)
    rw [hj.cores, hj'.cores]
    exact hpath.cores_eq hpath' (hi.cores.symm.trans hi'.cores)

/-- The states that a path leads to have the same items, but for the numbers of the rules. -/
theorem itemSet (hab : Renumbered a b σ) (hi : a.At path i) (hj : b.At path j) :
    (a.get i).itemSet.Renumbered σ (b.get j).itemSet where
  mem_cores_iff c := by
    rw [hj.cores, hi.cores]
    exact (hab.setup.along path).mem_cores_iff c
  mem_lookaheads_iff c y := by
    rw [hab.complete_right.mem_lookaheads_iff_along hj.lt,
      hab.complete_left.mem_lookaheads_iff_along hi.lt]
    refine exists_congr fun path' => ?_
    rw [(hab.setup.along path').mem_lookaheads_iff]
    refine and_congr_left fun _ => ⟨fun hj' => ?_, fun hi' => ?_⟩
    · obtain ⟨i', hi'⟩ := hab.symm.exists_at hj'
      rwa [hab.symm.eq_of_at hj hj' hi hi']
    · obtain ⟨j', hj'⟩ := hab.exists_at hi'
      rwa [hab.eq_of_at hi hi' hj hj']

theorem paired (hab : Renumbered a b σ) (hi : a.At path i) (hj : b.At path j) :
    State.Paired a.grammar b.grammar σ (a.get i) (b.get j) where
  rules := hab.setup.grammar
  left := (hab.complete_left.built i hi.lt).proper
  right := (hab.complete_right.built j hj.lt).proper
  method := by rw [hab.complete_left.method hi.lt, hab.complete_right.method hj.lt, hab.method]
  items := hab.itemSet hi hj

/-- `f` takes the state of `a` that a path leads to to that of `b`. -/
def Follows (a b : Table) (f : StateId → StateId) : Prop :=
  ∀ i, i < a.size → ∃ path, a.At path i ∧ b.At path (f i)

theorem exists_follows (hab : Renumbered a b σ) : ∃ f, Follows a b f := by
  have hpath : ∀ i, i < a.size → ∃ j, ∃ path, a.At path i ∧ b.At path j := by
    intro i hi
    obtain ⟨path, hat⟩ := hab.complete_left.exists_at hi
    obtain ⟨j, hj⟩ := hab.exists_at hat
    exact ⟨j, path, hat, hj⟩
  choose! f hf using hpath
  exact ⟨f, hf⟩

variable {f : StateId → StateId}

theorem eq_follows (hab : Renumbered a b σ) (hf : Follows a b f) (hi : a.At path i)
    (hj : b.At path j) : f i = j := by
  obtain ⟨path', hi', hj'⟩ := hf i hi.lt
  exact hab.eq_of_at hi' hi hj' hj

theorem bijOn (hab : Renumbered a b σ) (hf : Follows a b f) :
    Set.BijOn f {i | i < a.size} {j | j < b.size} := by
  refine ⟨fun i hi => ?_, fun i hi i' hi' he => ?_, fun j hj => ?_⟩
  · obtain ⟨path, -, hj⟩ := hf i hi
    exact hj.lt
  · obtain ⟨path, hat, hj⟩ := hf i hi
    obtain ⟨path', hat', hj'⟩ := hf i' hi'
    exact hab.symm.eq_of_at hj (he ▸ hj') hat hat'
  · obtain ⟨path, hat⟩ := hab.complete_right.exists_at hj
    obtain ⟨i, hi⟩ := hab.symm.exists_at hat
    exact ⟨i, hi.lt, hab.eq_follows hf hi hat⟩

theorem successor?_follows (hab : Renumbered a b σ) (hf : Follows a b f) (hi : i < a.size)
    (x : Symbol) : (b.get (f i)).successor? x = ((a.get i).successor? x).map f := by
  obtain ⟨path, hat, hj⟩ := hf i hi
  cases hk : (a.get i).successor? x with
  | some k =>
    have hx := (hab.paired hat hj).mem_nextSymbols (State.mem_nextSymbols_of_successor? hk)
    obtain ⟨l, hl⟩ := hab.complete_right.linked (f i) x hx
    have hatk := hab.complete_left.at_append_singleton hat hk
    have hatl := hab.complete_right.at_append_singleton hj hl
    rw [hl, Option.map_some, hab.eq_follows hf hatk hatl]
  | none =>
    cases hl : (b.get (f i)).successor? x with
    | none => rfl
    | some l =>
      have hx := (hab.paired hat hj).symm.mem_nextSymbols (State.mem_nextSymbols_of_successor? hl)
      obtain ⟨k, hk'⟩ := hab.complete_left.linked i x hx
      cases hk.symm.trans hk'

theorem corresponds (hab : Renumbered a b σ) (hf : Follows a b f) (hi : i < a.size) :
    (a.get i).Corresponds σ f (b.get (f i)) := by
  obtain ⟨path, hat, hj⟩ := hf i hi
  have hp := hab.paired hat hj
  have hleft := hab.complete_left.built i hi
  have hright := hab.complete_right.built (f i) hj.lt
  have hsuccessor := hab.successor?_follows hf hi
  refine ⟨hp.cores_perm, fun k hk l hl hc => ?_, hsuccessor, ?_⟩
  · have hitem := hp.item hk hl hc
    have hc' : k.core = l.core.renumber σ.symm := by rw [hc, Core.renumber_symm_renumber]
    refine ⟨hitem, ?_, hp.symm.mem_conflicting hk hc', hp.mem_conflicting hl hc⟩
    rw [hleft.next_eq hk, hright.next_eq hl, hitem.nextSymbol?, funext hsuccessor]
    cases k.nextSymbol? <;> rfl
  · exact ⟨hp.check_eq_nil (hab.complete_left.number i hi) (hab.complete_right.number _ hj.lt),
      hp.symm.check_eq_nil (hab.complete_right.number _ hj.lt) (hab.complete_left.number i hi)⟩

theorem isomorphic (hab : Renumbered a b σ) : ∃ f, Isomorphic a b σ f := by
  obtain ⟨f, hf⟩ := hab.exists_follows
  have hbij := hab.bijOn hf
  have hsize : a.size = b.size := by
    have hcard : (Set.Iio a.size).ncard = (Set.Iio b.size).ncard := hbij.ncard_eq
    rwa [Set.ncard_Iio_nat, Set.ncard_Iio_nat] at hcard
  refine ⟨f, hab.complete_left.size_pos, hsize, hbij, ?_, fun i s hs => ?_⟩
  · exact hab.eq_follows hf hab.complete_left.at_nil hab.complete_right.at_nil
  · obtain ⟨hi, rfl⟩ := getElem?_eq_some.mp hs
    exact ⟨b.get (f i), getElem?_eq_some.mpr ⟨hbij.mapsTo hi, rfl⟩, hab.corresponds hf hi⟩

end Renumbered

/-- Grammars that differ in the numbers of their rules have isomorphic tables, unless more item sets
lie on the paths of both than there are state numbers. -/
theorem build_isomorphic {r : Rule} (hσ : g.Renumbering h σ) (hr : g.startRule = .ok r)
    (config : Config) :
    (build g config = .error (.fault .tooManyStates) ∧
      build h config = .error (.fault .tooManyStates) ∧ (Setup.new g config).Crowded) ∨
      ∃ a b f, build g config = .ok a ∧ build h config = .ok b ∧ Isomorphic a b σ f := by
  obtain ⟨q, hq⟩ := hσ.exists_startRule hr
  have hsetup : (Setup.new g config).Renumbering (.new h config) σ := ⟨hσ, rfl⟩
  rcases build_cases hr config with ⟨herror, hcrowded⟩ | ⟨a, ha⟩
  · exact .inl ⟨herror, (build_eq_error_iff hq).mpr (hcrowded.renumber hsetup), hcrowded⟩
  rcases build_cases hq config with ⟨-, hcrowded⟩ | ⟨b, hb⟩
  · rw [(build_eq_error_iff hr).mpr (hcrowded.renumber hsetup.symm)] at ha
    cases ha
  have hab : Renumbered a b σ := by
    refine ⟨complete_of_build ha, complete_of_build hb, ?_⟩
    rw [setup_of_build ha, setup_of_build hb]
    exact hsetup
  obtain ⟨f, hf⟩ := hab.isomorphic
  exact .inr ⟨a, b, f, ha, hb, hf⟩

theorem isomorphic_sample : ∃ σ a b f, build (.ofEdits sampleEdits) ⟨.lr1, "EOI"⟩ = .ok a ∧
    build (.ofEdits sampleEdits.reverse) ⟨.lr1, "EOI"⟩ = .ok b ∧ Isomorphic a b σ f := by
  have hreordered : Grammar.Reordered (.ofEdits sampleEdits) (.ofEdits sampleEdits.reverse) :=
    ⟨by decide +kernel, by decide +kernel⟩
  obtain ⟨σ, hσ⟩ := hreordered.exists_renumbering
  rcases build_isomorphic hσ startRule_sample ⟨.lr1, "EOI"⟩ with ⟨herror, -⟩ | htables
  · exact absurd herror (by decide +kernel)
  · exact ⟨σ, htables⟩

end Table

end ShiftReduce
