import ShiftReduce.Proofs.FirstSets
import ShiftReduce.Proofs.Roster

/-!
# Closing in place comes to an end

The items that closing can come to have rules of the draft or of the grammar, and the lookaheads
those of the draft or terminals that a symbol of such a rule begins with. So there is a bound on
what the roster can weigh, and every turn of the loop comes nearer to it. This holds of every draft,
whatever grammar its items are from and whatever the FIRST sets have been computed from.
-/

namespace ShiftReduce

open Roster (of)

namespace State

variable {s : State}

/-- Each item and each lookahead counts, and both are bounded by lists that have them all. -/
theorem weight_le {cores : List Core} {symbols : List Symbol} (hn : s.cores.Nodup)
    (hcores : ∀ c ∈ s.cores, c ∈ cores) (hla : ∀ i ∈ s.items, ∀ y ∈ i.lookaheads, y ∈ symbols) :
    s.weight ≤ cores.length * (symbols.length + 1) := by
  have hlength : s.items.length ≤ cores.length := by
    simpa [State.cores] using (List.Nodup.subperm hn hcores).length_le
  have hsize : ∀ n ∈ s.items.map fun i => i.lookaheads.size, n ≤ symbols.length := by
    intro n hmem
    obtain ⟨i, hi, rfl⟩ := List.mem_map.mp hmem
    exact OrderedSet.size_le_length (hla i hi)
  have hsum := List.sum_le_card_nsmul _ _ hsize
  rw [weight, lookaheadCount_eq_sum]
  rw [List.length_map, smul_eq_mul] at hsum
  calc s.items.length + (s.items.map fun i => i.lookaheads.size).sum
      ≤ s.items.length + s.items.length * symbols.length := Nat.add_le_add_left hsum _
    _ = s.items.length * (symbols.length + 1) := by rw [Nat.mul_succ, Nat.add_comm]
    _ ≤ cores.length * (symbols.length + 1) := Nat.mul_le_mul_right _ hlength

theorem mem_items_offered {rules : List Rule} {la : OrderedSet Symbol} {j : Item} :
    j ∈ (s.offered rules la).items ↔ (∃ i ∈ s.items, offerTo rules la i = j) ∨
      ∃ r ∈ rules, ⟨r.id, 0⟩ ∉ s.cores ∧ Item.ofRule r la = j := by
  simp [offered, and_assoc]

end State

/-! ## On the way -/

namespace Round

open State (carried)

/-- The rules of the items that closing `k` can come to. -/
def rulesAbout (g : Grammar) (k : State) : List Rule := k.items.map Item.rule ++ g.rules

def coresAbout (g : Grammar) (k : State) : List Core :=
  (rulesAbout g k).flatMap fun r => (List.range (r.right.length + 1)).map (Core.mk r.id)

/-- Their lookaheads. -/
def symbolsAbout (g : Grammar) (f : FirstSets) (k : State) : List Symbol :=
  (k.items.flatMap fun i => i.lookaheads.toList) ++ (rulesAbout g k).flatMap fun r =>
    r.right.flatMap fun x => (FirstSets.firstOfSymbol f.sets x).toList

/-- Closing the draft `k` can come by the state `s`. -/
structure Underway (g : Grammar) (f : FirstSets) (k s : State) : Prop where
  orderly : s.Orderly
  opened : s.closed = false
  method : s.method = k.method
  rules : ∀ i ∈ s.items, i.rule ∈ rulesAbout g k
  lookaheads : ∀ i ∈ s.items, ∀ y ∈ i.lookaheads, y ∈ symbolsAbout g f k

variable {g : Grammar} {f : FirstSets} {k s : State}

theorem underway_refl (hk : k.Orderly) (hopen : k.closed = false) : Underway g f k k where
  orderly := hk
  opened := hopen
  method := rfl
  rules _ hi := List.mem_append_left _ (List.mem_map_of_mem hi)
  lookaheads i hi _ hy := List.mem_append_left _ (List.mem_flatMap.mpr ⟨i, hi, hy⟩)

theorem Underway.weight_le (h : Underway g f k s) :
    s.weight ≤ (coresAbout g k).length * ((symbolsAbout g f k).length + 1) := by
  refine State.weight_le h.orderly.nodup (fun c hc => ?_) h.lookaheads
  obtain ⟨i, hi, rfl⟩ := State.mem_cores.mp hc
  refine List.mem_flatMap.mpr ⟨i.rule, h.rules i hi, List.mem_map.mpr ⟨i.dot, ?_, rfl⟩⟩
  exact List.mem_range.mpr (Nat.lt_succ_of_le i.dot_le)

/-- What follows the alternatives of an item's next symbol. -/
theorem Underway.mem_firstWith (h : Underway g f k s) {i : Item} (hi : i ∈ s.items) {y : Symbol}
    (hy : y ∈ f.firstWith i.rest i.lookaheads) : y ∈ symbolsAbout g f k := by
  rcases FirstSets.mem_firstWith_iff_leads.mp hy with ⟨x, hx, hyx⟩ | ⟨-, hy⟩
  · obtain ⟨pre, post, hrest, -⟩ := FirstSets.exists_of_mem_leading hx
    have hright : x ∈ i.rule.right := by
      have hmem : x ∈ i.rest := by simp [hrest]
      exact List.mem_of_mem_drop (List.mem_of_mem_tail hmem)
    refine List.mem_append_right _ (List.mem_flatMap.mpr ⟨i.rule, h.rules i hi, ?_⟩)
    exact List.mem_flatMap.mpr ⟨x, hright, hyx⟩
  · exact h.lookaheads i hi y hy

theorem Underway.offered (h : Underway g f k s) {name : String} {la : OrderedSet Symbol}
    (hla : ∀ y ∈ la, y ∈ symbolsAbout g f k) (hcarried : carried s.method la = la)
    (hn : (s.offered (g.alternatives name) la).cores.Nodup) :
    Underway g f k (s.offered (g.alternatives name) la) where
  orderly := by
    refine ⟨hn, fun j hj => ?_⟩
    rcases State.mem_items_offered.mp hj with ⟨i, hi, rfl⟩ | ⟨r, -, -, rfl⟩
    · unfold State.offerTo
      split
      · exact State.carried_union (h.orderly.carries i hi) hcarried
      · exact h.orderly.carries i hi
    · exact hcarried
  opened := h.opened
  method := h.method
  rules j hj := by
    rcases State.mem_items_offered.mp hj with ⟨i, hi, rfl⟩ | ⟨r, hr, -, rfl⟩
    · unfold State.offerTo
      split <;> exact h.rules i hi
    · exact List.mem_append_right _ (Grammar.mem_alternatives.mp hr).1
  lookaheads j hj y hy := by
    rcases State.mem_items_offered.mp hj with ⟨i, hi, rfl⟩ | ⟨r, -, -, rfl⟩
    · unfold State.offerTo at hy
      split at hy
      · exact (OrderedSet.mem_union.mp hy).elim (h.lookaheads i hi y) (hla y)
      · exact h.lookaheads i hi y hy
    · exact hla y hy

/-! ## Turns -/

/-- The roster is a state on the way from `k`, and the place is in the table. -/
structure On (g : Grammar) (f : FirstSets) (k : State) (w : Round) (s : State) : Prop where
  roster : w.roster = of s
  underway : Underway g f k s
  place_le : w.place ≤ s.items.length

theorem offer_of {w : Round} (h : w.roster = of s) (i : Item) :
    w.offer f (Entry.of i) = carried s.method (f.firstWith i.rest i.lookaheads) := by
  have hmethod : w.roster.method = s.method := congrArg Roster.method h
  rw [offer, hmethod, Entry.rest_of]
  cases s.method <;> rfl

/-- An entry is passed over, or gets the alternatives that it waits for. -/
theorem On.advance {w : Round} (h : On g f k w s) : w.advance g f = .ok none ∨
    ∃ v t grew, w.advance g f = .ok (some v) ∧ On g f k v t ∧ v.place = w.place + 1 ∧
      v.changed = (w.changed || grew) ∧ State.Added s t grew := by
  obtain ⟨r, place, changed, seen⟩ := w
  obtain rfl : r = of s := h.roster
  have hn := h.underway.orderly.nodup
  have hentry : (of s).entries[place]? =
      s.items[place]?.map fun i => (i.core, Entry.of i) := List.getElem?_map
  cases hi : s.items[place]? with
  | none =>
    rw [hi] at hentry
    exact .inl (by simp [Round.advance, hentry])
  | some i =>
    rw [hi] at hentry
    obtain ⟨hlt, hget⟩ := List.getElem?_eq_some_iff.mp hi
    have hmem : i ∈ s.items := hget ▸ List.getElem_mem hlt
    by_cases hwaits : ∃ name, i.nextSymbol? = some (.intermediate name) ∧ name ∉ seen
    · obtain ⟨name, hx, hseen⟩ := hwaits
      have hcarried := State.carried_carried s.method (f.firstWith i.rest i.lookaheads)
      obtain ⟨grew, hadd, hadded⟩ := State.addAll_eq (g.pairwise_id_alternatives name)
        h.underway.opened hn
        (carried s.method (f.firstWith i.rest i.lookaheads))
      rw [hcarried] at hadd hadded
      have hla : ∀ y ∈ carried s.method (f.firstWith i.rest i.lookaheads),
          y ∈ symbolsAbout g f k := fun y hy =>
        h.underway.mem_firstWith hmem (State.mem_carried.mp hy).2
      have hplace : place + 1 ≤ (s.offered (g.alternatives name)
          (carried s.method (f.firstWith i.rest i.lookaheads))).items.length := by
        simp only [State.offered, List.length_append, List.length_map]
        omega
      refine .inr ⟨⟨of _, place + 1, changed || grew, see ⟨of s, place, changed, seen⟩ name⟩, _,
        grew, ?_, ⟨rfl, h.underway.offered hla hcarried hadded.nodup, hplace⟩, rfl, rfl, hadded⟩
      simp only [Round.advance, hentry, Option.map_some, Entry.nextSymbol?_of, hx, if_neg hseen,
        offer_of (w := ⟨of s, place, changed, seen⟩) rfl, Roster.run_addAll hn hadd]
    · -- there is nothing to be added
      refine .inr ⟨⟨of s, place + 1, changed, seen⟩, s, false, ?_, ⟨rfl, h.underway, hlt⟩, rfl,
        (Bool.or_false _).symm, .refl hn⟩
      simp only [Round.advance, hentry, Option.map_some, Entry.nextSymbol?_of]
      split
      · rename_i name hx
        rw [if_pos (by simpa using fun hseen => hwaits ⟨name, hx, hseen⟩)]
      · rfl

/-! ## The end -/

/-- More than a state on the way from `k` can weigh. -/
def bound (g : Grammar) (f : FirstSets) (k : State) : Nat :=
  (coresAbout g k).length * ((symbolsAbout g f k).length + 1) + 1

/-- What the sweeps have found counts before the place of the present one. Twice, since a sweep that
has found something is followed by another one, which begins at the first place. -/
def progress (g : Grammar) (f : FirstSets) (k : State) (w : Round) : Int :=
  bound g f k * (2 * w.roster.weight - if w.changed then 1 else 0) + w.place

theorem On.weight_lt {w : Round} (h : On g f k w s) :
    w.roster.weight < bound g f k ∧ w.place < bound g f k := by
  have hlength : s.items.length ≤ s.weight := Nat.le_add_right _ _
  have hlt : s.weight < bound g f k := Nat.lt_succ_of_le h.underway.weight_le
  rw [h.roster, Roster.weight_of]
  exact ⟨hlt, (h.place_le.trans hlength).trans_lt hlt⟩

/-- A turn goes on from a state on the way to another one, or closing is over. -/
theorem On.turn {w : Round} (h : On g f k w s) : w.turn g f = .ok none ∨
    ∃ v t, w.turn g f = .ok (some v) ∧ On g f k v t ∧
      progress g f k w + 1 ≤ progress g f k v := by
  have hroster : w.roster.weight = s.weight := by rw [h.roster, Roster.weight_of]
  rcases h.advance with hnone | ⟨v, t, grew, hv, ht, hplace, hchanged, hadded⟩
  · unfold Round.turn
    simp only [hnone, bind, Except.bind]
    by_cases hagain : w.changed ∧ w.roster.method ≠ .lr0
    · refine .inr ⟨{ w with place := 0, changed := false }, s, by rw [if_pos hagain],
        ⟨h.roster, h.underway, Nat.zero_le _⟩, ?_⟩
      have hlt := h.weight_lt.2
      simp only [progress, hagain.1, if_true, Bool.false_eq_true, if_false, Int.mul_sub,
        Int.mul_one]
      omega
    · exact .inl (by rw [if_neg hagain])
  · refine .inr ⟨v, t, by simp only [Round.turn, hv, bind, Except.bind], ht, ?_⟩
    have hweight : v.roster.weight = t.weight := by rw [ht.roster, Roster.weight_of]
    have hle : (2 * w.roster.weight - if w.changed then 1 else 0 : Int) ≤
        2 * v.roster.weight - if v.changed then 1 else 0 := by
      rw [hroster, hweight, hchanged]
      cases grew with
      | false => rw [hadded.eq_of_not_grew, Bool.or_false]
      | true =>
        have hlt := hadded.grew_iff.mp rfl
        rw [Bool.or_true]
        split <;> simp only [if_true] <;> omega
    have hmul := Int.mul_le_mul_of_nonneg_left hle (Int.natCast_nonneg (bound g f k))
    simp only [progress, hplace, Int.natCast_add, Int.natCast_one]
    omega

theorem On.progress_le {w : Round} (h : On g f k w s) :
    progress g f k w ≤ bound g f k * (2 * bound g f k) + bound g f k := by
  obtain ⟨hweight, hplace⟩ := h.weight_lt
  have hle : (2 * w.roster.weight - if w.changed then 1 else 0 : Int) ≤ 2 * bound g f k := by
    split <;> omega
  have hmul := Int.mul_le_mul_of_nonneg_left hle (Int.natCast_nonneg (bound g f k))
  simp only [progress]
  omega

theorem On.next {w v : Round} (h : On g f k w s) (hv : w.turn g f = .ok (some v)) :
    (∃ t, On g f k v t) ∧ progress g f k w + 1 ≤ progress g f k v := by
  rcases h.turn with hnone | ⟨v', t, hv', ht, hle⟩
  · rw [hnone] at hv
    cases hv
  · rw [hv'] at hv
    cases hv
    exact ⟨⟨t, ht⟩, hle⟩

theorem On.turn_ne_error {w : Round} (h : On g f k w s) (e : Fault) : w.turn g f ≠ .error e := by
  rcases h.turn with hnone | ⟨v, t, hv, -⟩
  · simp [hnone]
  · simp [hv]

theorem On.turns {w v : Round} {n : Nat} (h : On g f k w s) (hrun : Turns (Round.turn g f) n w v) :
    ∃ t, On g f k v t :=
  hrun.keeps (p := fun v => ∃ t, On g f k v t) (fun _ _ ⟨_, ha⟩ hb => (ha.next hb).1) ⟨s, h⟩

theorem on_first (hk : k.Orderly) (hopen : k.closed = false) :
    On g f k ⟨of k, 0, false, ∅⟩ k := ⟨rfl, underway_refl hk hopen, Nat.zero_le _⟩

end Round

namespace Roster

open Round (On Underway)

variable {g : Grammar} {f : FirstSets} {k : State} {r : Roster}

/-- Closing an orderly state comes to an end, whatever it is closed with. -/
theorem exists_closes (hk : k.Orderly) : ∃ r, Closes g f (of k) r := by
  unfold Closes
  by_cases hclosed : (of k).closed = true
  · exact ⟨of k, by rw [if_pos hclosed]⟩
  have hopen : k.closed = false := Bool.eq_false_iff.mpr hclosed
  have hstart := Round.on_first (g := g) (f := f) hk hopen
  obtain ⟨n, w, hrun, hlast⟩ := exists_last (p := fun w => ∃ s, On g f k w s)
    (Round.progress g f k) (fun _ _ ⟨_, ha⟩ hb => ha.next hb) (fun _ ⟨_, ha⟩ => ha.progress_le)
    ⟨k, hstart⟩
  obtain ⟨s, hs⟩ := hstart.turns hrun
  have hnone : Round.turn g f w = .ok none := by
    cases hw : Round.turn g f w with
    | error e => exact absurd hw (hs.turn_ne_error e)
    | ok next =>
      cases next with
      | none => rfl
      | some v => exact absurd hw (hlast v)
  exact ⟨{ w.roster with closed := true }, by rw [if_neg hclosed]; exact ⟨n, w, ⟨hrun, hnone⟩, rfl⟩⟩

theorem eq_of_closes (hclosed : k.closed = true) (h : Closes g f (of k) r) : of k = r := by
  have hclosed' : (of k).closed = true := hclosed
  rw [Closes, if_pos hclosed'] at h
  exact h.symm

theorem of_closes (hk : k.Orderly) (hopen : k.closed = false) (h : Closes g f (of k) r) :
    ∃ s, Underway g f k s ∧ r = of { s with closed := true } := by
  have hopen' : ¬(of k).closed = true := by simp [of, hopen]
  rw [Closes, if_neg hopen'] at h
  obtain ⟨n, w, hends, rfl⟩ := h
  obtain ⟨s, hs⟩ := (Round.on_first hk hopen).turns hends.turns
  exact ⟨s, hs.underway, by rw [hs.roster]; rfl⟩

theorem not_closingFails (hk : k.Orderly) (e : Fault) : ¬ClosingFails g f (of k) e := by
  rintro ⟨hopen, n, w, hrun, hfail⟩
  obtain ⟨s, hs⟩ := (Round.on_first hk hopen).turns hrun
  exact hs.turn_ne_error e hfail

end Roster

/-! ## The closed state -/

namespace Round

def of (w : Sweep) : Round := ⟨Roster.of w.state, w.place, w.changed, w.seen⟩

variable {u : Setup} {k s : State}

theorem On.state_eq {w : Sweep} {g : Grammar} {f : FirstSets} (h : On g f k (of w) s) :
    w.state = s := Roster.of_injective h.roster

/-- Adding in place the alternatives that an item waits for. -/
theorem advance_of {w : Sweep} (h : On u.grammar u.first k (of w) s) :
    (of w).advance u.grammar u.first = (w.advance u).map (Option.map of) := by
  obtain rfl := h.state_eq
  have hn := h.underway.orderly.nodup
  have hentry : (of w).roster.entries[(of w).place]? =
      w.state.items[w.place]?.map fun i => (i.core, Entry.of i) := List.getElem?_map
  unfold Round.advance Sweep.advance
  rw [hentry]
  cases hi : w.state.items[w.place]? with
  | none => rfl
  | some i =>
    simp only [Option.map_some, Entry.nextSymbol?_of]
    cases hx : i.nextSymbol? with
    | none => rfl
    | some x =>
      cases x with
      | terminal name => rfl
      | intermediate name =>
        have hseen : (of w).seen = w.seen := rfl
        simp only [hseen]
        by_cases hname : name ∈ w.seen
        · rw [if_pos hname, if_pos hname]
          rfl
        · have hoffer := offer_of (f := u.first) (w := of w) rfl i
          have hid := u.grammar.pairwise_id_alternatives name
          obtain ⟨grew, hadd, hadded⟩ := State.addAll_eq (s := w.state) hid h.underway.opened hn
            (u.first.firstWith i.rest i.lookaheads)
          obtain ⟨grew', hadd', hadded'⟩ := State.addAll_eq (s := w.state) hid h.underway.opened hn
            (State.carried w.state.method (u.first.firstWith i.rest i.lookaheads))
          rw [State.carried_carried] at hadd' hadded'
          -- what has been added tells whether anything has changed
          obtain rfl : grew' = grew :=
            Bool.eq_iff_iff.mpr (hadded'.grew_iff.trans hadded.grew_iff.symm)
          have hroster : (of w).roster = Roster.of w.state := rfl
          rw [if_neg hname, if_neg hname, hoffer, hroster, Roster.run_addAll hn hadd',
            u.alternatives_eq, hadd]
          rfl

theorem turn_of {w : Sweep} (h : On u.grammar u.first k (of w) s) :
    (of w).turn u.grammar u.first = (w.turn u).map (Option.map of) := by
  unfold Round.turn Sweep.turn
  rw [advance_of h]
  cases w.advance u with
  | error e => rfl
  | ok next =>
    cases next with
    | some v => rfl
    | none =>
      have hchanged : (of w).changed = w.changed := rfl
      have hmethod : (of w).roster.method = w.state.method := rfl
      simp only [Except.map, Option.map_none, bind, Except.bind, hchanged, hmethod]
      split <;> rfl

end Round

namespace Roster

variable {u : Setup} {k : State} {r : Roster}

/-- With the FIRST sets of the grammar, closing in place leads to the closed state. -/
theorem closes_iff (hk : k.Orderly) : Closes u.grammar u.first (of k) r ↔ r = of (k.close u) := by
  cases hc : k.closed with
  | true =>
    have hc' : (of k).closed = true := hc
    rw [Closes, if_pos hc', State.close, if_pos hc]
  | false =>
    have hc' : ¬(of k).closed = true := by simp [of, hc]
    obtain ⟨n, w, hends, hw⟩ := State.closes (u := u) hk.nodup hc
    have hfirst : Round.of ⟨k, 0, false, ∅⟩ = ⟨of k, 0, false, ∅⟩ := rfl
    obtain ⟨⟨s, hs⟩, hrun⟩ := hends.turns.map (f := Round.of)
      (p := fun w => ∃ s, Round.On u.grammar u.first k (Round.of w) s)
      (by
        rintro a b ⟨_, ha⟩ hb
        have hturn : (Round.of a).turn u.grammar u.first = .ok (some (Round.of b)) := by
          rw [Round.turn_of ha, hb]
          rfl
        exact ⟨(ha.next hturn).1, hturn⟩)
      ⟨k, Round.on_first hk hc⟩
    rw [hfirst] at hrun
    have hlast : (Round.of w).turn u.grammar u.first = .ok none := by
      rw [Round.turn_of hs, hends.finished]
      rfl
    have hends' : Ends (Round.turn u.grammar u.first) n ⟨of k, 0, false, ∅⟩ (Round.of w) :=
      ⟨hrun, hlast⟩
    rw [Closes, if_neg hc', hw]
    constructor
    · rintro ⟨m, v, hv, rfl⟩
      rw [hv.unique hends']
      rfl
    · rintro rfl
      exact ⟨n, Round.of w, hends', rfl⟩

end Roster

end ShiftReduce
