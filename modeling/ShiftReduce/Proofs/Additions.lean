import ShiftReduce.Proofs.Growth
import ShiftReduce.Proofs.StateView
import ShiftReduce.State.Sweeps

/-!
# Adding items

Adding an item to a state that is not closed either puts it behind the others or unites lookaheads,
and the answer tells whether the state has become heavier. Adding the rules of a list, which have
different numbers, offers the lookaheads to the items that begin them and puts the rest behind.
Drafts come from adding their items one after another.
-/

namespace ShiftReduce.State

/-! ## One item -/

/-- The number of items and of their lookaheads. -/
def weight (s : State) : Nat := s.items.length + s.lookaheadCount

theorem lookaheadCount_eq_sum (s : State) :
    s.lookaheadCount = (s.items.map fun i => i.lookaheads.size).sum := by
  rw [lookaheadCount, List.sum_eq_foldr, List.foldr_map]

/-- Adding has made `t` of `s`, and has answered whether anything changed. -/
structure Added (s t : State) (grew : Bool) : Prop where
  method : t.method = s.method
  closed : t.closed = s.closed
  nodup : t.cores.Nodup
  grows : Grows weight s t
  grew_iff : grew = true ↔ s.weight < t.weight

variable {s t r : State} {a b : Bool}

theorem Added.refl (h : s.cores.Nodup) : Added s s false :=
  ⟨rfl, rfl, h, .refl s, by simp⟩

theorem Added.trans (h1 : Added s t a) (h2 : Added t r b) : Added s r (a || b) where
  method := h2.method.trans h1.method
  closed := h2.closed.trans h1.closed
  nodup := h2.nodup
  grows := h1.grows.trans h2.grows
  grew_iff := by
    have hst := h1.grows.le
    have htr := h2.grows.le
    rw [Bool.or_eq_true, h1.grew_iff, h2.grew_iff]
    omega

theorem Added.eq_of_not_grew (h : Added s t false) : t = s := by
  rcases h.grows with rfl | hlt
  · rfl
  · exact absurd (h.grew_iff.mpr hlt) (by simp)

theorem cores_unite (s : State) (c : Core) (la : OrderedSet Symbol) :
    (s.unite c la).cores = s.cores := by
  rw [cores, cores, unite, List.map_map]
  refine List.map_congr_left fun i _ => ?_
  simp only [Function.comp_apply]
  split <;> rfl

/-- Uniting lookaheads that are all there changes nothing. -/
theorem unite_eq_self (hn : s.cores.Nodup) {i : Item} (hi : i ∈ s.items) {la : OrderedSet Symbol}
    (h : i.unite la = i) : s.unite i.core la = s := by
  have hitems : ∀ j ∈ s.items, (if j.core = i.core then j.unite la else j) = j := by
    intro j hj
    split
    · rename_i hc
      obtain rfl := List.inj_on_of_nodup_map hn hj hi hc
      exact h
    · rfl
  rw [unite, List.map_congr_left hitems, List.map_id']

theorem weight_lt_weight_unite {i : Item} (hi : i ∈ s.items) {la : OrderedSet Symbol}
    (h : i.lookaheads.size < (i.unite la).lookaheads.size) :
    s.weight < (s.unite i.core la).weight := by
  have hsize : ∀ j ∈ s.items, j.lookaheads.size ≤
      (if j.core = i.core then j.unite la else j).lookaheads.size := by
    intro j _
    split
    · exact (OrderedSet.grows_union j.lookaheads la).le
    · exact Nat.le_refl _
  have hself : (if i.core = i.core then i.unite la else i) = i.unite la := if_pos rfl
  simp only [weight, lookaheadCount_eq_sum, unite, List.length_map, List.map_map]
  refine Nat.add_lt_add_left (List.sum_lt_sum _ _ hsize ⟨i, hi, ?_⟩) _
  rw [hself]
  exact h

theorem added_unite (hn : s.cores.Nodup) {i : Item} (hi : i ∈ s.items) (la : OrderedSet Symbol) :
    Added s (s.unite i.core la) (decide (i.lookaheads.size < (i.unite la).lookaheads.size)) := by
  rcases OrderedSet.grows_union i.lookaheads la with he | hlt
  · have hself : i.unite la = i := by rw [Item.unite, ← he]
    rw [unite_eq_self hn hi hself, hself, decide_eq_false (Nat.lt_irrefl _)]
    exact .refl hn
  · have hweight := weight_lt_weight_unite (s := s) hi hlt
    have hnodup : (s.unite i.core la).cores.Nodup := by
      rw [cores_unite]
      exact hn
    exact ⟨rfl, rfl, hnodup, .inr hweight, iff_of_true (decide_eq_true hlt) hweight⟩

theorem add_of_mem (hn : s.cores.Nodup) {i : Item} (hi : i ∈ s.items) {q : Rule} {dot : Nat}
    (hc : i.core = ⟨q.id, dot⟩) (la : OrderedSet Symbol) :
    ∃ grew, s.add q dot la = .ok (s.unite ⟨q.id, dot⟩ (carried s.method la), grew) ∧
      Added s (s.unite ⟨q.id, dot⟩ (carried s.method la)) grew := by
  have hitem : s.item? ⟨q.id, dot⟩ = some i := by
    cases hf : s.item? ⟨q.id, dot⟩ with
    | none => exact absurd hc (by simpa using List.find?_eq_none.mp hf i hi)
    | some j =>
      have hj : j.core = ⟨q.id, dot⟩ := by simpa using List.find?_some hf
      rw [List.inj_on_of_nodup_map hn (List.mem_of_find?_eq_some hf) hi (hj.trans hc.symm)]
  have hadded := added_unite hn hi (carried s.method la)
  rw [hc] at hadded
  exact ⟨_, by simp only [add, hitem, hc], hadded⟩

theorem item?_eq_none {c : Core} (h : c ∉ s.cores) : s.item? c = none := by
  rw [item?, List.find?_eq_none]
  intro i hi he
  exact h (mem_cores.mpr ⟨i, hi, by simpa using he⟩)

theorem add_of_not_mem (hopen : s.closed = false) (hn : s.cores.Nodup) {q : Rule} {dot : Nat}
    (hc : ⟨q.id, dot⟩ ∉ s.cores) (hd : dot ≤ q.right.length) (la : OrderedSet Symbol) :
    s.add q dot la =
        .ok ({ s with items := s.items ++ [⟨q, dot, carried s.method la, none, hd⟩] }, true) ∧
      Added s { s with items := s.items ++ [⟨q, dot, carried s.method la, none, hd⟩] } true := by
  have hitem := item?_eq_none hc
  have hlt : s.weight < State.weight
      { s with items := s.items ++ [⟨q, dot, carried s.method la, none, hd⟩] } := by
    simp only [weight, lookaheadCount_eq_sum, List.length_append, List.map_append, List.sum_append,
      List.length_singleton]
    omega
  refine ⟨?_, rfl, rfl, ?_, .inr hlt, iff_of_true rfl hlt⟩
  · simp [add, hitem, hopen, Item.new, hd, bind, Except.bind]
  · have hcores : State.cores { s with items :=
        s.items ++ [⟨q, dot, carried s.method la, none, hd⟩] } = s.cores ++ [⟨q.id, dot⟩] := by
      simp [cores, Item.core]
    rw [hcores, ← List.concat_eq_append]
    exact hn.concat hc

/-- Adding either unites lookaheads or puts an item behind the others. -/
theorem add_eq_ok (hn : s.cores.Nodup) {q : Rule} {dot : Nat} {la : OrderedSet Symbol}
    (h : s.add q dot la = .ok (t, a)) : Added s t a ∧
      (t = s.unite ⟨q.id, dot⟩ (carried s.method la) ∨ s.closed = false ∧ ∃ hd,
        t = { s with items := s.items ++ [⟨q, dot, carried s.method la, none, hd⟩] }) := by
  by_cases hc : ⟨q.id, dot⟩ ∈ s.cores
  · obtain ⟨i, hi, hcore⟩ := mem_cores.mp hc
    obtain ⟨grew, hadd, hadded⟩ := add_of_mem hn hi hcore la
    rw [hadd] at h
    cases h
    exact ⟨hadded, .inl rfl⟩
  · have hitem := item?_eq_none hc
    by_cases hopen : s.closed = false
    · by_cases hd : dot ≤ q.right.length
      · obtain ⟨hadd, hadded⟩ := add_of_not_mem hopen hn hc hd la
        rw [hadd] at h
        cases h
        exact ⟨hadded, .inr ⟨hopen, hd, rfl⟩⟩
      · simp [add, hitem, hopen, Item.new, hd, bind, Except.bind] at h
    · simp [add, hitem, hopen] at h

/-! ## Orderly states -/

/-- The cores are distinct, and the items carry the lookaheads of the method. -/
structure Orderly (s : State) : Prop where
  nodup : s.cores.Nodup
  carries : ∀ i ∈ s.items, carried s.method i.lookaheads = i.lookaheads

theorem carried_carried (m : Method) (la : OrderedSet Symbol) :
    carried m (carried m la) = carried m la := by
  cases m <;> rfl

theorem carried_union {m : Method} {a b : OrderedSet Symbol} (ha : carried m a = a)
    (hb : carried m b = b) : carried m (a.union b) = a.union b := by
  cases m with
  | lr0 =>
    rw [← ha, ← hb]
    rfl
  | lr1 => rfl
  | lalr1 => rfl

theorem Orderly.add (hs : s.Orderly) {q : Rule} {dot : Nat} {la : OrderedSet Symbol}
    (h : s.add q dot la = .ok (t, a)) : t.Orderly := by
  obtain ⟨hadded, rfl | ⟨-, hd, rfl⟩⟩ := add_eq_ok hs.nodup h
  · refine ⟨hadded.nodup, fun k hk => ?_⟩
    obtain ⟨i, hi, rfl⟩ := List.mem_map.mp hk
    split
    · exact carried_union (hs.carries i hi) (carried_carried s.method la)
    · exact hs.carries i hi
  · refine ⟨hadded.nodup, fun k hk => ?_⟩
    rcases List.mem_append.mp hk with hk | hk
    · exact hs.carries k hk
    · rw [List.mem_singleton.mp hk]
      exact carried_carried s.method la

/-! ## The rules of a list -/

/-- An item that begins one of the rules gets the lookaheads. -/
def offerTo (rules : List Rule) (la : OrderedSet Symbol) (i : Item) : Item :=
  if i.dot = 0 ∧ i.rule.id ∈ rules.map Rule.id then i.unite la else i

/-- What adding the rules makes of a state. -/
def offered (s : State) (rules : List Rule) (la : OrderedSet Symbol) : State :=
  { s with
    items := s.items.map (offerTo rules la) ++
      (rules.filter fun r => (⟨r.id, 0⟩ : Core) ∉ s.cores).map (Item.ofRule · la) }

theorem offered_nil (s : State) (la : OrderedSet Symbol) : s.offered [] la = s := by
  have hitems : s.items.map (offerTo [] la) = s.items :=
    (List.map_congr_left fun i _ => by simp [offerTo]).trans (List.map_id _)
  simp [offered, hitems]

theorem offered_cons_of_mem {q : Rule} {rules : List Rule} {la : OrderedSet Symbol}
    (hid : ∀ p ∈ rules, q.id ≠ p.id) (hc : ⟨q.id, 0⟩ ∈ s.cores) :
    (s.unite ⟨q.id, 0⟩ la).offered rules la = s.offered (q :: rules) la := by
  have hfilter : (q :: rules).filter (fun r => (⟨r.id, 0⟩ : Core) ∉ s.cores) =
      rules.filter fun r => (⟨r.id, 0⟩ : Core) ∉ s.cores :=
    List.filter_cons_of_neg (by simpa using hc)
  simp only [offered, cores_unite, hfilter]
  simp only [unite, List.map_map]
  have hitems : ∀ i ∈ s.items, (offerTo rules la ∘ fun i =>
      if i.core = ⟨q.id, 0⟩ then i.unite la else i) i = offerTo (q :: rules) la i := by
    intro i _
    simp only [Function.comp_apply, offerTo, Item.core, Core.mk.injEq, List.map_cons, List.mem_cons]
    by_cases hq : i.rule.id = q.id
    · have hnot : q.id ∉ rules.map Rule.id := by
        intro hmem
        obtain ⟨p, hp, he⟩ := List.mem_map.mp hmem
        exact hid p hp he.symm
      by_cases hd : i.dot = 0 <;> simp [hq, hd, Item.unite, hnot]
    · simp [hq]
  rw [List.map_congr_left hitems]

theorem offered_cons_of_not_mem {q : Rule} {rules : List Rule} {la : OrderedSet Symbol}
    (hid : ∀ p ∈ rules, q.id ≠ p.id) (hc : ⟨q.id, 0⟩ ∉ s.cores) :
    State.offered { s with items := s.items ++ [.ofRule q la] } rules la =
      s.offered (q :: rules) la := by
  have hcores : State.cores { s with items := s.items ++ [.ofRule q la] } =
      s.cores ++ [⟨q.id, 0⟩] := by
    simp [cores, Item.core, Item.ofRule]
  have hnot : q.id ∉ rules.map Rule.id := by
    intro hmem
    obtain ⟨p, hp, he⟩ := List.mem_map.mp hmem
    exact hid p hp he.symm
  have hfilter : (q :: rules).filter (fun r => (⟨r.id, 0⟩ : Core) ∉ s.cores) =
      q :: rules.filter fun r => (⟨r.id, 0⟩ : Core) ∉ s.cores ++ [⟨q.id, 0⟩] := by
    rw [List.filter_cons_of_pos (by simpa using hc)]
    refine congrArg (q :: ·) (List.filter_congr fun p hp => ?_)
    simp [(hid p hp).symm]
  have hitems : ∀ i ∈ s.items, offerTo rules la i = offerTo (q :: rules) la i := by
    intro i hi
    have hne : ¬(i.dot = 0 ∧ i.rule.id = q.id) := fun h =>
      hc (mem_cores.mpr ⟨i, hi, by rw [Item.core, h.1, h.2]⟩)
    by_cases hd : i.dot = 0
    · have hq : i.rule.id ≠ q.id := fun he => hne ⟨hd, he⟩
      simp [offerTo, hd, hq]
    · simp [offerTo, hd]
  simp only [offered, hcores, hfilter, List.map_append, List.map_congr_left hitems, List.map_cons,
    List.map_nil, List.append_assoc]
  have hself : offerTo rules la (.ofRule q la) = .ofRule q la := if_neg fun h => hnot h.2
  rw [hself]
  rfl

theorem addAll_eq {rules : List Rule} (hid : rules.Pairwise (·.id ≠ ·.id))
    (hopen : s.closed = false) (hn : s.cores.Nodup) (la : OrderedSet Symbol) :
    ∃ grew, s.addAll rules la = .ok (s.offered rules (carried s.method la), grew) ∧
      Added s (s.offered rules (carried s.method la)) grew := by
  have hloop (rules : List Rule) (hid : rules.Pairwise (·.id ≠ ·.id)) (s : State)
      (hopen : s.closed = false) (hn : s.cores.Nodup) (b : Bool) : ∃ grew,
      rules.foldlM (fun (p : State × Bool) r => do
        let q ← p.1.add r 0 la
        Except.ok (q.1, p.2 || q.2)) (s, b) =
          .ok (s.offered rules (carried s.method la), b || grew) ∧
      Added s (s.offered rules (carried s.method la)) grew := by
    induction rules generalizing s b with
    | nil =>
      rw [offered_nil]
      exact ⟨false, by simp [pure, Except.pure], .refl hn⟩
    | cons q rules ih =>
      obtain ⟨hq, hrest⟩ := List.pairwise_cons.mp hid
      rw [List.foldlM_cons]
      by_cases hc : ⟨q.id, 0⟩ ∈ s.cores
      · obtain ⟨i, hi, hcore⟩ := mem_cores.mp hc
        obtain ⟨g, hadd, hadded⟩ := add_of_mem hn hi hcore la
        obtain ⟨g', hfold, hadded'⟩ := ih hrest _ (hadded.closed.trans hopen) hadded.nodup (b || g)
        simp only [hadd, bind, Except.bind] at hfold ⊢
        rw [hadded.method, offered_cons_of_mem hq hc] at hfold hadded'
        exact ⟨g || g', by rw [hfold, Bool.or_assoc], hadded.trans hadded'⟩
      · obtain ⟨hadd, hadded⟩ := add_of_not_mem hopen hn hc (Nat.zero_le _) la
        obtain ⟨g', hfold, hadded'⟩ :=
          ih hrest _ (hadded.closed.trans hopen) hadded.nodup (b || true)
        simp only [hadd, bind, Except.bind] at hfold ⊢
        have hcons := @offered_cons_of_not_mem s q rules (carried s.method la) hq hc
        rw [hadded.method] at hfold hadded'
        simp only [Item.ofRule] at hcons
        rw [hcons] at hfold hadded'
        exact ⟨true || g', by rw [hfold, Bool.or_assoc], hadded.trans hadded'⟩
  exact hloop rules hid s hopen hn false

/-! ## Drafts -/

/-- No item of a draft is refused, or united with another one. -/
theorem Orderly.gathered (hs : s.Orderly) (hnumber : s.number = none) (hopen : s.closed = false)
    (hnext : ∀ i ∈ s.items, i.next = none) : s.Gathered := by
  have hloop (rest done : List Item) (hsplit : s.items = done ++ rest) :
      rest.foldlM (fun t i => Prod.fst <$> t.add i.rule i.dot i.lookaheads)
        { s with items := done } = .ok s := by
    induction rest generalizing done with
    | nil =>
      rw [List.append_nil] at hsplit
      rw [List.foldlM_nil, ← hsplit]
      rfl
    | cons i rest ih =>
      have hi : i ∈ s.items := by
        rw [hsplit]
        exact List.mem_append_right _ List.mem_cons_self
      have hcores : s.cores = done.map Item.core ++ i.core :: rest.map Item.core := by
        rw [cores, hsplit, List.map_append, List.map_cons]
      obtain ⟨hdone, -, hnot⟩ := List.nodup_append.mp (hcores ▸ hs.nodup)
      have hadd := (add_of_not_mem (s := { s with items := done }) hopen hdone
        (fun hc => hnot _ hc _ List.mem_cons_self rfl) i.dot_le i.lookaheads).1
      have hself : (⟨i.rule, i.dot, carried s.method i.lookaheads, none, i.dot_le⟩ : Item) = i := by
        rw [hs.carries i hi, ← hnext i hi]
      rw [hself] at hadd
      rw [List.foldlM_cons, hadd]
      exact ih (done ++ [i]) (by rw [hsplit, List.append_assoc, List.singleton_append])
  have hempty : { s with items := [] } = draft s.method := by
    rw [draft, hnumber, hopen]
  rw [Gathered, ← hempty]
  exact hloop s.items [] rfl

end ShiftReduce.State
