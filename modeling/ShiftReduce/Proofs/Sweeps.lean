import ShiftReduce.Proofs.Additions
import ShiftReduce.Proofs.ClosureOrder

/-!
# Sweeps end in the closed state

Closing a state item by item ends, no item is refused, and the result is the closed state: a family
stands for the state that holds its names' alternatives, and expanding an item in a pass is adding
its alternatives in a sweep.
-/

namespace ShiftReduce

namespace State

/-! ## Families as states -/

/-- The state that a family stands for: the draft and the alternatives of the names found. -/
def rendered (u : Setup) (s : State) (found : Family String Symbol) : State :=
  { s with
    items := s.items.map (adjust u found) ++ found.keys.toList.flatMap (added u s.begun found) }

variable {u : Setup} {s : State} {found : Family String Symbol} {name : String} {i : Item}

theorem close_eq (hopen : s.closed = false) :
    s.close u = { rendered u s (s.expansions u) with closed := true } := by
  simp [close, hopen, rendered]

/-- What the family says of an item goes by the number of its rule. -/
theorem adjust_eq {r : Rule} (h : u.grammar.rule i.rule.id = .ok r) :
    adjust u found i = if i.dot = 0 then i.unite (found.get r.left) else i := by
  rw [adjust, h]

theorem adjust_empty : adjust u ∅ i = i := by
  cases h : u.grammar.rule i.rule.id with
  | ok r => rw [adjust_eq h, Family.get_empty, Item.unite, OrderedSet.union_empty, ite_self]
  | error e => rw [adjust, h, ite_self]

theorem rendered_empty : rendered u s ∅ = s := by
  have hitems : s.items.map (adjust u ∅) = s.items :=
    (List.map_congr_left fun i _ => adjust_empty).trans (List.map_id _)
  have hkeys : (∅ : Family String Symbol).keys.toList = [] := rfl
  simp only [rendered, hitems, hkeys, List.flatMap_nil, List.append_nil]

/-- Rules are told apart by their numbers, so an alternative is known by its left side. -/
theorem id_mem_alternatives_iff {id : RuleId} {q : Rule} (h : u.grammar.rule id = .ok q) :
    id ∈ (u.alternatives name).map Rule.id ↔ q.left = name := by
  obtain ⟨hq, rfl⟩ := Grammar.rule_eq_ok_iff.mp h
  rw [u.alternatives_eq, List.mem_map]
  constructor
  · rintro ⟨p, hp, hid⟩
    obtain ⟨hp, hleft⟩ := Grammar.mem_alternatives.mp hp
    rw [← Grammar.eq_of_id_eq hp hq hid]
    exact hleft
  · exact fun hleft => ⟨q, Grammar.mem_alternatives.mpr ⟨hq, hleft⟩, rfl⟩

theorem mem_alternatives_iff {q : Rule} :
    q ∈ u.alternatives name ↔ q ∈ u.grammar.rules ∧ q.left = name := by
  rw [u.alternatives_eq, Grammar.mem_alternatives]

theorem mem_cores_rendered {q : Rule} (hq : q ∈ u.grammar.rules) :
    ⟨q.id, 0⟩ ∈ (rendered u s found).cores ↔ q.id ∈ s.begun ∨ q.left ∈ found.keys := by
  simp only [cores, rendered, List.map_append, List.map_map, List.mem_append]
  have hdraft : (s.items.map (Item.core ∘ adjust u found)) = s.cores :=
    List.map_congr_left fun i _ => core_adjust
  rw [hdraft]
  constructor
  · rintro (h | h)
    · exact .inl (mem_begun h)
    · obtain ⟨k, hk, hcore⟩ := List.mem_map.mp h
      obtain ⟨n, hn, hk⟩ := List.mem_flatMap.mp hk
      obtain ⟨p, hp, rfl⟩ := List.mem_map.mp hk
      obtain ⟨hp, hleft⟩ := mem_alternatives_iff.mp (List.mem_filter.mp hp).1
      have he : p = q := Grammar.eq_of_id_eq hp hq (congrArg Core.rule hcore)
      rw [← he, hleft]
      exact .inr hn
  · intro h
    by_cases hc : ⟨q.id, 0⟩ ∈ s.cores
    · exact .inl hc
    · have hb := not_mem_begun hc
      refine .inr (List.mem_map.mpr ⟨.ofRule q (found.get q.left), ?_, rfl⟩)
      refine List.mem_flatMap.mpr ⟨q.left, h.resolve_left hb, List.mem_map_of_mem ?_⟩
      exact List.mem_filter.mpr ⟨mem_alternatives_iff.mpr ⟨hq, rfl⟩, by simpa using hb⟩

/-- An item gets the lookaheads if it begins an alternative of the name. -/
theorem offerTo_alternatives {r : Rule} (h : u.grammar.rule i.rule.id = .ok r)
    (la : OrderedSet Symbol) : offerTo (u.alternatives name) la i =
      if i.dot = 0 ∧ r.left = name then i.unite la else i := by
  simp only [offerTo, id_mem_alternatives_iff h]

/-- The number of an alternative is that of a rule of the grammar. -/
theorem offerTo_unknown {e : Fault} (h : u.grammar.rule i.rule.id = .error e)
    (la : OrderedSet Symbol) : offerTo (u.alternatives name) la i = i := by
  refine if_neg fun ⟨_, hid⟩ => ?_
  obtain ⟨q, hq, hid⟩ := List.mem_map.mp hid
  rw [Grammar.rule_eq_ok_iff.mpr ⟨(mem_alternatives_iff.mp hq).1, hid⟩] at h
  cases h

theorem offerTo_adjust (la : OrderedSet Symbol) :
    offerTo (u.alternatives name) la (adjust u found i) =
      adjust u (found.extend name la) i := by
  cases h : u.grammar.rule i.rule.id with
  | error e =>
    rw [offerTo_unknown (by rwa [rule_adjust]), adjust, adjust, h]
  | ok r =>
    rw [offerTo_alternatives (by rwa [rule_adjust]), dot_adjust, adjust_eq h, adjust_eq h]
    by_cases hd : i.dot = 0
    · by_cases hleft : r.left = name
      · rw [if_pos ⟨hd, hleft⟩, if_pos hd, if_pos hd, Item.unite_unite, hleft,
          Family.get_extend_self]
      · rw [if_neg (fun h => hleft h.2), if_pos hd, if_pos hd, Family.get_extend_of_ne found hleft]
    · rw [if_neg (fun h => hd h.1), if_neg hd, if_neg hd]

theorem offerTo_added (begun : List RuleId) (la : OrderedSet Symbol) (n : String) :
    (added u begun found n).map (offerTo (u.alternatives name) la) =
      added u begun (found.extend name la) n := by
  rw [added, added, List.map_map]
  refine List.map_congr_left fun q hq => ?_
  obtain ⟨hq, hleft⟩ := mem_alternatives_iff.mp (List.mem_filter.mp hq).1
  rw [Function.comp_apply, offerTo_alternatives (r := q) (Grammar.rule_id hq)]
  by_cases hn : n = name
  · rw [if_pos ⟨rfl, hleft.trans hn⟩, hn, Family.get_extend_self]
    rfl
  · rw [if_neg fun h => hn (hleft.symm.trans h.2), Family.get_extend_of_ne found hn]

/-- The alternatives of a name are all there if it has been found, and otherwise those are missing
that the draft does not begin. -/
theorem missing_rendered (la : OrderedSet Symbol) :
    ((u.alternatives name).filter fun r => (⟨r.id, 0⟩ : Core) ∉ (rendered u s found).cores).map
      (Item.ofRule · la) =
      if name ∈ found.keys then [] else added u s.begun (found.extend name la) name := by
  split
  · rename_i hname
    rw [List.map_eq_nil_iff, List.filter_eq_nil_iff]
    intro q hq
    obtain ⟨hq, hleft⟩ := mem_alternatives_iff.mp hq
    simpa using (mem_cores_rendered hq).mpr (.inr (hleft ▸ hname))
  · rename_i hname
    rw [added, Family.get_extend_self, Family.get_eq_empty hname, OrderedSet.empty_union]
    refine congrArg (List.map _) (List.filter_congr fun q hq => ?_)
    obtain ⟨hq, hleft⟩ := mem_alternatives_iff.mp hq
    simp only [mem_cores_rendered hq, hleft, hname, or_false]

/-- Adding the alternatives of a name gives the state of the family that is extended by it. -/
theorem offered_rendered (la : OrderedSet Symbol) :
    (rendered u s found).offered (u.alternatives name) la =
      rendered u s (found.extend name la) := by
  have hdraft : (s.items.map (adjust u found)).map (offerTo (u.alternatives name) la) =
      s.items.map (adjust u (found.extend name la)) := by
    rw [List.map_map]
    exact List.map_congr_left fun i _ => offerTo_adjust la
  have hfound : (found.keys.toList.flatMap (added u s.begun found)).map
      (offerTo (u.alternatives name) la) ++
      (if name ∈ found.keys then [] else added u s.begun (found.extend name la) name) =
      (found.extend name la).keys.toList.flatMap (added u s.begun (found.extend name la)) := by
    rw [List.map_flatMap, Family.keys_extend]
    simp only [offerTo_added]
    split
    · rename_i hname
      rw [List.append_nil, OrderedSet.insert_of_mem hname]
    · rename_i hname
      rw [OrderedSet.toList_insert_of_not_mem hname, List.flatMap_append, List.flatMap_singleton]
  rw [offered, missing_rendered]
  simp only [rendered, List.map_append, hdraft, List.append_assoc, hfound]

end State

/-! ## Sweeps -/

namespace State

variable {u : Setup} {s : State} {found found' : Family String Symbol} {name : String} {i : Item}
  {place : Nat} {b : Bool}

theorem expand_of_intermediate {m : Method} (h : i.nextSymbol? = some (.intermediate name)) :
    expand u m found i = found.extend name (carried m (u.first.firstWith i.rest i.lookaheads)) := by
  rw [expand, h]

theorem expand_of_ne {m : Method} (h : ∀ name, i.nextSymbol? ≠ some (.intermediate name)) :
    expand u m found i = found := by
  unfold expand
  split
  · exact absurd ‹_› (h _)
  · rfl

/-- A sweep at a place, when the family stands for what has been added. -/
def sweepAt (u : Setup) (s : State) (found : Family String Symbol) (place : Nat) (changed : Bool) :
    Sweep :=
  ⟨rendered u s found, place, changed, if s.method = .lr0 then found.keys else ∅⟩

theorem see_sweepAt : (sweepAt u s found place b).see name =
    if s.method = .lr0 then found.keys.insert name else ∅ := by
  have hmethod : (sweepAt u s found place b).state.method = s.method := rfl
  rw [Sweep.see, hmethod, sweepAt]
  split <;> rfl

/-- The item at the place is expanded. -/
theorem advance_sweepAt (hopen : s.closed = false) (hn : (rendered u s found).cores.Nodup)
    (hi : (rendered u s found).items[place]? = some i) :
    ∃ grew, Sweep.advance u (sweepAt u s found place b) =
        .ok (some (sweepAt u s (expand u s.method found i) (place + 1) (b || grew))) ∧
      Added (rendered u s found) (rendered u s (expand u s.method found i)) grew := by
  have hplace : (sweepAt u s found place b).state.items[(sweepAt u s found place b).place]? =
      some i := hi
  by_cases hx : ∃ name, i.nextSymbol? = some (.intermediate name)
  · obtain ⟨name, hx⟩ := hx
    by_cases hseen : name ∈ (sweepAt u s found place b).seen
    · -- the name is passed over: there are no lookaheads to be added for it
      have hlr0 : s.method = .lr0 ∧ name ∈ found.keys := by
        by_cases hm : s.method = .lr0
        · simp only [sweepAt, if_pos hm] at hseen
          exact ⟨hm, hseen⟩
        · simp only [sweepAt, if_neg hm] at hseen
          exact absurd hseen (OrderedSet.not_mem_empty name)
      have hsame : expand u s.method found i = found := by
        rw [expand_of_intermediate hx, hlr0.1]
        exact Family.extend_empty hlr0.2
      rw [hsame]
      refine ⟨false, ?_, .refl hn⟩
      simp only [Sweep.advance, hplace, hx, if_pos hseen, Bool.or_false]
      rfl
    · have hid : (u.alternatives name).Pairwise (·.id ≠ ·.id) := by
        rw [u.alternatives_eq]
        exact u.grammar.pairwise_id_alternatives name
      obtain ⟨grew, hadd, hadded⟩ := addAll_eq (s := rendered u s found) hid hopen hn
        (u.first.firstWith i.rest i.lookaheads)
      have hmethod : (rendered u s found).method = s.method := rfl
      rw [offered_rendered, hmethod, ← expand_of_intermediate hx] at hadd hadded
      have hadd' : (sweepAt u s found place b).state.addAll (u.alternatives name)
          (u.first.firstWith i.rest i.lookaheads) =
            .ok (rendered u s (expand u s.method found i), grew) := hadd
      refine ⟨grew, ?_, hadded⟩
      simp only [Sweep.advance, hplace, hx, if_neg hseen, hadd', see_sweepAt, bind, Except.bind]
      rw [sweepAt, sweepAt, expand_of_intermediate hx, Family.keys_extend]
  · have hx := not_exists.mp hx
    rw [expand_of_ne hx]
    refine ⟨false, ?_, .refl hn⟩
    simp only [Sweep.advance, hplace, Bool.or_false]
    rfl

/-- The names that the items before a place wait for have been found. -/
def Met (u : Setup) (s : State) (found : Family String Symbol) (place : Nat) : Prop :=
  ∀ k i name, k < place → (rendered u s found).items[k]? = some i →
    i.nextSymbol? = some (.intermediate name) → name ∈ found.keys

/-- What items wait for does not depend on their lookaheads. -/
theorem nextSymbol?_rendered (hkeys : found.keys.toList <+: found'.keys.toList) {k : Nat}
    {i j : Item} (hi : (rendered u s found).items[k]? = some i)
    (hj : (rendered u s found').items[k]? = some j) : j.nextSymbol? = i.nextSymbol? := by
  have hmap (found : Family String Symbol) : (rendered u s found).items.map Item.nextSymbol? =
      s.items.map Item.nextSymbol? ++
        found.keys.toList.flatMap fun name =>
          (added u s.begun ∅ name).map Item.nextSymbol? := by
    have hdraft : s.items.map (Item.nextSymbol? ∘ adjust u found) = s.items.map Item.nextSymbol? :=
      List.map_congr_left fun i _ => Item.nextSymbol?_congr rule_adjust dot_adjust
    have hadded (name : String) : (added u s.begun found name).map Item.nextSymbol? =
        (added u s.begun ∅ name).map Item.nextSymbol? := by
      rw [added, added, List.map_map, List.map_map]
      rfl
    simp only [rendered, List.map_append, List.map_map, hdraft, List.map_flatMap, hadded]
  obtain ⟨rest, hrest⟩ := hkeys
  have hprefix : (rendered u s found).items.map Item.nextSymbol? <+:
      (rendered u s found').items.map Item.nextSymbol? := by
    rw [hmap, hmap, ← hrest, List.flatMap_append, ← List.append_assoc]
    exact List.prefix_append _ _
  have hk := List.getElem?_map (f := Item.nextSymbol?) (l := (rendered u s found).items) (i := k)
  have hk' := List.getElem?_map (f := Item.nextSymbol?) (l := (rendered u s found').items) (i := k)
  rw [hi] at hk
  rw [hj] at hk'
  obtain ⟨hlt, hget⟩ := List.getElem?_eq_some_iff.mp hk
  have hsome := List.prefix_iff_getElem?.mp hprefix k hlt
  rw [hget] at hsome
  exact Option.some.inj (hk'.symm.trans hsome)

/-- A sweep that has come from the first place to the second one has turned the state of the family
`found` into that of `found'`. -/
def Swept (u : Setup) (s : State) (found : Family String Symbol) (place : Nat)
    (found' : Family String Symbol) (place' : Nat) : Prop :=
  (rendered u s found).cores.Nodup → ∀ b, ∃ n grew,
    Turns (Sweep.advance u) n (sweepAt u s found place b) (sweepAt u s found' place' (b || grew)) ∧
      Added (rendered u s found) (rendered u s found') grew ∧
      (Met u s found place → Met u s found' place')

theorem Swept.refl (found : Family String Symbol) (place : Nat) :
    Swept u s found place found place := fun hn b =>
  ⟨0, false, by rw [Bool.or_false]; exact .refl _, .refl hn, id⟩

theorem Swept.trans {found'' : Family String Symbol} {place' place'' : Nat}
    (h1 : Swept u s found place found' place') (h2 : Swept u s found' place' found'' place'') :
    Swept u s found place found'' place'' := by
  intro hn b
  obtain ⟨n, g, hturns, hadded, hmet⟩ := h1 hn b
  obtain ⟨m, g', hturns', hadded', hmet'⟩ := h2 hadded.nodup (b || g)
  rw [Bool.or_assoc] at hturns'
  exact ⟨n + m, g || g', hturns.trans hturns', hadded.trans hadded', hmet' ∘ hmet⟩

theorem swept_item (hopen : s.closed = false) (hi : (rendered u s found).items[place]? = some i) :
    Swept u s found place (expand u s.method found i) (place + 1) := by
  intro hn b
  obtain ⟨grew, hadvance, hadded⟩ := advance_sweepAt (b := b) hopen hn hi
  have hwithin : found.Within (expand u s.method found i) := within_expand
  refine ⟨1, grew, .single hadvance, hadded, fun hmet k j name hk hj hx => ?_⟩
  rcases Nat.lt_succ_iff_lt_or_eq.mp hk with hk | rfl
  · have hlt : k < (rendered u s found).items.length :=
      hk.trans (List.getElem?_eq_some_iff.mp hi).1
    have hold := List.getElem?_eq_getElem hlt
    rw [nextSymbol?_rendered hwithin.keys hold hj] at hx
    exact hwithin.mem_keys (hmet k _ name hk hold hx)
  · rw [nextSymbol?_rendered hwithin.keys hi hj] at hx
    exact mem_keys_expand.mpr (.inr hx)

/-- The items of the draft are expanded one after another. -/
theorem swept_draft (hopen : s.closed = false) {done rest : List Item}
    (hsplit : s.items = done ++ rest) :
    Swept u s found done.length
      (rest.foldl (fun found i => expand u s.method found (adjust u found i)) found)
      s.items.length := by
  induction rest generalizing done found with
  | nil =>
    rw [hsplit, List.append_nil]
    exact .refl _ _
  | cons i rest ih =>
    have hi : (rendered u s found).items[done.length]? = some (adjust u found i) := by
      simp [rendered, hsplit]
    have hnext := @ih (expand u s.method found (adjust u found i)) (done ++ [i]) (by simp [hsplit])
    rw [List.length_append, List.length_singleton] at hnext
    exact (swept_item hopen hi).trans hnext

/-! ### The alternatives of the names -/

/-- The alternatives of a name that closing adds. -/
def missing (u : Setup) (s : State) (name : String) : List Rule :=
  (u.alternatives name).filter (·.id ∉ s.begun)

/-- The place behind the alternatives of some names. -/
def offset (u : Setup) (s : State) (names : List String) : Nat :=
  s.items.length + (names.flatMap (missing u s)).length

theorem offset_append_singleton (names : List String) (name : String) :
    offset u s (names ++ [name]) = offset u s names + (missing u s name).length := by
  simp [offset, Nat.add_assoc]

theorem length_flatMap_added (names : List String) :
    (names.flatMap (added u s.begun found)).length = (names.flatMap (missing u s)).length := by
  induction names with
  | nil => rfl
  | cons name names ih =>
    simp only [List.flatMap_cons, List.length_append, ih]
    simp [added, missing]

theorem length_items_rendered :
    (rendered u s found).items.length = offset u s found.keys.toList := by
  simp only [rendered, List.length_append, List.length_map, length_flatMap_added, offset]

theorem getElem?_rendered {names rest : List String} {done : List Rule} {q : Rule}
    {rules : List Rule} (hkeys : found.keys.toList = names ++ name :: rest)
    (hsplit : missing u s name = done ++ q :: rules) :
    (rendered u s found).items[offset u s names + done.length]? =
      some (.ofRule q (found.get name)) := by
  have hadded : added u s.begun found name =
      done.map (Item.ofRule · (found.get name)) ++
        .ofRule q (found.get name) :: rules.map (Item.ofRule · (found.get name)) := by
    have hmap := congrArg (List.map (Item.ofRule · (found.get name))) hsplit
    rwa [List.map_append, List.map_cons] at hmap
  have hitems : (rendered u s found).items = (s.items.map (adjust u found) ++
      names.flatMap (added u s.begun found) ++ done.map (Item.ofRule · (found.get name))) ++
        .ofRule q (found.get name) :: (rules.map (Item.ofRule · (found.get name)) ++
          rest.flatMap (added u s.begun found)) := by
    simp [rendered, hkeys, hadded]
  have hlength : offset u s names + done.length = (s.items.map (adjust u found) ++
      names.flatMap (added u s.begun found) ++
        done.map (Item.ofRule · (found.get name))).length := by
    simp only [List.length_append, List.length_map, length_flatMap_added, offset]
  rw [hitems, hlength, List.getElem?_append_right (Nat.le_refl _), Nat.sub_self]
  rfl

/-- The alternatives of a name are expanded one after another. Names that are found on the way stand
behind it. -/
theorem swept_alternatives (hopen : s.closed = false)
    {names : List String} {done rules : List Rule} (hkeys : names ++ [name] <+: found.keys.toList)
    (hsplit : missing u s name = done ++ rules) :
    Swept u s found (offset u s names + done.length)
      (rules.foldl (fun found r => expand u s.method found (.ofRule r (found.get name))) found)
      (offset u s (names ++ [name])) := by
  induction rules generalizing done found with
  | nil =>
    rw [offset_append_singleton, hsplit, List.append_nil]
    exact .refl _ _
  | cons q rules ih =>
    obtain ⟨rest, hrest⟩ := hkeys
    have hlist : found.keys.toList = names ++ name :: rest := by simp [← hrest]
    have hi := getElem?_rendered hlist hsplit
    have hkeys' : names ++ [name] <+:
        (expand u s.method found (.ofRule q (found.get name))).keys.toList :=
      List.IsPrefix.trans ⟨rest, hrest⟩ (within_expand (u := u)).keys
    have hnext := @ih _ (done ++ [q]) hkeys' (by simp [hsplit])
    rw [List.length_append, List.length_singleton] at hnext
    exact (swept_item hopen hi).trans hnext

/-- The names are dealt with in the order in which they are found, down to the last one. -/
theorem swept_names (hopen : s.closed = false) {bound n : Nat}
    (hbound : (expandFrom u s.method s.begun bound n found).keys.size ≤ n + bound)
    (hn : n ≤ found.keys.size) :
    Swept u s found (offset u s (found.keys.toList.take n))
      (expandFrom u s.method s.begun bound n found)
      (offset u s (expandFrom u s.method s.begun bound n found).keys.toList) := by
  induction bound generalizing n found with
  | zero =>
    unfold expandFrom at hbound ⊢
    rw [List.take_of_length_le (by simpa using hbound)]
    exact .refl _ _
  | succ bound ih =>
    unfold expandFrom at hbound ⊢
    cases hname : found.keys.toArray[n]? with
    | none =>
      have hlen : found.keys.toList.length ≤ n := by
        rw [← Array.getElem?_toList] at hname
        exact List.getElem?_eq_none_iff.mp hname
      rw [List.take_of_length_le hlen]
      exact .refl _ _
    | some name =>
      simp only [hname] at hbound ⊢
      rw [← Array.getElem?_toList] at hname
      obtain ⟨hlt, hget⟩ := List.getElem?_eq_some_iff.mp hname
      change n < found.keys.toList.length at hlt
      have htake : found.keys.toList.take n ++ [name] = found.keys.toList.take (n + 1) := by
        rw [List.take_add_one, show found.keys.toList[n]? = some name from hname]
        rfl
      have hprefix : found.keys.toList.take n ++ [name] <+: found.keys.toList :=
        htake ▸ List.take_prefix _ _
      have hwithin : found.Within (expandAlternatives u s.method s.begun found name) :=
        within_expandAlternatives s.begun name
      have htake' : (expandAlternatives u s.method s.begun found name).keys.toList.take (n + 1) =
          found.keys.toList.take n ++ [name] := by
        obtain ⟨rest, hrest⟩ := hwithin.keys
        rw [← hrest, List.take_append_of_le_length hlt, htake]
      have hfirst := swept_alternatives hopen hprefix (List.nil_append (missing u s name)).symm
      have hlater := @ih (expandAlternatives u s.method s.begun found name) (n + 1)
        (by omega) (hlt.trans_le hwithin.keys.length_le)
      rw [htake'] at hlater
      exact hfirst.trans hlater

/-- A sweep from the first item to the last one is a pass. -/
theorem swept_pass (hopen : s.closed = false) (hreach : InReach u s found) :
    Swept u s found 0 (s.pass u found) (offset u s (s.pass u found).keys.toList) := by
  have hsize : (s.pass u found).keys.size ≤ s.nameBound u :=
    (OrderedSet.size_le_length hreach.pass.keys).trans length_namesInReach
  have hdraft : Swept u s found 0 _ s.items.length :=
    swept_draft hopen (List.nil_append s.items).symm
  refine hdraft.trans (swept_names (n := 0) hopen ?_ (Nat.zero_le _))
  rw [Nat.zero_add]
  exact hsize

/-! ## The sweeps end -/

/-- From the beginning of a sweep to its end. -/
theorem ends_sweep (hopen : s.closed = false) (hreach : InReach u s found)
    (hn : (rendered u s found).cores.Nodup) : ∃ n place grew,
      Ends (Sweep.advance u) n (sweepAt u s found 0 false)
        (sweepAt u s (s.pass u found) place grew) ∧
      Added (rendered u s found) (rendered u s (s.pass u found)) grew ∧
      ∀ k, Met u s (s.pass u found) k := by
  obtain ⟨n, grew, hturns, hadded, hmet⟩ := swept_pass hopen hreach hn false
  rw [Bool.false_or] at hturns
  have hlength : (rendered u s (s.pass u found)).items.length =
      offset u s (s.pass u found).keys.toList := length_items_rendered
  refine ⟨n, _, grew, ⟨hturns, ?_⟩, hadded, fun k j i name hj hi hx => ?_⟩
  · have hnone : (rendered u s (s.pass u found)).items[offset u s
        (s.pass u found).keys.toList]? = none := by
      rw [List.getElem?_eq_none_iff, hlength]
    simp only [Sweep.advance, sweepAt, hnone]
  · refine hmet (fun k i name hk => absurd hk (Nat.not_lt_zero k)) j i name ?_ hi hx
    rw [← hlength]
    exact (List.getElem?_eq_some_iff.mp hi).1

theorem InReach.iterate (h : InReach u s found) (k : Nat) :
    InReach u s ((s.pass u)^[k] found) := by
  induction k generalizing found with
  | zero => exact h
  | succ k ih => exact ih h.pass

/-- Except in LR(0), where a sweep has changed nothing, no later one will: it begins with the same
items. -/
theorem rendered_iterate (hopen : s.closed = false) (hm : s.method ≠ .lr0)
    (hreach : InReach u s found) (hn : (rendered u s found).cores.Nodup)
    (hsame : rendered u s (s.pass u found) = rendered u s found) (k : Nat) :
    rendered u s ((s.pass u)^[k] found) = rendered u s found := by
  induction k with
  | zero => rfl
  | succ k ih =>
    obtain ⟨n, place, grew, hends, -⟩ := ends_sweep hopen hreach hn
    obtain ⟨m, place', grew', hends', -⟩ := ends_sweep hopen (hreach.iterate k)
      (by rw [ih]; exact hn)
    have hbegin : sweepAt u s ((s.pass u)^[k] found) 0 false = sweepAt u s found 0 false := by
      simp only [sweepAt, ih, if_neg hm]
    rw [hbegin] at hends'
    have hstate := congrArg Sweep.state (hends'.unique hends)
    rw [Function.iterate_succ_apply']
    exact hstate.trans hsame

/-- In LR(0) a sweep changes nothing if all names have been found. -/
theorem rendered_pass_of_met (hopen : s.closed = false) (hm : s.method = .lr0)
    (hreach : InReach u s found) (hn : (rendered u s found).cores.Nodup)
    (hmet : ∀ k, Met u s found k) : rendered u s (s.pass u found) = rendered u s found := by
  obtain ⟨n, place, grew, hends, -⟩ := ends_sweep hopen hreach hn
  have hkept := hends.turns.keeps
    (p := fun w => w.state = rendered u s found ∧ w.seen = found.keys)
    (fun w v hw hv => ?_) ⟨rfl, by simp only [sweepAt, if_pos hm]⟩
  · exact hkept.1
  · obtain ⟨hstate, hseen⟩ := hw
    unfold Sweep.advance at hv
    rw [hstate] at hv
    cases hi : (rendered u s found).items[w.place]? with
    | none => simp [hi] at hv
    | some i =>
      by_cases hx : ∃ name, i.nextSymbol? = some (.intermediate name)
      · obtain ⟨name, hx⟩ := hx
        have hname : name ∈ w.seen := hseen ▸ hmet _ w.place i name (Nat.lt_succ_self _) hi hx
        simp only [hi, hx, if_pos hname, Except.ok.injEq, Option.some.injEq] at hv
        subst hv
        exact ⟨rfl, hseen⟩
      · simp only [hi] at hv
        split at hv
        · exact absurd ⟨_, ‹_›⟩ hx
        · obtain rfl := Option.some.inj (Except.ok.inj hv)
          exact ⟨rfl, hseen⟩

/-- So no later sweep changes anything. -/
theorem rendered_iterate_of_met (hopen : s.closed = false) (hm : s.method = .lr0)
    (hreach : InReach u s found) (hn : (rendered u s found).cores.Nodup)
    (hmet : ∀ k, Met u s found k) (k : Nat) :
    rendered u s ((s.pass u)^[k] found) = rendered u s found := by
  induction k generalizing found with
  | zero => rfl
  | succ k ih =>
    have hsame := rendered_pass_of_met hopen hm hreach hn hmet
    obtain ⟨n, place, grew, -, hadded, hmet'⟩ := ends_sweep hopen hreach hn
    rw [Function.iterate_succ_apply, ih hreach.pass hadded.nodup hmet', hsame]

theorem turns_of_advance {n : Nat} {w v : Sweep} (h : Turns (Sweep.advance u) n w v) :
    Turns (Sweep.turn u) n w v :=
  h.mono fun a b hab => by simp only [Sweep.turn, hab, bind, Except.bind]

/-- At its end a sweep is over, or it begins anew. -/
theorem turn_of_finished {w : Sweep} (h : Sweep.advance u w = .ok none) : Sweep.turn u w =
    .ok (if w.changed ∧ w.state.method ≠ .lr0 then some { w with place := 0, changed := false }
      else none) := by
  simp only [Sweep.turn, h, bind, Except.bind]

/-- In LR(0) the first sweep is the last one. -/
theorem ends_sweeps_lr0 (hopen : s.closed = false) (hm : s.method = .lr0)
    {goal : Family String Symbol} {k : Nat}
    (hk : (s.pass u)^[k + 1] found = goal) (hreach : InReach u s found)
    (hn : (rendered u s found).cores.Nodup) :
    ∃ n w, Ends (Sweep.turn u) n (sweepAt u s found 0 false) w ∧ w.state = rendered u s goal := by
  obtain ⟨n, place, grew, hends, hadded, hmet⟩ := ends_sweep hopen hreach hn
  have hlast := rendered_iterate_of_met hopen hm hreach.pass hadded.nodup hmet k
  rw [Function.iterate_succ_apply] at hk
  rw [hk] at hlast
  refine ⟨n, _, ⟨turns_of_advance hends.turns, ?_⟩, hlast.symm⟩
  rw [turn_of_finished hends.finished, if_neg fun h => h.2 hm]

theorem ends_sweeps (hopen : s.closed = false) (hm : s.method ≠ .lr0)
    {goal : Family String Symbol} (hgoal : s.pass u goal = goal) {k : Nat}
    (hk : (s.pass u)^[k] found = goal) (hreach : InReach u s found)
    (hn : (rendered u s found).cores.Nodup) :
    ∃ n w, Ends (Sweep.turn u) n (sweepAt u s found 0 false) w ∧ w.state = rendered u s goal := by
  induction k generalizing found with
  | zero =>
    obtain rfl : found = goal := hk
    obtain ⟨n, place, grew, hends, hadded, -⟩ := ends_sweep hopen hreach hn
    rw [hgoal] at hends hadded
    obtain rfl : grew = false := by
      rw [Bool.eq_false_iff, ne_eq, hadded.grew_iff]
      exact Nat.lt_irrefl _
    refine ⟨n, _, ⟨turns_of_advance hends.turns, ?_⟩, rfl⟩
    rw [turn_of_finished hends.finished, if_neg fun h => Bool.false_ne_true h.1]
  | succ k ih =>
    obtain ⟨n, place, grew, hends, hadded, -⟩ := ends_sweep hopen hreach hn
    have hturns := turns_of_advance hends.turns
    cases grew with
    | false =>
      have hsame := hadded.eq_of_not_grew
      have hlast := rendered_iterate hopen hm hreach hn hsame (k + 1)
      rw [hk] at hlast
      refine ⟨n, _, ⟨hturns, ?_⟩, hsame.trans hlast.symm⟩
      rw [turn_of_finished hends.finished, if_neg fun h => Bool.false_ne_true h.1]
    | true =>
      obtain ⟨m, w, hends', hw⟩ := ih hk hreach.pass hadded.nodup
      have hagain : Sweep.turn u (sweepAt u s (s.pass u found) place true) =
          .ok (some (sweepAt u s (s.pass u found) 0 false)) := by
        rw [turn_of_finished hends.finished, if_pos ⟨rfl, hm⟩]
        rfl
      exact ⟨n + 1 + m, w, hends'.trans_turns (hturns.trans (.single hagain)), hw⟩

/-- Closing a draft item by item ends, refuses no item, and leads to the closed state. -/
theorem closes (hn : s.cores.Nodup) (hopen : s.closed = false) :
    Closes u s (s.close u) := by
  have hgoal := pass_expansions (u := u) (s := s)
  obtain ⟨k, hk⟩ := exists_iterate_eq_settle hgoal
  have hempty := rendered_empty (u := u) (s := s)
  have hn : (rendered u s ∅).cores.Nodup := by rwa [hempty]
  have hbegin : sweepAt u s ∅ 0 false = ⟨s, 0, false, ∅⟩ := by
    rw [sweepAt, hempty]
    split <;> rfl
  have hends : ∃ n w, Ends (Sweep.turn u) n (sweepAt u s ∅ 0 false) w ∧
      w.state = rendered u s (s.expansions u) := by
    by_cases hm : s.method = .lr0
    · exact ends_sweeps_lr0 hopen hm (hk (k + 1) (Nat.le_succ k)) inReach_empty hn
    · exact ends_sweeps hopen hm hgoal (hk k (Nat.le_refl k)) inReach_empty hn
  obtain ⟨n, w, hends, hw⟩ := hends
  rw [hbegin] at hends
  exact ⟨n, w, hends, by rw [close_eq hopen, hw]⟩

end State

end ShiftReduce
