import ShiftReduce.Proofs.ClosureMerge
import ShiftReduce.Proofs.Successors
import ShiftReduce.Proofs.Sweeps
import ShiftReduce.State.Roster

/-!
# Rosters stand for states

A state stands as a roster: its items under their cores. A call on the roster does to it what the
function of states does to the state, provided that the cores are distinct. So what holds of states
by their form, or is proved of their functions, holds of rosters, and a call that is broken off
leaves the roster as it was.
-/

namespace ShiftReduce

/-! ## Running -/

namespace Roster

section Running

variable {α β : Type} {r : Roster}

@[simp] theorem run_pure (a : α) : r.run (pure a) = (.ok a, r) := rfl

@[simp] theorem run_bind (x : InPlace α) (f : α → InPlace β) : r.run (x >>= f) =
    match r.run x with
    | (.ok a, t) => t.run (f a)
    | (.error e, t) => (.error e, t) := by
  simp only [run, ExceptT.run, StateT.run, Id.run, bind, ExceptT.bind, ExceptT.mk, StateT.bind,
    ExceptT.bindCont]
  cases x r with
  | mk a t => cases a <;> rfl

@[simp] theorem run_discard (x : InPlace α) : r.run (discard x) =
    match r.run x with
    | (.ok _, t) => (.ok ⟨⟩, t)
    | (.error e, t) => (.error e, t) := by
  have hbind : (discard x : InPlace PUnit) = x >>= fun _ => pure ⟨⟩ := rfl
  rw [hbind, run_bind]
  rfl

@[simp] theorem run_get : r.run get = (.ok r, r) := rfl

@[simp] theorem run_set (t : Roster) : r.run (set t) = (.ok ⟨⟩, t) := rfl

@[simp] theorem run_throw (e : Fault) : r.run (throw e : InPlace α) = (.error e, r) := rfl

@[simp] theorem run_liftM (x : Except Fault α) : r.run (liftM x) = (x, r) := rfl

end Running

end Roster

/-! ## Items as entries -/

namespace Entry

def of (i : Item) : Entry := ⟨i.rule, i.dot, i.lookaheads, i.next⟩

variable {i : Item}

@[simp] theorem nextSymbol?_of : (of i).nextSymbol? = i.nextSymbol? := by
  rw [Item.nextSymbol?, Item.after, List.head?_drop]
  rfl

@[simp] theorem rest_of : (of i).rest = i.rest := by
  rw [Item.rest, Item.after, List.tail_drop]
  rfl

theorem advance_of : (of i).advance = .ok (i.advance?.map of) := by
  have hle := i.dot_le
  unfold advance Item.advance?
  by_cases hlt : i.dot < i.rule.right.length
  · have hne : (of i).dot ≠ (of i).rule.right.length := Nat.ne_of_lt hlt
    have hle : (of i).dot + 1 ≤ (of i).rule.right.length := hlt
    rw [if_neg hne, dif_pos hlt, new, if_pos hle]
    rfl
  · have he : (of i).dot = (of i).rule.right.length := Nat.le_antisymm hle (Nat.le_of_not_lt hlt)
    rw [if_pos he, dif_neg hlt]
    rfl

theorem new_eq {r : Rule} {dot : Nat} {la : OrderedSet Symbol} :
    new r dot la = of <$> Item.new r dot la := by
  unfold new Item.new
  split <;> rfl

/-- The answer tells whether the set has grown. -/
theorem unite_eq (e : Entry) (la : List Symbol) : e.unite la =
    ({ e with lookaheads := e.lookaheads.insertAll la },
      decide (e.lookaheads.size < (e.lookaheads.insertAll la).size)) := by
  have hloop (la : List Symbol) (e : Entry) (b : Bool) : la.foldl
      (fun p x =>
        ({ p.1 with lookaheads := p.1.lookaheads.insert x }, p.2 || decide (x ∉ p.1.lookaheads)))
      (e, b) = ({ e with lookaheads := e.lookaheads.insertAll la },
        b || decide (e.lookaheads.size < (e.lookaheads.insertAll la).size)) := by
    induction la generalizing e b with
    | nil => simp
    | cons x la ih =>
      rw [List.foldl_cons, ih, OrderedSet.insertAll_cons]
      refine Prod.ext rfl ?_
      by_cases hx : x ∈ e.lookaheads
      · simp [OrderedSet.insert_of_mem hx, hx]
      · have hsize := OrderedSet.size_insert_of_not_mem hx
        have hgrows : ((e.lookaheads.insert x).insertAll la).size ≥ (e.lookaheads.insert x).size :=
          (Grows.foldl OrderedSet.grows_insert la _).le
        have hlt : e.lookaheads.size < ((e.lookaheads.insert x).insertAll la).size := by omega
        simp [hx, hlt]
  exact (hloop la e false).trans (by rw [Bool.false_or])

theorem unite_of (la : OrderedSet Symbol) : (of i).unite la.toList =
    (of (i.unite la), decide (i.lookaheads.size < (i.unite la).lookaheads.size)) := by
  rw [unite_eq, Item.unite, OrderedSet.union_eq]
  rfl

end Entry

/-! ## States as rosters -/

namespace Roster

def of (s : State) : Roster :=
  ⟨s.method, s.number, s.items.map fun i => (i.core, Entry.of i), s.closed⟩

/-- What a function of states leaves of a roster. -/
def outcome (s : State) : Except Fault (State × Bool) → Except Fault Bool × Roster
  | .ok (t, grew) => (.ok grew, of t)
  | .error e => (.error e, of s)

variable {s t : State}

theorem entries_of_inj : (of s).entries = (of t).entries ↔ s.items = t.items := by
  have hitem : Function.Injective fun i : Item => (i.core, Entry.of i) := by
    rintro ⟨r, dot, la, next, hle⟩ ⟨r', dot', la', next', hle'⟩ hi
    obtain ⟨rfl, rfl, rfl, rfl⟩ := Entry.mk.inj (Prod.mk.inj hi).2
    rfl
  exact (List.map_injective_iff.mpr hitem).eq_iff

theorem of_injective : Function.Injective of := by
  rintro ⟨m, n, items, b⟩ ⟨m', n', items', b'⟩ h
  obtain ⟨rfl, rfl, hitems, rfl⟩ := Roster.mk.inj h
  exact congrArg (State.mk _ _ · _) (entries_of_inj.mp hitems)

theorem of_draft (m : Method) : of (State.draft m) = draft m := rfl

@[simp] theorem keys_of : (of s).keys = s.cores := by
  rw [keys, of, List.map_map]
  rfl

def weight (r : Roster) : Nat :=
  r.entries.length + (r.entries.map fun p => p.2.lookaheads.size).sum

theorem weight_of : (of s).weight = s.weight := by
  simp only [weight, State.weight, State.lookaheadCount_eq_sum, of, List.length_map, List.map_map]
  rfl

theorem get?_of (c : Core) : (of s).get? c = (s.item? c).map Entry.of := by
  unfold get? of State.item?
  induction s.items with
  | nil => rfl
  | cons i items ih =>
    by_cases hc : i.core = c
    · simp [hc]
    · have hne : (c == i.core) = false := by simpa using fun h => hc h.symm
      simpa [List.lookup_cons, hne, hc] using ih

/-! ### Adding -/

theorem replace_of (hn : s.cores.Nodup) {i : Item} (hi : i ∈ s.items) (la : OrderedSet Symbol) :
    (of s).replace i.core (Entry.of (i.unite la)) = of (s.unite i.core la) := by
  have hentries : ∀ j ∈ s.items,
      (if j.core = i.core then (i.core, Entry.of (i.unite la)) else (j.core, Entry.of j)) =
        ((if j.core = i.core then j.unite la else j).core,
          Entry.of (if j.core = i.core then j.unite la else j)) := by
    intro j hj
    by_cases hc : j.core = i.core
    · obtain rfl := List.inj_on_of_nodup_map hn hj hi hc
      simp
    · simp [hc]
  simp only [replace, of, State.unite, List.map_map]
  exact congrArg (Roster.mk _ _ · _) (List.map_congr_left hentries)

theorem unite_empty (c : Core) : s.unite c ∅ = s := by
  have hitems : ∀ i ∈ s.items, (if i.core = c then i.unite ∅ else i) = i := by
    intro i _
    rw [Item.unite, OrderedSet.union_empty, ite_self]
  rw [State.unite, List.map_congr_left hitems, List.map_id']

theorem run_addItem (hn : s.cores.Nodup) (q : Rule) (dot : Nat) (la : OrderedSet Symbol) :
    (of s).run (addItem q dot la) = outcome s (s.add q dot la) := by
  have hmethod : (of s).method = s.method := rfl
  unfold addItem State.add
  rw [run_bind, run_get]
  cases hitem : s.item? ⟨q.id, dot⟩ with
  | none =>
    simp only [get?_of, hitem, Option.map_none, hmethod]
    by_cases hc : s.closed = true
    · have hc' : (of s).closed = true := hc
      rw [if_pos hc, if_pos hc', run_bind, run_throw]
      rfl
    · have hc' : ¬(of s).closed = true := hc
      rw [if_neg hc, if_neg hc', Entry.new_eq, run_bind, run_liftM]
      cases hnew : Item.new q dot (State.carried s.method la) with
      | error e => rfl
      | ok i =>
        have hcore : i.core = ⟨q.id, dot⟩ := by
          unfold Item.new at hnew
          split at hnew
          · cases hnew
            rfl
          · cases hnew
        simp only [Functor.map, Except.map, run_bind, run_set, run_pure]
        simp [of, outcome, hcore, bind, Except.bind]
  | some i =>
    have hi : i ∈ s.items := List.mem_of_find?_eq_some hitem
    have hcore : i.core = ⟨q.id, dot⟩ := by simpa using List.find?_some hitem
    simp only [get?_of, hitem, Option.map_some, hmethod, Entry.unite_of]
    by_cases hm : s.method = .lr0
    · -- the call answers at once, and there is nothing to unite
      have hself : i.unite ∅ = i := by rw [Item.unite, OrderedSet.union_empty]
      rw [if_pos hm, run_pure, hm]
      simp only [State.carried, unite_empty, hself, Nat.lt_irrefl, decide_false]
      rfl
    · have hla : State.carried s.method la = la := by
        cases h : s.method with
        | lr0 => exact absurd h hm
        | lr1 => rfl
        | lalr1 => rfl
      rw [if_neg hm, run_bind, run_set, hla, ← hcore, replace_of hn hi]
      rfl

/-- Rules are added one after another as long as none is refused. -/
theorem run_addAll (hn : s.cores.Nodup) {rules : List Rule} {la : OrderedSet Symbol} {grew : Bool}
    (h : s.addAll rules la = .ok (t, grew)) : (of s).run (addAll rules la) = (.ok grew, of t) := by
  have hloop (rules : List Rule) (s : State) (hn : s.cores.Nodup) (b : Bool)
      (h : rules.foldlM (fun (p : State × Bool) r => do
        let q ← p.1.add r 0 la
        Except.ok (q.1, p.2 || q.2)) (s, b) = .ok (t, grew)) :
      (of s).run (rules.foldlM (fun changed q => do
        let grew ← addItem q 0 la
        return changed || grew) b) = (.ok grew, of t) := by
    induction rules generalizing s b with
    | nil =>
      cases h
      rfl
    | cons q rules ih =>
      rw [List.foldlM_cons] at h
      cases hadd : s.add q 0 la with
      | error e => simp [hadd, bind, Except.bind] at h
      | ok p =>
        simp only [hadd, bind, Except.bind] at h
        rw [List.foldlM_cons, run_bind, run_bind, run_addItem hn, hadd]
        exact ih p.1 (State.add_eq_ok hn hadd).1.nodup (b || p.2) h
  exact hloop rules s hn false h

theorem start_eq {m : Method} {g : Grammar} {x : Symbol} : start m g x = g.startRule.map fun q =>
    of { State.draft m with items := [.ofRule q (State.carried m (.ofList [x]))] } := by
  unfold start
  cases g.startRule with
  | error e => rfl
  | ok q =>
    have hadd := (State.add_of_not_mem (s := State.draft m) (q := q) rfl List.nodup_nil
      List.not_mem_nil (Nat.zero_le _) (.ofList [x])).1
    have hrun := run_addItem (s := State.draft m) List.nodup_nil q 0 (.ofList [x])
    rw [hadd] at hrun
    simp only [bind, Except.bind, ← of_draft, hrun]
    rfl

/-! ### Merging -/

theorem mergeable_of : (of s).mergeable (of t) = s.mergeable t := by
  simp only [mergeable, State.mergeable, of, List.length_map, List.zip_map, List.all_map]
  rfl

theorem absorb_of {items items' : List Item} (h : items.length = items'.length) :
    absorb (items.map fun i => (i.core, Entry.of i)) (items'.map fun i => (i.core, Entry.of i)) =
      ((items.zipWith (fun i j => i.unite j.lookaheads) items').map fun i => (i.core, Entry.of i),
        (items.zip items').any fun p =>
          p.1.lookaheads.size < (p.1.unite p.2.lookaheads).lookaheads.size) := by
  induction items generalizing items' with
  | nil => rfl
  | cons i items ih =>
    cases items' with
    | nil => cases h
    | cons j items' =>
      have hunite := Entry.unite_of (i := i) j.lookaheads
      simp only [List.map_cons, absorb, ih (Nat.succ.inj h)]
      have hla : (Entry.of j).lookaheads = j.lookaheads := rfl
      rw [hla, hunite]
      rfl

theorem run_merge : (of s).run (merge (of t)) = outcome s (s.merge t) := by
  unfold merge State.merge
  rw [run_bind, run_get]
  by_cases h : s.mergeable t = true
  · have hlen := State.Alike.length_eq (State.cores_eq_of_mergeable h)
    have habsorb : absorb (of s).entries (of t).entries =
        ((of (s.absorb t)).entries, decide (s.lookaheadCount < (s.absorb t).lookaheadCount)) := by
      refine (absorb_of hlen).trans (Prod.ext rfl (Bool.eq_iff_iff.mpr ?_))
      simp only [List.any_eq_true, decide_eq_true_eq, State.lookaheadCount_lt_absorb_iff hlen,
        Item.unite, OrderedSet.size_lt_size_union_iff]
    simp only [mergeable_of, if_pos h, habsorb, run_bind, run_set, run_pure]
    rfl
  · simp [mergeable_of, h, outcome]

/-! ### Successors -/

theorem assign_of (x : Symbol) (target : StateId) :
    (of s).assign x target = of (s.assign x target) := by
  simp only [assign, of, State.assign, List.map_map]
  refine congrArg (Roster.mk _ _ · _) (List.map_congr_left fun i _ => ?_)
  simp only [Function.comp_apply, Entry.nextSymbol?_of]
  split <;> rfl

theorem enqueue_of_mem {x : Symbol} {e : Entry} {names : List Symbol} {f : Symbol → List Entry}
    (hn : names.Nodup) (hx : x ∈ names) : enqueue x e (names.map fun y => (y, f y)) =
      names.map fun y => (y, if y = x then f y ++ [e] else f y) := by
  induction names with
  | nil => cases hx
  | cons y names ih =>
    obtain ⟨hy, hn⟩ := List.nodup_cons.mp hn
    simp only [List.map_cons, enqueue]
    by_cases he : y = x
    · have hrest : ∀ z ∈ names, (z, f z) = (z, if z = x then f z ++ [e] else f z) := by
        intro z hz
        rw [if_neg fun (h : z = x) => hy ((h.trans he.symm) ▸ hz)]
      rw [if_pos he, if_pos he, List.map_congr_left hrest]
    · rw [if_neg he, if_neg he, ih hn ((List.mem_cons.mp hx).resolve_left fun h => he h.symm)]

theorem enqueue_of_not_mem {x : Symbol} {e : Entry} {names : List Symbol} {f : Symbol → List Entry}
    (hx : x ∉ names) : enqueue x e (names.map fun y => (y, f y)) =
      names.map (fun y => (y, f y)) ++ [(x, [e])] := by
  induction names with
  | nil => rfl
  | cons y names ih =>
    obtain ⟨hy, hx⟩ := not_or.mp (mt List.mem_cons.mpr hx)
    rw [List.map_cons, enqueue, if_neg fun h => hy h.symm, ih hx]
    rfl

/-- What has moved over `x`, in the order of the items. -/
def advanced (items : List Item) (x : Symbol) : List Item :=
  (items.filter (·.nextSymbol? = some x)).filterMap Item.advance?

theorem advanced_append_singleton (items : List Item) (i : Item) (x : Symbol) :
    advanced (items ++ [i]) x =
      if i.nextSymbol? = some x then advanced items x ++ i.advance?.toList
      else advanced items x := by
  simp only [advanced, List.filter_append, List.filterMap_append]
  by_cases hx : i.nextSymbol? = some x
  · cases hk : i.advance? <;> simp [hx, hk]
  · simp [hx]

/-- The kernels stand in the order in which their symbols are met. -/
def kernelsOf (items : List Item) : List (Symbol × List Entry) :=
  (OrderedSet.ofList (items.filterMap Item.nextSymbol?)).toList.map fun x =>
    (x, (advanced items x).map Entry.of)

theorem kernelsOf_append_of_none {items : List Item} {i : Item} (h : i.nextSymbol? = none) :
    kernelsOf (items ++ [i]) = kernelsOf items := by
  simp [kernelsOf, advanced_append_singleton, h]

theorem kernelsOf_append_of_some {items : List Item} {i k : Item} {x : Symbol}
    (hx : i.nextSymbol? = some x) (hk : i.advance? = some k) :
    kernelsOf (items ++ [i]) = enqueue x (Entry.of k) (kernelsOf items) := by
  have hnames : OrderedSet.ofList ((items ++ [i]).filterMap Item.nextSymbol?) =
      (OrderedSet.ofList (items.filterMap Item.nextSymbol?)).insert x := by
    simp only [OrderedSet.ofList, List.filterMap_append, OrderedSet.insertAll_append]
    simp [hx]
  have hadvanced (y : Symbol) : (advanced (items ++ [i]) y).map Entry.of =
      if y = x then (advanced items y).map Entry.of ++ [Entry.of k]
      else (advanced items y).map Entry.of := by
    rw [advanced_append_singleton, hx, hk]
    by_cases hy : y = x
    · simp [hy]
    · have hne : ¬(some x = some y) := fun h => hy (Option.some.inj h).symm
      rw [if_neg hy, if_neg hne]
  unfold kernelsOf
  rw [hnames]
  simp only [hadvanced]
  by_cases hmem : x ∈ OrderedSet.ofList (items.filterMap Item.nextSymbol?)
  · have hnodup : (OrderedSet.ofList (items.filterMap Item.nextSymbol?)).toList.Nodup :=
      OrderedSet.nodup _
    rw [OrderedSet.insert_of_mem hmem, enqueue_of_mem hnodup hmem]
  · have hnone : advanced items x = [] := by
      rw [advanced, List.filterMap_eq_nil_iff]
      intro j hj
      obtain ⟨hj, hjx⟩ := List.mem_filter.mp hj
      refine absurd (OrderedSet.mem_ofList.mpr (List.mem_filterMap.mpr ⟨j, hj, ?_⟩)) hmem
      simpa using hjx
    have hold : ∀ y ∈ (OrderedSet.ofList (items.filterMap Item.nextSymbol?)).toList,
        (y, if y = x then (advanced items y).map Entry.of ++ [Entry.of k]
          else (advanced items y).map Entry.of) = (y, (advanced items y).map Entry.of) := by
      intro y hy
      rw [if_neg fun (he : y = x) => hmem (he ▸ hy)]
    rw [OrderedSet.toList_insert_of_not_mem hmem, List.map_append, List.map_congr_left hold,
      enqueue_of_not_mem hmem]
    simp [hnone]

/-- What enqueues the items one by one goes from kernels to kernels. -/
theorem foldlM_kernelsOf
    {f : List (Symbol × List Entry) → Core × Entry → Except Fault (List (Symbol × List Entry))}
    (hf : ∀ done i, f (kernelsOf done) (i.core, Entry.of i) = .ok (kernelsOf (done ++ [i])))
    (done rest : List Item) :
    (rest.map fun i => (i.core, Entry.of i)).foldlM f (kernelsOf done) =
      .ok (kernelsOf (done ++ rest)) := by
  induction rest generalizing done with
  | nil => simp [pure, Except.pure]
  | cons i rest ih =>
    have hnext := ih (done ++ [i])
    rw [List.append_assoc, List.singleton_append] at hnext
    rw [List.map_cons, List.foldlM_cons, hf, ← hnext]
    rfl

theorem kernels_of : (of s).kernels = .ok (kernelsOf s.items) := by
  refine foldlM_kernelsOf (fun done i => ?_) [] s.items
  rw [Entry.nextSymbol?_of, Entry.advance_of]
  cases hx : i.nextSymbol? with
  | none => rw [kernelsOf_append_of_none hx]; rfl
  | some x =>
    obtain ⟨k, hk⟩ := Item.exists_advance? hx
    rw [kernelsOf_append_of_some hx hk, hk]
    rfl

/-- A kernel has one order in which its cores ascend. -/
theorem mergeSort_eq_of_perm {kernel sorted : List Entry} (h : kernel.Perm sorted)
    (hlt : sorted.Pairwise fun d e => compare d.core e.core = .lt) :
    (kernel.mergeSort fun d e => (compare d.core e.core).isLE) = sorted := by
  have hcores : Ascending (sorted.map Entry.core) := List.pairwise_map.mpr hlt
  have hperm := (List.mergeSort_perm kernel fun d e => (compare d.core e.core).isLE).trans h
  have hle : (kernel.mergeSort fun d e => (compare d.core e.core).isLE).Pairwise
      fun d e => (compare d.core e.core).isLE = true := by
    have htrans (c d e : Entry) (hcd : (compare c.core d.core).isLE = true)
        (hde : (compare d.core e.core).isLE = true) : (compare c.core e.core).isLE = true :=
      Std.TransOrd.isLE_trans hcd hde
    have htotal (d e : Entry) :
        ((compare d.core e.core).isLE || (compare e.core d.core).isLE) = true := by
      rw [Std.OrientedOrd.eq_swap (a := e.core)]
      cases compare d.core e.core <;> rfl
    exact List.pairwise_mergeSort htrans htotal kernel
  refine hperm.eq_of_pairwise (fun d e hd he hde hed => ?_) hle
    (hlt.imp fun {d e} hlt => by rw [hlt]; rfl)
  have hcore : d.core = e.core :=
    Std.LawfulEqOrd.eq_of_compare (Std.OrientedCmp.isLE_antisymm hde hed)
  exact List.inj_on_of_nodup_map hcores.nodup (hperm.mem_iff.mp hd) he hcore

theorem mergeSort_of {kernel : List Item} (hn : (kernel.map Item.core).Nodup) :
    (kernel.map Entry.of).mergeSort (fun d e => (compare d.core e.core).isLE) =
      (State.sortByCore kernel).map Entry.of := by
  have hlt := State.pairwise_sortByCore hn
  have hsorted : (State.sortByCore kernel).Nodup :=
    List.Nodup.of_map Item.core (Ascending.nodup (List.pairwise_map.mpr hlt))
  have hperm : kernel.Perm (State.sortByCore kernel) :=
    (List.perm_ext_iff_of_nodup (List.Nodup.of_map _ hn) hsorted).mpr
      fun i => (State.mem_sortByCore hn).symm
  exact mergeSort_eq_of_perm (hperm.map _) (List.pairwise_map.mpr hlt)

/-- Items are added one after another as long as none is refused. -/
theorem run_forM (hn : s.cores.Nodup) {items : List Item}
    (h : items.foldlM (fun t i => Prod.fst <$> t.add i.rule i.dot i.lookaheads) s = .ok t) :
    (of s).run (forM (items.map Entry.of) fun e =>
      discard (addItem e.rule e.dot e.lookaheads)) = (.ok ⟨⟩, of t) := by
  induction items generalizing s with
  | nil =>
    cases h
    rfl
  | cons i items ih =>
    rw [List.foldlM_cons] at h
    cases hadd : s.add i.rule i.dot i.lookaheads with
    | error e => simp [hadd, bind, Except.bind, Functor.map, Except.map] at h
    | ok p =>
      simp only [hadd, bind, Except.bind, Functor.map, Except.map] at h
      have hrun : (of s).run (addItem (Entry.of i).rule (Entry.of i).dot (Entry.of i).lookaheads) =
          (.ok p.2, of p.1) := by
        refine (run_addItem hn i.rule i.dot i.lookaheads).trans ?_
        rw [hadd]
        rfl
      rw [List.map_cons, List.forM_cons, run_bind, run_discard, hrun]
      exact ih (State.add_eq_ok hn hadd).1.nodup h

/-- The draft behind a symbol comes from adding the advanced items in the order of their cores. -/
theorem ofKernel_advanced (hs : s.Orderly) (x : Symbol) :
    ofKernel s.method ((advanced s.items x).map Entry.of) = .ok (of (s.successorDraft x)) := by
  have hrun := run_forM (s := State.draft s.method) List.nodup_nil (hs.gathered_successorDraft x)
  have hsorted : ((advanced s.items x).map Entry.of).mergeSort
      (fun d e => (compare d.core e.core).isLE) = (s.successorDraft x).items.map Entry.of :=
    mergeSort_of (State.nodup_advanced hs.nodup x)
  simp only [ofKernel, hsorted, ← of_draft, hrun]

theorem successors_of (hs : s.Orderly) :
    (of s).successors = .ok (s.successors.map fun p => (p.1, of p.2)) := by
  have hkernel (x : Symbol) : ofKernel (of s).method ((advanced s.items x).map Entry.of) =
      .ok (of (s.successorDraft x)) := ofKernel_advanced hs x
  have hpure (x : Symbol) : ((fun p : Symbol × List Entry => do
      return (p.1, ← ofKernel (of s).method p.2)) ∘ fun x =>
        (x, (advanced s.items x).map Entry.of)) x = pure (x, of (s.successorDraft x)) := by
    simp only [Function.comp_apply, hkernel, bind, Except.bind]
  unfold successors
  rw [kernels_of, State.successors_eq, List.map_map]
  refine (List.mapM_map ..).trans ?_
  rw [funext hpure, List.mapM_pure]
  rfl

end Roster

end ShiftReduce
