import Mathlib.Logic.Function.Iterate
import ShiftReduce.Proofs.Closure

/-!
# The order of closed items

Which names closing finds, and in which order, depends on the cores of the draft and on nothing
else: neither on lookaheads nor on the method. So drafts with the same list of cores close into
states with the same list of cores.
-/

namespace ShiftReduce

theorem Item.nextSymbol?_congr {i j : Item} (hr : i.rule = j.rule) (hd : i.dot = j.dot) :
    i.nextSymbol? = j.nextSymbol? := by
  rw [nextSymbol?, nextSymbol?, after, after, hr, hd]

namespace State

variable {u v : Setup} {m m' : Method} {found found' : Family String Symbol} {s t : State}

/-- The rules and dots of two states agree place by place. -/
def Aligned (s t : State) : Prop :=
  s.items.map (fun i => (i.rule, i.dot)) = t.items.map fun i => (i.rule, i.dot)

theorem aligned_of_cores_eq {g : Grammar} (hs : s.Proper g) (ht : t.Proper g)
    (h : s.cores = t.cores) : s.Aligned t := by
  have hlen : s.items.length = t.items.length := by
    simpa [cores] using congrArg List.length h
  refine List.ext_getElem (by simpa using hlen) fun n hn hn' => ?_
  simp only [List.length_map] at hn hn'
  have hcore : s.items[n].core = t.items[n].core := by
    have := congrArg (·[n]?) h
    simpa [cores, hn, hn'] using this
  obtain ⟨hr, hd⟩ := Item.rule_eq_of_core_eq (hs.rules _ (List.getElem_mem hn))
    (ht.rules _ (List.getElem_mem hn')) hcore
  simp [hr, hd]

theorem keys_expand_congr (h : found.keys = found'.keys) {i j : Item} (hr : i.rule = j.rule)
    (hd : i.dot = j.dot) : (expand u m found i).keys = (expand v m' found' j).keys := by
  unfold expand
  rw [Item.nextSymbol?_congr hr hd]
  split
  · rw [Family.keys_extend, Family.keys_extend, h]
  · exact h

theorem keys_foldl_expand_congr {items items' : List Item}
    (ha : items.map (fun i => (i.rule, i.dot)) = items'.map fun i => (i.rule, i.dot))
    (h : found.keys = found'.keys) :
    (items.foldl (fun found i => expand u m found (adjust u found i)) found).keys =
      (items'.foldl (fun found i => expand v m' found (adjust v found i)) found').keys := by
  induction items generalizing items' found found' with
  | nil =>
    obtain rfl : items' = [] := by simpa using ha.symm
    exact h
  | cons i items ih =>
    cases items' with
    | nil => cases ha
    | cons j items' =>
      obtain ⟨hij, ha⟩ := List.cons.inj ha
      obtain ⟨hr, hd⟩ := Prod.mk.inj hij
      rw [List.foldl_cons, List.foldl_cons]
      refine ih ha (keys_expand_congr h ?_ ?_)
      · rw [rule_adjust, rule_adjust, hr]
      · rw [dot_adjust, dot_adjust, hd]

theorem keys_expandAlternatives_congr (hg : u.grammar = v.grammar) (begun : List RuleId)
    (name : String) (h : found.keys = found'.keys) :
    (expandAlternatives u m begun found name).keys =
      (expandAlternatives v m' begun found' name).keys := by
  unfold expandAlternatives
  rw [u.alternatives_eq, v.alternatives_eq, hg]
  generalize (v.grammar.alternatives name).filter (·.id ∉ begun) = rules
  induction rules generalizing found found' with
  | nil => exact h
  | cons r rules ih => exact ih (keys_expand_congr h rfl rfl)

theorem keys_expandFrom_congr (hg : u.grammar = v.grammar) (begun : List RuleId) (bound n : Nat)
    (h : found.keys = found'.keys) :
    (expandFrom u m begun bound n found).keys = (expandFrom v m' begun bound n found').keys := by
  induction bound generalizing n found found' with
  | zero => exact h
  | succ bound ih =>
    unfold expandFrom
    rw [h]
    split
    · exact h
    · exact ih (n + 1) (keys_expandAlternatives_congr hg begun _ h)

theorem begun_congr (h : s.Aligned t) : s.begun = t.begun := by
  have hb (s : State) : s.begun =
      ((s.items.map fun i => (i.rule, i.dot)).filter (·.2 = 0)).map (·.1.id) := by
    rw [List.filter_map, List.map_map]
    rfl
  rw [hb, hb, h]

theorem keys_pass_congr (hg : u.grammar = v.grammar) (ha : s.Aligned t)
    (h : found.keys = found'.keys) : (s.pass u found).keys = (t.pass v found').keys := by
  have hlen : s.items.length = t.items.length := by
    simpa using congrArg List.length ha
  have hbound : s.nameBound u = t.nameBound v := by
    rw [nameBound, nameBound, hlen, u.coreCount_eq, v.coreCount_eq, hg]
  unfold pass
  rw [begun_congr ha, hbound]
  exact keys_expandFrom_congr hg _ _ _ (keys_foldl_expand_congr ha h)

theorem keys_expansions_congr (hg : u.grammar = v.grammar) (ha : s.Aligned t) :
    (s.expansions u).keys = (t.expansions v).keys := by
  obtain ⟨n, hn⟩ := exists_iterate_eq_settle pass_expansions
  obtain ⟨k, hk⟩ := exists_iterate_eq_settle pass_expansions
  have hiter (j : Nat) : ((s.pass u)^[j] ∅).keys = ((t.pass v)^[j] ∅).keys := by
    induction j with
    | zero => rfl
    | succ j ih =>
      rw [Function.iterate_succ_apply', Function.iterate_succ_apply']
      exact keys_pass_congr hg ha ih
  have h := hiter (max n k)
  rw [hn _ (Nat.le_max_left n k), hk _ (Nat.le_max_right n k)] at h
  exact h

/-- Drafts with the same list of cores close into states with the same list of cores. -/
theorem cores_close_congr (hg : u.grammar = v.grammar) (hs : s.Proper u.grammar)
    (ht : t.Proper v.grammar) (h : s.cores = t.cores) (hsc : s.closed = false)
    (htc : t.closed = false) : (s.close u).cores = (t.close v).cores := by
  have ha := aligned_of_cores_eq hs (hg ▸ ht) h
  rw [cores_close hsc, cores_close htc, h, keys_expansions_congr hg ha, begun_congr ha]
  simp only [u.alternatives_eq, v.alternatives_eq, hg]

end State

end ShiftReduce
