import Mathlib.Data.Fintype.Pigeonhole
import Mathlib.Data.Set.Basic
import ShiftReduce.Proofs.Tables
import ShiftReduce.Table.Run

/-!
# Paths through a table

Following recorded successors from the start state follows the item sets along a path: the state at
the end has the cores of the item set, and all its lookaheads. Every state is at the end of a path,
and every path whose item set is not empty leads to a state. So a table is built unless more item
sets lie on the paths than there are state numbers.
-/

namespace ShiftReduce

namespace Setup

variable {u : Setup} {path : List Symbol} {x : Symbol} {c : Core}

theorem along_append_singleton (u : Setup) (path : List Symbol) (x : Symbol) :
    u.along (path ++ [x]) = u.successor (u.along path) x :=
  Grammar.along_append_singleton path x

theorem mem_cores_along_nil : c ∈ (u.along []).cores ↔
    ItemSet.ClosureCore u.grammar (.start u.ahead u.config.endOfInput) c :=
  Iff.rfl

theorem mem_cores_along_append_singleton : c ∈ (u.along (path ++ [x])).cores ↔
    ItemSet.ClosureCore u.grammar ((u.along path).advance u.grammar x) c := by
  rw [along_append_singleton]
  exact Iff.rfl

/-- Some item waits for the last symbol of a path that leads somewhere. -/
theorem exists_waits_of_along (h : c ∈ (u.along (path ++ [x])).cores) :
    ∃ d ∈ (u.along path).cores, ∃ rest, u.grammar.Waits d x rest := by
  rw [mem_cores_along_append_singleton] at h
  induction h with
  | given h =>
    obtain ⟨d, hd, hw, -⟩ := h
    exact ⟨d, hd, hw⟩
  | alternative _ _ _ ih => exact ih

end Setup

namespace Table

variable {t : Table} {path : List Symbol} {x : Symbol} {i j : StateId}

theorem follow?_append_singleton (t : Table) (i : StateId) (path : List Symbol) (x : Symbol) :
    t.follow? i (path ++ [x]) = (t.follow? i path).bind fun j => (t.get j).successor? x := by
  induction path generalizing i with
  | nil =>
    simp only [List.nil_append, follow?, Option.bind_some]
    cases hs : t.states[i]? with
    | none =>
      rw [get, hs]
      rfl
    | some s =>
      rw [get, hs]
      cases hj : s.successor? x with
      | none => simp [hj]
      | some j => simp [hj]
  | cons y path ih =>
    simp only [List.cons_append, follow?]
    cases t.states[i]? with
    | none => rfl
    | some s =>
      cases hj : s.successor? y with
      | none => simp [hj]
      | some j => simp [hj, ih]

/-- The state `i` is where the path leads to. -/
structure At (t : Table) (path : List Symbol) (i : StateId) : Prop where
  lt : i < t.size
  cores : (t.get i).itemSet.cores = (t.setup.along path).cores
  lookaheads : (t.setup.along path).lookaheads ⊆ (t.get i).itemSet.lookaheads
  exact : t.config.method ≠ .lalr1 → (t.get i).itemSet = t.setup.along path

namespace Complete

theorem at_nil (h : t.Complete) : t.At [] startState :=
  ⟨h.size_pos, h.start_cores, h.start_le.2, h.start_eq⟩

theorem at_append_singleton (h : t.Complete) (hi : t.At path i)
    (hj : (t.get i).successor? x = some j) : t.At (path ++ [x]) j := by
  have hcores : (t.setup.successor (t.get i).itemSet x).cores =
      (t.setup.along (path ++ [x])).cores := by
    rw [Setup.along_append_singleton]
    exact ItemSet.cores_successor_congr hi.cores x
  refine ⟨(h.leads i x j hj).1, (h.successor_cores hj).trans hcores, ?_, fun hm => ?_⟩
  · have hle : t.setup.along path ≤ (t.get i).itemSet := ⟨hi.cores.superset, hi.lookaheads⟩
    rw [Setup.along_append_singleton]
    exact (ItemSet.successor_mono hle x).2.trans (h.successor_le hj).2
  · rw [h.successor_eq hm hj, hi.exact hm, Setup.along_append_singleton]

/-- Following a path leads to the state at its end. -/
theorem at_of_follow? (h : t.Complete) (hi : t.follow? startState path = some i) :
    t.At path i := by
  induction path using List.reverseRecOn generalizing i with
  | nil =>
    obtain rfl : startState = i := Option.some.inj hi
    exact h.at_nil
  | append_singleton path x ih =>
    rw [follow?_append_singleton] at hi
    obtain ⟨k, hk, hi⟩ := Option.bind_eq_some_iff.mp hi
    exact h.at_append_singleton (ih hk) hi

/-- A path leads to every state. -/
theorem exists_at (h : t.Complete) (hi : i < t.size) : ∃ path, t.At path i := by
  induction i using Nat.strongRecOn with
  | ind i ih =>
    by_cases hzero : i = 0
    · exact ⟨[], hzero ▸ h.at_nil⟩
    · obtain ⟨k, x, hk, hx⟩ := h.parent i (Nat.pos_of_ne_zero hzero) hi
      obtain ⟨path, hpath⟩ := ih k hk (hk.trans hi)
      exact ⟨path ++ [x], h.at_append_singleton hpath hx⟩

theorem exists_follow? (h : t.Complete) (hne : ∃ c, c ∈ (t.setup.along path).cores) :
    ∃ i, t.follow? startState path = some i := by
  induction path using List.reverseRecOn with
  | nil => exact ⟨startState, rfl⟩
  | append_singleton path x ih =>
    obtain ⟨c, hc⟩ := hne
    obtain ⟨d, hd, rest, hw⟩ := Setup.exists_waits_of_along hc
    obtain ⟨i, hi⟩ := ih ⟨d, hd⟩
    have hat := h.at_of_follow? hi
    rw [← hat.cores] at hd
    have hx : x ∈ (t.get i).nextSymbols :=
      (State.mem_nextSymbols_iff_waits (h.built i hat.lt).proper).mpr ⟨d, hd, rest, hw⟩
    obtain ⟨j, hj⟩ := h.linked i x hx
    refine ⟨j, ?_⟩
    rw [follow?_append_singleton, hi]
    exact hj

theorem exists_at_of_mem {c : Core} (h : t.Complete) (hc : c ∈ (t.setup.along path).cores) :
    ∃ i, t.At path i := by
  obtain ⟨i, hi⟩ := h.exists_follow? ⟨c, hc⟩
  exact ⟨i, h.at_of_follow? hi⟩

/-- Every state has an item. -/
theorem exists_core (h : t.Complete) (hi : i < t.size) : ∃ c, c ∈ (t.get i).itemSet.cores :=
  (h.built i hi).kernel.exists_core

/-- Paths that keep apart lead to different states. -/
theorem not_crowded (h : t.Complete) : ¬t.setup.Crowded := by
  rintro ⟨path, hne, hapart⟩
  choose i hi using fun n => h.exists_follow? (hne n)
  have hat (n : Fin (stateLimit + 1)) : t.At (path n) (i n) := h.at_of_follow? (hi n)
  obtain ⟨n, k, hnk, hnumber⟩ := Fintype.exists_ne_map_eq_of_card_lt
    (fun n => (⟨i n, (hat n).lt⟩ : Fin t.size))
    (by rw [Fintype.card_fin, Fintype.card_fin]; exact Nat.lt_succ_of_le h.size_le)
  have hk : t.At (path k) (i n) := Fin.mk.inj hnumber ▸ hat k
  rcases hapart n k hnk with hcores | ⟨hm, hset⟩
  · exact hcores ((hat n).cores.symm.trans hk.cores)
  · exact hset (((hat n).exact hm).symm.trans (hk.exact hm))

end Complete

/-- With a start rule, crowded setups and no others lead to an error. -/
theorem build_eq_error_iff {g : Grammar} {config : Config} {r : Rule} (h : g.startRule = .ok r) :
    build g config = .error (.fault .tooManyStates) ↔ (Setup.new g config).Crowded := by
  rcases build_cases h config with ⟨herror, hcrowded⟩ | ⟨t, ht⟩
  · exact iff_of_true herror hcrowded
  · refine iff_of_false (by rw [ht]; exact fun he => by cases he) ?_
    rw [← setup_of_build ht]
    exact (complete_of_build ht).not_crowded

end Table

end ShiftReduce
