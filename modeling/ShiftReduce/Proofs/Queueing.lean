import ShiftReduce.Docket
import ShiftReduce.Proofs.Worklists

/-!
# First in, first out

A way of queueing is lawful if what is pending stays in step with the queue, whatever it is asked.
Then the queue and the log are those of a plain list, and the values that have been queued are those
that have been taken out, followed by those that are still queued. Worklists and dockets are lawful.
-/

namespace ShiftReduce

universe u

variable {σ α : Type u}

/-! ## Taking out of an ordered set -/

namespace OrderedSet

/-- Once a value and the last one have changed places, it is the last one. -/
theorem swap_pop_push {l : Array α} {n : Nat} (h : n < l.size) :
    (l.swapIfInBounds n (l.size - 1)).pop.push l[n] = l.swapIfInBounds n (l.size - 1) := by
  ext i <;> grind

variable [Ord α] {s : OrderedSet α} {a b : α}

theorem perm_swapRemoveAt {n : Nat} (h : s.toList[n]? = some a) :
    ((s.swapRemoveAt n).toList ++ [a]).Perm s.toList := by
  obtain ⟨hn, rfl⟩ := List.getElem?_eq_some_iff.mp h
  have hn : n < s.toArray.size := hn
  have hpush := congrArg Array.toList (swap_pop_push hn)
  rw [Array.toList_push] at hpush
  exact hpush ▸ perm_swapIfInBounds s.toArray n (s.size - 1)

variable [Std.TransOrd α] [Std.LawfulEqOrd α]

theorem mem_swapRemove : b ∈ s.swapRemove a ↔ b ∈ s ∧ b ≠ a := by
  unfold swapRemove
  split
  case h_1 n hplace =>
    have hperm := perm_swapRemoveAt (place?_eq_some_iff.mp hplace)
    have hnodup := hperm.nodup_iff.mpr s.nodup
    have ha : a ∉ s.swapRemoveAt n := fun ha =>
      (List.nodup_append.mp hnodup).2.2 a ha a (List.mem_singleton_self a) rfl
    rw [← mem_toList (s := s), ← hperm.mem_iff, List.mem_append, List.mem_singleton, mem_toList]
    constructor
    · intro hb
      exact ⟨.inl hb, fun he => ha (he ▸ hb)⟩
    · rintro ⟨hb | rfl, hne⟩
      · exact hb
      · exact absurd rfl hne
  case h_2 hplace =>
    have ha := place?_eq_none_iff.mp hplace
    exact ⟨fun hb => ⟨hb, fun he => ha (he ▸ hb)⟩, And.left⟩

end OrderedSet

/-! ## Ways of queueing -/

namespace Queueing

/-- What is pending is what is queued. -/
structure InStep (q : Queueing σ α) (s : σ) : Prop where
  nodup : (q.queue s).Nodup
  pending : ∀ a, q.Pending s a ↔ a ∈ q.queue s

/-- What can come of a move. -/
structure Lawful (q : Queueing σ α) : Prop where
  empty : q.InStep q.empty
  queue_empty : q.queue q.empty = []
  isEmpty_iff : ∀ s, q.isEmpty s = true ↔ q.queue s = []
  refuse : ∀ s a, q.InStep s → a ∈ q.queue s → q.push s a = (s, false)
  accept : ∀ s a, q.InStep s → a ∉ q.queue s → ∃ t, q.push s a = (t, true) ∧
    q.queue t = q.queue s ++ [a] ∧ q.InStep t
  idle : ∀ s, q.queue s = [] → q.pop? s = none
  take : ∀ s a l, q.InStep s → q.queue s = a :: l → ∃ t, q.pop? s = some (a, t) ∧
    q.queue t = l ∧ q.InStep t

variable {q : Queueing σ α} {s : σ} {a : α}

@[simp] theorem entered_cons (e : Event α) (log : List (Event α)) :
    entered (e :: log) = e.queued?.toList ++ entered log := by
  cases e <;> rfl

@[simp] theorem left_cons (e : Event α) (log : List (Event α)) :
    left (e :: log) = e.taken?.toList ++ left log := by
  cases e <;> rfl

theorem Lawful.push_iff (h : q.Lawful) (hs : q.InStep s) :
    (q.push s a).2 = true ↔ a ∉ q.queue s := by
  by_cases ha : a ∈ q.queue s
  · simp [h.refuse s a hs ha, ha]
  · obtain ⟨t, ht, -⟩ := h.accept s a hs ha
    simp [ht, ha]

theorem Lawful.queue_push (h : q.Lawful) (hs : q.InStep s) (ha : a ∉ q.queue s) :
    q.queue (q.push s a).1 = q.queue s ++ [a] := by
  obtain ⟨t, ht, hqueue, -⟩ := h.accept s a hs ha
  rw [ht]
  exact hqueue

theorem Lawful.pop?_eq_none_iff (h : q.Lawful) (hs : q.InStep s) :
    q.pop? s = none ↔ q.queue s = [] := by
  refine ⟨fun hnone => ?_, h.idle s⟩
  cases hq : q.queue s with
  | nil => rfl
  | cons a l =>
    obtain ⟨t, ht, -⟩ := h.take s a l hs hq
    rw [hnone] at ht
    cases ht

theorem Lawful.pop?_eq_some (h : q.Lawful) (hs : q.InStep s) {t : σ}
    (ht : q.pop? s = some (a, t)) : q.queue s = a :: q.queue t ∧ q.InStep t := by
  cases hq : q.queue s with
  | nil => simp [h.idle s hq] at ht
  | cons b l =>
    obtain ⟨r, hr, rfl, hrs⟩ := h.take s b l hs hq
    cases hr.symm.trans ht
    exact ⟨rfl, hrs⟩

/-! ### Plain lists -/

variable [DecidableEq α]

theorem plain_make (l : List α) (m : Move α) :
    l ++ (plain.make l m).2.queued?.toList =
      (plain.make l m).2.taken?.toList ++ (plain.make l m).1 := by
  cases m with
  | push a =>
    by_cases ha : a ∈ l <;> simp [make, plain, ha, Event.queued?, Event.taken?]
  | pop => cases l <;> simp [make, plain, Event.queued?, Event.taken?]

/-- Nothing is lost and nothing comes twice, and the order is kept. -/
theorem plain_run (l : List α) (moves : List (Move α)) :
    l ++ entered (plain.run l moves).2 = left (plain.run l moves).2 ++ (plain.run l moves).1 := by
  induction moves generalizing l with
  | nil => simp [run, entered, left]
  | cons m moves ih =>
    simp only [run, entered_cons, left_cons]
    rw [← List.append_assoc, plain_make, List.append_assoc, ih, List.append_assoc]

/-- A move on a lawful queue is one on a plain list. -/
theorem Lawful.make (h : q.Lawful) (hs : q.InStep s) (m : Move α) :
    q.InStep (q.make s m).1 ∧
      plain.make (q.queue s) m = (q.queue (q.make s m).1, (q.make s m).2) := by
  cases m with
  | push a =>
    by_cases ha : a ∈ q.queue s
    · simp [Queueing.make, h.refuse s a hs ha, plain, ha, hs]
    · obtain ⟨t, ht, hqueue, hstep⟩ := h.accept s a hs ha
      simp [Queueing.make, ht, plain, ha, hqueue, hstep]
  | pop =>
    cases hq : q.queue s with
    | nil => simp [Queueing.make, h.idle s hq, plain, hq, hs]
    | cons a l =>
      obtain ⟨t, ht, hqueue, hstep⟩ := h.take s a l hs hq
      simp [Queueing.make, ht, plain, hqueue, hstep]

theorem Lawful.run (h : q.Lawful) (hs : q.InStep s) (moves : List (Move α)) :
    q.InStep (q.run s moves).1 ∧
      plain.run (q.queue s) moves = (q.queue (q.run s moves).1, (q.run s moves).2) := by
  induction moves generalizing s with
  | nil => exact ⟨hs, rfl⟩
  | cons m moves ih =>
    obtain ⟨hstep, hmake⟩ := h.make hs m
    obtain ⟨hrun, hsame⟩ := ih hstep
    refine ⟨hrun, ?_⟩
    simp only [Queueing.run, hmake, hsame]

theorem Lawful.after (h : q.Lawful) (moves : List (Move α)) :
    q.InStep (q.after moves).1 ∧
      plain.after moves = (q.queue (q.after moves).1, (q.after moves).2) := by
  have hrun := h.run h.empty moves
  rwa [h.queue_empty] at hrun

theorem Lawful.entered_after (h : q.Lawful) (moves : List (Move α)) :
    entered (q.after moves).2 = left (q.after moves).2 ++ q.queue (q.after moves).1 := by
  have hplain : entered (plain.after moves).2 =
      left (plain.after moves).2 ++ (plain.after moves).1 := plain_run [] moves
  rwa [(h.after moves).2] at hplain

end Queueing

/-! ## Worklists and dockets -/

namespace Worklist

variable [Ord α] {w : Worklist α}

theorem inStep_queueing : queueing.InStep w ↔ w.InStep :=
  ⟨fun h => ⟨h.nodup, h.pending⟩, fun h => ⟨h.nodup, h.pending⟩⟩

variable [Std.TransOrd α] [Std.LawfulEqOrd α]

theorem lawful : (queueing : Queueing (Worklist α) α).Lawful where
  empty := inStep_queueing.mpr inStep_empty
  queue_empty := rfl
  isEmpty_iff _ := List.isEmpty_iff
  refuse w a hw ha := by
    have hw := inStep_queueing.mp hw
    have hrefused : (w.push a).2 = false := by
      rw [Bool.eq_false_iff]
      exact fun hfresh => hw.push_iff.mp hfresh ha
    exact Prod.ext (hw.push_of_mem ha) hrefused
  accept w a hw ha := by
    have hw := inStep_queueing.mp hw
    exact ⟨(w.push a).1, Prod.ext rfl (hw.push_iff.mpr ha), hw.queue_push_of_not_mem ha,
      inStep_queueing.mpr (hw.push a)⟩
  idle _ hq := pop?_eq_none.mpr hq
  take w a l hw hq := by
    have hpop := pop?_of_cons hq
    exact ⟨_, hpop, rfl, inStep_queueing.mpr ((inStep_queueing.mp hw).pop? hpop).2⟩

end Worklist

namespace Docket

variable [Ord α] {d : Docket α} {a : α}

theorem pop?_of_nil (hq : d.queue = []) : d.pop? = none := by
  rw [pop?, hq]

theorem pop?_of_cons {l : List α} (hq : d.queue = a :: l) :
    d.pop? = some (a, ⟨l, d.pending.swapRemove a⟩) := by
  rw [pop?, hq]

variable [Std.TransOrd α] [Std.LawfulEqOrd α]

theorem push_of_mem (ha : a ∈ d.pending) : d.push a = (d, false) := by
  simp [push, ha, OrderedSet.insert_of_mem ha]

theorem push_of_not_mem (ha : a ∉ d.pending) :
    d.push a = (⟨d.queue ++ [a], d.pending.insert a⟩, true) := by
  simp [push, ha]

theorem lawful : (queueing : Queueing (Docket α) α).Lawful where
  empty := ⟨List.nodup_nil, fun a => iff_of_false (OrderedSet.not_mem_empty a) List.not_mem_nil⟩
  queue_empty := rfl
  isEmpty_iff _ := List.isEmpty_iff
  refuse d a hd ha := push_of_mem ((hd.pending a).mpr ha)
  accept d a hd ha := by
    refine ⟨_, push_of_not_mem (mt (hd.pending a).mp ha), rfl, ?_, fun b => ?_⟩
    · exact List.concat_eq_append ▸ hd.nodup.concat ha
    · calc b ∈ d.pending.insert a
          ↔ b ∈ d.pending ∨ b = a := OrderedSet.mem_insert
        _ ↔ b ∈ d.queue ∨ b = a := or_congr_left (hd.pending b)
        _ ↔ b ∈ d.queue ++ [a] := by rw [List.mem_append, List.mem_singleton]
  idle _ hq := pop?_of_nil hq
  take d a l hd hq := by
    obtain ⟨ha, hl⟩ := List.nodup_cons.mp (hq ▸ hd.nodup)
    refine ⟨_, pop?_of_cons hq, rfl, hl, fun b => ?_⟩
    -- the first value is taken out of the set, wherever it stands there
    calc b ∈ d.pending.swapRemove a
        ↔ b ∈ d.pending ∧ b ≠ a := OrderedSet.mem_swapRemove
      _ ↔ b ∈ a :: l ∧ b ≠ a := and_congr_left fun _ => hq ▸ hd.pending b
      _ ↔ b ∈ l := by
        rw [List.mem_cons]
        exact ⟨fun h => h.1.resolve_left h.2, fun hb => ⟨.inr hb, fun he => ha (he ▸ hb)⟩⟩

end Docket

/-! ## Whatever is asked -/

namespace Queueing

/-- What moves lead to when nothing is waiting: the state `s`, and the log of what came of them. -/
structure InTurn [DecidableEq α] (q : Queueing σ α) (moves : List (Move α)) (s : σ)
    (log : List (Event α)) : Prop where
  pending : ∀ a, q.Pending s a ↔ a ∈ q.queue s
  nodup : (q.queue s).Nodup
  /-- Values are taken out in the order in which they were queued, and those that are still queued
  come next. -/
  balance : entered log = left log ++ q.queue s
  /-- A value is waiting if it has been queued once more than it has been taken out. -/
  waiting : ∀ a, a ∈ q.queue s ↔ (entered log).count a = (left log).count a + 1
  /-- A push is accepted exactly if the value is not waiting. -/
  fresh : ∀ a, (q.push s a).2 = true ↔ a ∉ q.queue s
  behind : ∀ a, a ∉ q.queue s → q.queue (q.push s a).1 = q.queue s ++ [a]
  refused : ∀ a, a ∈ q.queue s → (q.push s a).1 = s
  isEmpty : q.isEmpty s = true ↔ q.queue s = []
  idle : q.pop? s = none ↔ q.queue s = []
  first : ∀ a t, q.pop? s = some (a, t) → q.queue s = a :: q.queue t
  /-- A value that has been taken out can be queued again. -/
  again : ∀ a t, q.pop? s = some (a, t) →
    (q.push t a).2 = true ∧ q.queue (q.push t a).1 = q.queue t ++ [a]
  /-- A list that is searched for every value gives the same answers. -/
  answers : log = (plain.after moves).2

theorem Lawful.inTurn [DecidableEq α] {q : Queueing σ α} (h : q.Lawful) (moves : List (Move α)) :
    q.InTurn moves (q.after moves).1 (q.after moves).2 := by
  obtain ⟨hs, hsame⟩ := h.after moves
  have hbalance := h.entered_after moves
  constructor
  case pending => exact hs.pending
  case nodup => exact hs.nodup
  case balance => exact hbalance
  case waiting =>
    intro a
    rw [hbalance, List.count_append, Nat.add_left_cancel_iff, hs.nodup.count]
    split <;> simp [*]
  case fresh => exact fun a => h.push_iff hs
  case behind => exact fun a => h.queue_push hs
  case refused => exact fun a ha => congrArg Prod.fst (h.refuse _ a hs ha)
  case isEmpty => exact h.isEmpty_iff _
  case idle => exact h.pop?_eq_none_iff hs
  case first => exact fun a t ht => (h.pop?_eq_some hs ht).1
  case again =>
    intro a t ht
    obtain ⟨hqueue, hts⟩ := h.pop?_eq_some hs ht
    have ha : a ∉ q.queue t := (List.nodup_cons.mp (hqueue ▸ hs.nodup)).1
    exact ⟨(h.push_iff hts).mpr ha, h.queue_push hts ha⟩
  case answers => rw [hsame]

end Queueing

namespace Docket

open Queueing

/-- Whatever is pushed and popped, values go through a docket in turn, and so they do through a
worklist. -/
theorem inTurn_after [Ord α] [Std.TransOrd α] [Std.LawfulEqOrd α] [DecidableEq α]
    (moves : List (Move α)) :
    Docket.queueing.InTurn moves (Docket.queueing.after moves).1 (Docket.queueing.after moves).2 ∧
      Worklist.queueing.InTurn moves (Worklist.queueing.after moves).1
        (Worklist.queueing.after moves).2 :=
  ⟨Docket.lawful.inTurn moves, Worklist.lawful.inTurn moves⟩

-- 3 has moved to the place of 1, so the set and the queue hold the same values in another order
theorem inTurn_recurring :
    let moves : List (Move Nat) := [.push 1, .push 2, .push 3, .push 1, .pop, .push 1]
    let r := Docket.queueing.after moves
    r.1.queue = [2, 3, 1] ∧ r.1.pending.toList = [3, 2, 1] ∧
      r.2 = [.queued 1, .queued 2, .queued 3, .refused 1, .taken 1, .queued 1] ∧
      Docket.queueing.InTurn moves r.1 r.2 :=
  ⟨by decide +kernel, by decide +kernel, by decide +kernel, (inTurn_after _).1⟩

end Docket

end ShiftReduce
