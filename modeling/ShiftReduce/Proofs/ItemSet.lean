import Mathlib.Data.List.Induction
import Mathlib.Data.Set.Basic
import ShiftReduce.Config
import ShiftReduce.Proofs.Derivation
import ShiftReduce.Proofs.Rules

/-!
# Item sets

What a state is about, apart from the order of its items: the cores, and the lookaheads of each
core. `closure` is the least closed item set above a given one, and `advance` moves the dots over a
symbol. `Grammar.along` follows a path of symbols from the start; its item sets are those that any
collection of states has to represent.
-/

namespace ShiftReduce

/-- Whether items carry lookaheads. -/
def Method.looksAhead (m : Method) : Bool := m ≠ .lr0

/-- The core with its dot behind the next symbol. -/
def Core.next (c : Core) : Core := ⟨c.rule, c.dot + 1⟩

theorem Core.next_inj {c d : Core} (h : c.next = d.next) : c = d := by
  cases c
  cases d
  simp_all [Core.next]

namespace Grammar

/-- The dot of `c` stands before `x`, and `rest` follows `x`. -/
def Waits (g : Grammar) (c : Core) (x : Symbol) (rest : List Symbol) : Prop :=
  ∃ r ∈ g.rules, r.id = c.rule ∧ r.right.drop c.dot = x :: rest

end Grammar

@[ext]
structure ItemSet where
  cores : Set Core
  lookaheads : Set (Core × Symbol)

namespace ItemSet

/-! ## Closure -/

section Closure

variable (g : Grammar) (ahead : Bool) (I : ItemSet)

/-- The cores of an item set and of the alternatives of what they wait for. -/
inductive ClosureCore : Core → Prop where
  | given {c : Core} (h : c ∈ I.cores) : ClosureCore c
  | alternative {c : Core} {q : Rule} {rest : List Symbol} (h : ClosureCore c)
      (hc : g.Waits c (.intermediate q.left) rest) (hq : q ∈ g.rules) : ClosureCore ⟨q.id, 0⟩

/-- The lookaheads of an item set, and those that alternatives get from what follows them. -/
inductive ClosureLookahead : Core → Symbol → Prop where
  | given {c : Core} {y : Symbol} (h : (c, y) ∈ I.lookaheads) : ClosureLookahead c y
  | first {c : Core} {q : Rule} {rest : List Symbol} {x : String} (h : ClosureCore g I c)
      (hc : g.Waits c (.intermediate q.left) rest) (hq : q ∈ g.rules) (ha : ahead = true)
      (hx : g.Begins rest x) : ClosureLookahead ⟨q.id, 0⟩ (.terminal x)
  | pass {c : Core} {q : Rule} {rest : List Symbol} {y : Symbol} (h : ClosureLookahead c y)
      (hc : g.Waits c (.intermediate q.left) rest) (hq : q ∈ g.rules) (ha : ahead = true)
      (hn : g.Derives rest []) : ClosureLookahead ⟨q.id, 0⟩ y

/-- The least closed item set that includes `I`. -/
def closure : ItemSet :=
  ⟨{c | ClosureCore g I c}, {p | ClosureLookahead g ahead I p.1 p.2}⟩

end Closure

/-- Item sets are compared part by part. -/
instance : LE ItemSet := ⟨fun I J => I.cores ⊆ J.cores ∧ I.lookaheads ⊆ J.lookaheads⟩

variable {g : Grammar} {ahead : Bool} {I J : ItemSet} {c : Core} {y : Symbol}

theorem le_refl (I : ItemSet) : I ≤ I := ⟨subset_rfl, subset_rfl⟩

theorem le_trans {K : ItemSet} (h1 : I ≤ J) (h2 : J ≤ K) : I ≤ K :=
  ⟨h1.1.trans h2.1, h1.2.trans h2.2⟩

theorem le_antisymm (h1 : I ≤ J) (h2 : J ≤ I) : I = J :=
  ItemSet.ext (h1.1.antisymm h2.1) (h1.2.antisymm h2.2)

theorem mem_lookaheads_closure :
    (c, y) ∈ (I.closure g ahead).lookaheads ↔ ClosureLookahead g ahead I c y := Iff.rfl

theorem le_closure : I ≤ I.closure g ahead := ⟨fun _ => .given, fun _ => .given⟩

/-- The closed cores depend on the cores only. -/
theorem ClosureCore.congr (h : I.cores ⊆ J.cores) (hc : ClosureCore g I c) : ClosureCore g J c := by
  induction hc with
  | given hc => exact .given (h hc)
  | alternative _ hw hq ih => exact .alternative ih hw hq

theorem cores_closure_congr {ahead' : Bool} (h : I.cores = J.cores) :
    (I.closure g ahead).cores = (J.closure g ahead').cores :=
  Set.Subset.antisymm (fun _ hc => hc.congr h.subset) (fun _ hc => hc.congr h.superset)

/-- Each lookahead of a closure comes from a single lookahead of the item set, or from none. So if
the lookaheads are taken from several item sets with the same cores, the closure of one of these
already has it. -/
theorem ClosureLookahead.exists_source {S : Set ItemSet} (hS : ∃ J, J ∈ S)
    (hcores : ∀ J ∈ S, I.cores ⊆ J.cores)
    (hsource : ∀ p ∈ I.lookaheads, ∃ J ∈ S, p ∈ J.lookaheads) (h : ClosureLookahead g ahead I c y) :
    ∃ J ∈ S, ClosureLookahead g ahead J c y := by
  induction h with
  | given h =>
    obtain ⟨J, hJ, h⟩ := hsource _ h
    exact ⟨J, hJ, .given h⟩
  | first h hc hq ha hx =>
    obtain ⟨J, hJ⟩ := hS
    exact ⟨J, hJ, .first (h.congr (hcores J hJ)) hc hq ha hx⟩
  | pass _ hc hq ha hn ih =>
    obtain ⟨J, hJ, ih⟩ := ih
    exact ⟨J, hJ, .pass ih hc hq ha hn⟩

theorem closure_mono (h : I ≤ J) : I.closure g ahead ≤ J.closure g ahead := by
  refine ⟨fun c hc => hc.congr h.1, fun p hp => ?_⟩
  obtain ⟨K, rfl, hK⟩ := ClosureLookahead.exists_source (S := {J}) ⟨J, rfl⟩
    (fun K hK => hK ▸ h.1) (fun p hp => ⟨J, rfl, h.2 hp⟩) hp
  exact hK

/-- A closed item set is its own closure. -/
theorem closure_le (hle : I ≤ J)
    (hcores : ∀ c ∈ J.cores, ∀ (q : Rule) (rest : List Symbol), q ∈ g.rules →
      g.Waits c (.intermediate q.left) rest → ⟨q.id, 0⟩ ∈ J.cores)
    (hfirst : ∀ c ∈ J.cores, ∀ (q : Rule) (rest : List Symbol) (x : String), q ∈ g.rules →
      g.Waits c (.intermediate q.left) rest → ahead = true → g.Begins rest x →
      (⟨q.id, 0⟩, .terminal x) ∈ J.lookaheads)
    (hpass : ∀ c y, (c, y) ∈ J.lookaheads → ∀ (q : Rule) (rest : List Symbol), q ∈ g.rules →
      g.Waits c (.intermediate q.left) rest → ahead = true → g.Derives rest [] →
      (⟨q.id, 0⟩, y) ∈ J.lookaheads) : I.closure g ahead ≤ J := by
  have hc : ∀ c, ClosureCore g I c → c ∈ J.cores := by
    intro c h
    induction h with
    | given h => exact hle.1 h
    | alternative _ hw hq ih => exact hcores _ ih _ _ hq hw
  refine ⟨hc, ?_⟩
  rintro ⟨c, y⟩ h
  rw [mem_lookaheads_closure] at h
  induction h with
  | given h => exact hle.2 h
  | first h hw hq ha hx => exact hfirst _ (hc _ h) _ _ _ hq hw ha hx
  | pass _ hw hq ha hn ih => exact hpass _ _ ih _ _ hq hw ha hn

theorem closure_closure : (I.closure g ahead).closure g ahead = I.closure g ahead := by
  refine le_antisymm (closure_le (le_refl _) ?_ ?_ ?_) le_closure
  · exact fun c hc q rest hq hw => .alternative hc hw hq
  · exact fun c hc q rest x hq hw ha hx => .first hc hw hq ha hx
  · exact fun c y hc q rest hq hw ha hn => .pass hc hw hq ha hn

/-! ## Uniting -/

/-- Item sets are united part by part. -/
instance : Union ItemSet := ⟨fun I J => ⟨I.cores ∪ J.cores, I.lookaheads ∪ J.lookaheads⟩⟩

theorem le_union_left : I ≤ I ∪ J := ⟨Set.subset_union_left, Set.subset_union_left⟩

theorem le_union_right : J ≤ I ∪ J := ⟨Set.subset_union_right, Set.subset_union_right⟩

/-- What makes an item set closed asks for one core at a time, or for one lookahead. -/
theorem ClosureCore.of_union (h : ClosureCore g (I ∪ J) c) :
    ClosureCore g I c ∨ ClosureCore g J c := by
  induction h with
  | given h => exact h.imp .given .given
  | alternative _ hw hq ih => exact ih.imp (.alternative · hw hq) (.alternative · hw hq)

theorem ClosureLookahead.of_union (h : ClosureLookahead g ahead (I ∪ J) c y) :
    ClosureLookahead g ahead I c y ∨ ClosureLookahead g ahead J c y := by
  induction h with
  | given h => exact h.imp .given .given
  | first h hw hq ha hx => exact h.of_union.imp (.first · hw hq ha hx) (.first · hw hq ha hx)
  | pass _ hw hq ha hn ih => exact ih.imp (.pass · hw hq ha hn) (.pass · hw hq ha hn)

/-- So closing item sets goes with uniting them. -/
theorem closure_union :
    (I ∪ J).closure g ahead = I.closure g ahead ∪ J.closure g ahead := by
  refine le_antisymm ⟨fun c hc => ClosureCore.of_union hc, fun p hp => ClosureLookahead.of_union hp⟩
    ⟨?_, ?_⟩
  · rintro c (hc | hc)
    · exact hc.congr le_union_left.1
    · exact hc.congr le_union_right.1
  · rintro p (hp | hp)
    · exact (closure_mono le_union_left).2 hp
    · exact (closure_mono le_union_right).2 hp

/-! ## Advancing -/

/-- The items that wait for `x`, moved over it. -/
def advance (g : Grammar) (I : ItemSet) (x : Symbol) : ItemSet :=
  ⟨{c | ∃ d ∈ I.cores, (∃ rest, g.Waits d x rest) ∧ c = d.next},
    {p | ∃ d, (d, p.2) ∈ I.lookaheads ∧ (∃ rest, g.Waits d x rest) ∧ p.1 = d.next}⟩

theorem advance_mono (h : I ≤ J) (x : Symbol) : I.advance g x ≤ J.advance g x :=
  ⟨fun _ ⟨d, hd, hw, he⟩ => ⟨d, h.1 hd, hw, he⟩, fun _ ⟨d, hd, hw, he⟩ => ⟨d, h.2 hd, hw, he⟩⟩

theorem cores_advance_congr (h : I.cores = J.cores) (x : Symbol) :
    (I.advance g x).cores = (J.advance g x).cores := by
  simp only [advance, h]

/-- The closed item set behind `x`. -/
def successor (g : Grammar) (ahead : Bool) (I : ItemSet) (x : Symbol) : ItemSet :=
  (I.advance g x).closure g ahead

theorem successor_mono (h : I ≤ J) (x : Symbol) : I.successor g ahead x ≤ J.successor g ahead x :=
  closure_mono (advance_mono h x)

theorem cores_successor_congr {ahead' : Bool} (h : I.cores = J.cores) (x : Symbol) :
    (I.successor g ahead x).cores = (J.successor g ahead' x).cores :=
  cores_closure_congr (cores_advance_congr h x)

/-- Each lookahead of a successor comes from one of the sources of the lookaheads. -/
theorem exists_source_successor {S : Set ItemSet} (hS : ∃ J, J ∈ S)
    (hcores : ∀ J ∈ S, I.cores ⊆ J.cores)
    (hsource : ∀ p ∈ I.lookaheads, ∃ J ∈ S, p ∈ J.lookaheads) {x : Symbol} {p : Core × Symbol}
    (h : p ∈ (I.successor g ahead x).lookaheads) :
    ∃ J ∈ S, p ∈ (J.successor g ahead x).lookaheads := by
  obtain ⟨K, ⟨J, hJ, rfl⟩, hK⟩ :=
    ClosureLookahead.exists_source (S := {K | ∃ J ∈ S, K = J.advance g x})
      (hS.elim fun J hJ => ⟨_, J, hJ, rfl⟩)
      (by
        rintro K ⟨J, hJ, rfl⟩ c ⟨d, hd, hw, he⟩
        exact ⟨d, hcores J hJ hd, hw, he⟩)
      (by
        rintro p ⟨d, hd, hw, he⟩
        obtain ⟨J, hJ, hd⟩ := hsource _ hd
        exact ⟨_, ⟨J, hJ, rfl⟩, d, hd, hw, he⟩)
      h
  exact ⟨J, hJ, hK⟩

/-! ## Lookaheads in reach -/

/-- Lookaheads are taken from the right sides and the end of input, if there are any. -/
def Bounded (g : Grammar) (ahead : Bool) (endOfInput : String) (I : ItemSet) : Prop :=
  ∀ p ∈ I.lookaheads, ahead = true ∧ p.2 ∈ .terminal endOfInput :: Grammar.rightSymbols g.rules

variable {e : String}

theorem Bounded.closure (h : I.Bounded g ahead e) : (I.closure g ahead).Bounded g ahead e := by
  rintro ⟨c, y⟩ hc
  rw [mem_lookaheads_closure] at hc
  induction hc with
  | given hc => exact h _ hc
  | @first c q rest x _ hw _ ha hx =>
    obtain ⟨r, hr, -, hd⟩ := hw
    refine ⟨ha, List.mem_cons_of_mem _ ?_⟩
    rcases hx.mem with hx | ⟨q, hq, hx⟩
    · have hmem := List.mem_cons_of_mem (.intermediate q.left) hx
      rw [← hd] at hmem
      exact List.mem_flatMap.mpr ⟨r, hr, List.mem_of_mem_drop hmem⟩
    · exact List.mem_flatMap.mpr ⟨q, hq, hx⟩
  | pass _ _ _ _ _ ih => exact ih

theorem Bounded.advance (h : I.Bounded g ahead e) (x : Symbol) :
    (I.advance g x).Bounded g ahead e := by
  rintro p ⟨d, hd, -, -⟩
  exact h (d, p.2) hd

theorem Bounded.successor (h : I.Bounded g ahead e) (x : Symbol) :
    (I.successor g ahead x).Bounded g ahead e :=
  (h.advance x).closure

theorem Bounded.lookaheads_eq_empty (h : I.Bounded g false e) : I.lookaheads = ∅ := by
  rw [Set.eq_empty_iff_forall_notMem]
  exact fun p hp => absurd (h p hp).1 Bool.false_ne_true

/-! ## The start -/

/-- The item set of rule 1 with nothing read. -/
def start (ahead : Bool) (endOfInput : String) : ItemSet :=
  ⟨{⟨startId, 0⟩}, {p | ahead = true ∧ p = (⟨startId, 0⟩, .terminal endOfInput)}⟩

theorem bounded_start : (start ahead e).Bounded g ahead e := by
  rintro p ⟨ha, rfl⟩
  exact ⟨ha, List.mem_cons_self⟩

end ItemSet

/-! ## Paths -/

namespace Grammar

/-- The item set that a path of symbols leads to. -/
def along (g : Grammar) (ahead : Bool) (endOfInput : String) (path : List Symbol) : ItemSet :=
  path.foldl (ItemSet.successor g ahead) ((ItemSet.start ahead endOfInput).closure g ahead)

variable {g : Grammar} {ahead : Bool} {e : String}

theorem along_append_singleton (path : List Symbol) (x : Symbol) :
    g.along ahead e (path ++ [x]) = (g.along ahead e path).successor g ahead x := by
  simp [along, List.foldl_append]

/-- The cores on a path depend neither on lookaheads nor on the end of input. -/
theorem cores_along {ahead' : Bool} {e' : String} (path : List Symbol) :
    (g.along ahead e path).cores = (g.along ahead' e' path).cores := by
  induction path using List.reverseRecOn with
  | nil => exact ItemSet.cores_closure_congr rfl
  | append_singleton path x ih =>
    rw [along_append_singleton, along_append_singleton]
    exact ItemSet.cores_successor_congr ih x

theorem closure_along (path : List Symbol) :
    (g.along ahead e path).closure g ahead = g.along ahead e path := by
  cases path using List.reverseRecOn with
  | nil => exact ItemSet.closure_closure
  | append_singleton path x =>
    rw [along_append_singleton]
    exact ItemSet.closure_closure

end Grammar

end ShiftReduce
