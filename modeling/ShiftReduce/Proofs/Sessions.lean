import ShiftReduce.Proofs.Rounds
import ShiftReduce.Proofs.Tables
import ShiftReduce.State.Session

/-!
# What sessions keep

Every state of a session is a roster that stands for an orderly state, so its entries stand under
their own cores, which are distinct, and no dot is outside its rule. What a call can do to a session
is little: add states behind the others, or change one, and a closed state changes only in that
lookaheads grow and successors are recorded. A call that is broken off changes nothing.
-/

namespace ShiftReduce

/-! ## States under calls -/

namespace Item

/-- `j` is `i` with more lookaheads, whatever successor is recorded. -/
structure Widens (i j : Item) : Prop where
  rule : j.rule = i.rule
  dot : j.dot = i.dot
  lookaheads : i.lookaheads.toList <+: j.lookaheads.toList

theorem Widens.refl (i : Item) : Widens i i := ⟨rfl, rfl, List.prefix_rfl⟩

theorem Widens.trans {i j k : Item} (h1 : Widens i j) (h2 : Widens j k) : Widens i k :=
  ⟨h2.rule.trans h1.rule, h2.dot.trans h1.dot, h1.lookaheads.trans h2.lookaheads⟩

theorem widens_unite (i : Item) (la : OrderedSet Symbol) : Widens i (i.unite la) := by
  refine ⟨rfl, rfl, ?_⟩
  rw [unite, OrderedSet.union_eq]
  exact OrderedSet.prefix_insertAll _ _

end Item

namespace State

variable {s t r : State} {grew : Bool}

/-- A closed state keeps its items, and stays closed. -/
def Remains (s t : State) : Prop :=
  s.closed = true → t.closed = true ∧ List.Forall₂ Item.Widens s.items t.items

theorem Remains.refl (s : State) : Remains s s := fun hc =>
  ⟨hc, List.forall₂_same.mpr fun i _ => .refl i⟩

theorem Remains.trans (h1 : Remains s t) (h2 : Remains t r) : Remains s r := by
  have hlists {l m n : List Item} (h1 : List.Forall₂ Item.Widens l m)
      (h2 : List.Forall₂ Item.Widens m n) : List.Forall₂ Item.Widens l n := by
    induction h1 generalizing n with
    | nil => exact h2
    | cons hij _ ih =>
      cases h2 with
      | cons hjk h2 => exact .cons (hij.trans hjk) (ih h2)
  intro hc
  obtain ⟨hct, hst⟩ := h1 hc
  obtain ⟨hcr, htr⟩ := h2 hct
  exact ⟨hcr, hlists hst htr⟩

theorem remains_add (hn : s.cores.Nodup) {q : Rule} {dot : Nat} {la : OrderedSet Symbol}
    (h : s.add q dot la = .ok (t, grew)) : Remains s t := by
  intro hc
  rcases (add_eq_ok hn h).2 with rfl | ⟨hopen, -⟩
  · refine ⟨hc, List.forall₂_map_right_iff.mpr (List.forall₂_same.mpr fun i _ => ?_)⟩
    split
    · exact i.widens_unite _
    · exact .refl i
  · rw [hc] at hopen
    cases hopen

theorem remains_absorb (h : s.cores = t.cores) : Remains s (s.absorb t) := by
  have hitems {l m : List Item} (hlen : l.length = m.length) :
      List.Forall₂ Item.Widens l (l.zipWith (fun i j => i.unite j.lookaheads) m) := by
    induction l generalizing m with
    | nil => exact .nil
    | cons i l ih =>
      cases m with
      | nil => cases hlen
      | cons j m => exact .cons (i.widens_unite _) (ih (Nat.succ.inj hlen))
  exact fun hc => ⟨hc, hitems (Alike.length_eq h)⟩

theorem remains_assign (x : Symbol) (target : StateId) : Remains s (s.assign x target) := by
  refine fun hc => ⟨hc, List.forall₂_map_right_iff.mpr (List.forall₂_same.mpr fun i _ => ?_)⟩
  split
  · exact ⟨rfl, rfl, List.prefix_rfl⟩
  · exact .refl i

theorem Orderly.assign (hs : s.Orderly) (x : Symbol) (target : StateId) :
    (s.assign x target).Orderly := by
  refine ⟨by rw [cores_assign]; exact hs.nodup, fun k hk => ?_⟩
  obtain ⟨i, hi, rfl⟩ := List.mem_map.mp hk
  split <;> exact hs.carries i hi

theorem orderly_start (m : Method) (q : Rule) (la : OrderedSet Symbol) :
    Orderly { draft m with items := [.ofRule q (carried m la)] } := by
  refine ⟨List.nodup_singleton _, fun i hi => ?_⟩
  rw [List.mem_singleton.mp hi]
  exact carried_carried m la

/-- The answer of adding or merging tells whether the items have changed. -/
theorem Added.grew_iff_ne (h : Added s t grew) : grew = true ↔ t.items ≠ s.items := by
  cases grew with
  | false => simp [h.eq_of_not_grew]
  | true =>
    have hlt := h.grew_iff.mp rfl
    refine iff_of_true rfl fun hsame => Nat.lt_irrefl s.weight ?_
    have hweight : t.weight = s.weight := by simp only [weight, lookaheadCount, hsame]
    exact hweight ▸ hlt

end State

/-! ## Sessions of states -/

namespace Session

open Roster (of)

/-- The session has the states `S`, which are orderly. -/
structure Stands (σ : Session) (S : List State) : Prop where
  eq : σ = S.map of
  orderly : ∀ s ∈ S, s.Orderly

/-- What a call can do to the states of a session. -/
inductive Does (S : List State) (c : Call) : Reply → List State → Prop where
  | nothing {a : Reply} (h : ∀ b, a ≠ .changed b) : Does S c a S
  | makes (L : List State) : Does S c .done (S ++ L)
  | changes {n : Nat} {s t : State} {a : Reply} (hn : c.places.head? = some n)
      (hs : S[n]? = some s) (ht : s.Remains t) (ha : ∀ f, a ≠ .panicked f)
      (hb : ∀ b, a = .changed b → (b = true ↔ t.items ≠ s.items)) : Does S c a (S.set n t)

variable {σ τ : Session} {S : List State} {c : Call} {a : Reply} {n : Nat} {s : State}

theorem Stands.exists_of_getElem? (h : Stands σ S) {r : Roster} (hr : σ[n]? = some r) :
    ∃ s, S[n]? = some s ∧ r = of s ∧ s.Orderly := by
  rw [h.eq, List.getElem?_map, Option.map_eq_some_iff] at hr
  obtain ⟨s, hs, rfl⟩ := hr
  exact ⟨s, hs, rfl, h.orderly s (List.mem_of_getElem? hs)⟩

theorem Stands.append (h : Stands σ S) {L : List State} (hL : ∀ s ∈ L, s.Orderly) :
    Stands (σ ++ L.map of) (S ++ L) where
  eq := by rw [h.eq, List.map_append]
  orderly s hs := (List.mem_append.mp hs).elim (h.orderly s) (hL s)

theorem Stands.makes (h : Stands σ S) (hs : s.Orderly) :
    ∃ T, Stands (σ ++ [of s]) T ∧ Does S c .done T :=
  ⟨S ++ [s], h.append (L := [s]) (by simpa using hs), .makes [s]⟩

theorem Stands.set (h : Stands σ S) {t : State} (ht : t.Orderly) (n : Nat) :
    Stands (σ.set n (of t)) (S.set n t) where
  eq := by rw [h.eq, List.map_set]
  orderly s hs := (List.mem_or_eq_of_mem_set hs).elim (h.orderly s) fun he => he ▸ ht

theorem Stands.set_self (h : Stands σ S) (hs : S[n]? = some s) : Stands (σ.set n (of s)) S := by
  have hsame : S.set n s = S := by
    obtain ⟨hlt, rfl⟩ := List.getElem?_eq_some_iff.mp hs
    exact List.set_getElem_self hlt
  have hset := h.set (h.orderly s (List.mem_of_getElem? hs)) n
  rwa [hsame] at hset

/-- A call that adds or merges either leaves a state that has become heavier as its answer says, or
it is broken off. -/
theorem Stands.outcome (h : Stands σ S) (hn : c.places.head? = some n) (hs : S[n]? = some s)
    {x : Except Fault (State × Bool)}
    (hx : ∀ t grew, x = .ok (t, grew) → t.Orderly ∧ s.Remains t ∧ State.Added s t grew) :
    ∃ T, Stands (σ.set n (Roster.outcome s x).2) T ∧ Does S c (.of (Roster.outcome s x).1) T := by
  cases x with
  | error e => exact ⟨S, h.set_self hs, .nothing nofun⟩
  | ok p =>
    obtain ⟨ht, hremains, hadded⟩ := hx p.1 p.2 rfl
    refine ⟨S.set n p.1, h.set ht n, .changes hn hs hremains nofun fun b hb => ?_⟩
    obtain rfl : p.2 = b := by cases hb; rfl
    exact hadded.grew_iff_ne

/-- One call, one case for each. -/
theorem Stands.step (h : Stands σ S) (hstep : Step σ c a τ) : ∃ T, Stands τ T ∧ Does S c a T := by
  cases hstep with
  | @new m => exact h.makes (s := State.draft m) ⟨List.nodup_nil, nofun⟩
  | @start m g x r hr =>
    rw [Roster.start_eq] at hr
    cases hg : g.startRule with
    | error e => simp [hg, Except.map] at hr
    | ok q =>
      obtain rfl : of _ = r := Except.ok.inj ((congrArg (Except.map _) hg.symm).trans hr)
      exact h.makes (State.orderly_start m q (.ofList [x]))
  | refuse hr => exact ⟨S, h, .nothing nofun⟩
  | copy hr =>
    obtain ⟨s, hs, rfl, hord⟩ := h.exists_of_getElem? hr
    exact h.makes hord
  | @addItem n r q dot la hr =>
    obtain ⟨s, hs, rfl, hord⟩ := h.exists_of_getElem? hr
    rw [Roster.run_addItem hord.nodup]
    exact h.outcome rfl hs fun t grew hadd =>
      ⟨hord.add hadd, State.remains_add hord.nodup hadd, (State.add_eq_ok hord.nodup hadd).1⟩
  | @close n r t g f hr hc =>
    obtain ⟨s, hs, rfl, hord⟩ := h.exists_of_getElem? hr
    cases hclosed : s.closed with
    | true =>
      obtain rfl := Roster.eq_of_closes hclosed hc
      exact ⟨S, h.set_self hs, .nothing nofun⟩
    | false =>
      obtain ⟨k, hk, rfl⟩ := Roster.of_closes hord hclosed hc
      have hord : State.Orderly { k with closed := true } := ⟨hk.orderly.nodup, hk.orderly.carries⟩
      refine ⟨_, h.set hord n, .changes rfl hs ?_ nofun nofun⟩
      intro hc
      rw [hclosed] at hc
      cases hc
  | closingFails hr hc t =>
    obtain ⟨s, hs, rfl, hord⟩ := h.exists_of_getElem? hr
    exact absurd hc (Roster.not_closingFails hord _)
  | merge hr hk =>
    obtain ⟨s, hs, rfl, hord⟩ := h.exists_of_getElem? hr
    obtain ⟨t, -, rfl, htord⟩ := h.exists_of_getElem? hk
    rw [Roster.run_merge]
    refine h.outcome rfl hs fun m grew hmerge => ?_
    obtain ⟨hmergeable, hm, hgrew⟩ := State.merge_eq_ok_iff.mp hmerge
    have hcores := State.cores_eq_of_mergeable hmergeable
    rw [hm, hgrew]
    exact ⟨hm ▸ hord.merge htord hmerge, State.remains_absorb hcores,
      State.added_absorb hord.nodup hcores⟩
  | successors hr hl =>
    obtain ⟨s, hs, rfl, hord⟩ := h.exists_of_getElem? hr
    rw [Roster.successors_of hord] at hl
    cases hl
    have hdrafts : (s.successors.map fun p => (p.1, of p.2)).map Prod.snd =
        (s.successors.map Prod.snd).map of := by
      rw [List.map_map, List.map_map]
      rfl
    rw [hdrafts]
    refine ⟨_, h.append fun d hd => ?_, .makes _⟩
    rw [State.successors_eq, List.map_map] at hd
    obtain ⟨x, -, rfl⟩ := List.mem_map.mp hd
    exact hord.successorDraft x
  | successorsFail hr hl =>
    obtain ⟨s, hs, rfl, hord⟩ := h.exists_of_getElem? hr
    rw [Roster.successors_of hord] at hl
    cases hl
  | assign hr =>
    obtain ⟨s, hs, rfl, hord⟩ := h.exists_of_getElem? hr
    rw [Roster.assign_of]
    exact ⟨_, h.set (hord.assign _ _) _, .changes rfl hs (State.remains_assign _ _) nofun nofun⟩

/-! ## What a call can do -/

theorem Does.remains {T : List State} (h : Does S c a T) (hs : S[n]? = some s) :
    ∃ t, T[n]? = some t ∧ s.Remains t := by
  cases h with
  | nothing => exact ⟨s, hs, .refl s⟩
  | makes L =>
    obtain ⟨hlt, -⟩ := List.getElem?_eq_some_iff.mp hs
    exact ⟨s, (List.getElem?_append_left hlt).trans hs, .refl s⟩
  | @changes m s' t _ _ hs' ht =>
    obtain ⟨hlt, -⟩ := List.getElem?_eq_some_iff.mp hs
    by_cases hm : m = n
    · subst hm
      obtain rfl := Option.some.inj (hs'.symm.trans hs)
      exact ⟨t, List.getElem?_set_self hlt, ht⟩
    · exact ⟨s, (List.getElem?_set_ne hm).trans hs, .refl s⟩

/-- Every state keeps its place, whatever calls are made. -/
theorem Stands.leads (h : Stands σ S) (hτ : Leads σ τ) : ∃ T, Stands τ T ∧
    ∀ (n : Nat) (s : State), S[n]? = some s → ∃ t, T[n]? = some t ∧ s.Remains t := by
  induction hτ with
  | refl => exact ⟨S, h, fun n s hs => ⟨s, hs, .refl s⟩⟩
  | step _ hstep ih =>
    obtain ⟨T, hT, hST⟩ := ih
    obtain ⟨R, hR, hTR⟩ := hT.step hstep
    refine ⟨R, hR, fun n s hs => ?_⟩
    obtain ⟨t, ht, hst⟩ := hST n s hs
    obtain ⟨r, hr, htr⟩ := hTR.remains ht
    exact ⟨r, hr, hst.trans htr⟩

/-- Every call on states of the session comes to an end. -/
theorem Stands.answered (h : Stands σ S) (hc : ∀ n ∈ c.places, n < σ.length) :
    ∃ a τ, Step σ c a τ := by
  have hget {n : Nat} (hn : n ∈ c.places) : ∃ s, σ[n]? = some (of s) ∧ s.Orderly := by
    have hr := List.getElem?_eq_getElem (hc n hn)
    obtain ⟨s, -, hs, hord⟩ := h.exists_of_getElem? hr
    exact ⟨s, hs ▸ hr, hord⟩
  cases c with
  | new m => exact ⟨_, _, .new⟩
  | start m g x =>
    cases hr : Roster.start m g x with
    | ok r => exact ⟨_, _, .start hr⟩
    | error e => exact ⟨_, _, .refuse hr⟩
  | copy n =>
    obtain ⟨s, hs, -⟩ := hget (List.mem_singleton_self n)
    exact ⟨_, _, .copy hs⟩
  | addItem n q dot la =>
    obtain ⟨s, hs, -⟩ := hget (List.mem_singleton_self n)
    exact ⟨_, _, .addItem hs⟩
  | close n g f =>
    obtain ⟨s, hs, hord⟩ := hget (List.mem_singleton_self n)
    obtain ⟨t, ht⟩ := Roster.exists_closes (g := g) (f := f) hord
    exact ⟨_, _, .close hs ht⟩
  | merge n k =>
    obtain ⟨s, hs, -⟩ := hget (n := n) List.mem_cons_self
    obtain ⟨t, ht, -⟩ := hget (n := k) (List.mem_cons_of_mem n (List.mem_singleton_self k))
    exact ⟨_, _, .merge hs ht⟩
  | successors n =>
    obtain ⟨s, hs, hord⟩ := hget (List.mem_singleton_self n)
    exact ⟨_, _, .successors hs (Roster.successors_of hord)⟩
  | assign n x target =>
    obtain ⟨s, hs, -⟩ := hget (List.mem_singleton_self n)
    exact ⟨_, _, .assign hs⟩

end Session

/-! ## Rosters in a session -/

namespace Roster

/-- The entries stand under their own cores, which are distinct. No dot is outside its rule, and in
LR(0) there are no lookaheads. -/
structure Kept (r : Roster) : Prop where
  own : ∀ p ∈ r.entries, p.1 = p.2.core
  distinct : r.keys.Nodup
  within : ∀ p ∈ r.entries, p.2.dot ≤ p.2.rule.right.length
  bare : r.method = .lr0 → ∀ p ∈ r.entries, p.2.lookaheads = ∅

/-- What the closed `r` can become: the same cores stand in the same order, for the same dotted
rules, and lookaheads have only been added behind the others. -/
structure Lasts (r t : Roster) : Prop where
  closed : t.closed = true
  keys : t.keys = r.keys
  entries : List.Forall₂ (fun p q => q.2.rule = p.2.rule ∧ q.2.dot = p.2.dot ∧
    p.2.lookaheads.toList <+: q.2.lookaheads.toList) r.entries t.entries

variable {s t : State}

theorem kept_of (hs : s.Orderly) : (of s).Kept where
  own p hp := by
    obtain ⟨i, -, rfl⟩ := List.mem_map.mp hp
    rfl
  distinct := by
    rw [keys_of]
    exact hs.nodup
  within p hp := by
    obtain ⟨i, -, rfl⟩ := List.mem_map.mp hp
    exact i.dot_le
  bare hm p hp := by
    obtain ⟨i, hi, rfl⟩ := List.mem_map.mp hp
    have hcarries := hs.carries i hi
    have hm : s.method = .lr0 := hm
    rw [hm] at hcarries
    exact hcarries.symm

theorem lasts_of (h : s.Remains t) (hc : s.closed = true) : (of s).Lasts (of t) := by
  obtain ⟨hct, hitems⟩ := h hc
  refine ⟨hct, ?_, ?_⟩
  · rw [keys_of, keys_of, State.cores, State.cores, ← List.forall₂_eq_eq_eq,
      List.forall₂_map_left_iff, List.forall₂_map_right_iff]
    exact hitems.flip.imp fun j i hij => by rw [Item.core, hij.rule, hij.dot]; rfl
  · refine List.forall₂_map_left_iff.mpr (List.forall₂_map_right_iff.mpr (hitems.imp ?_))
    exact fun i j hij => ⟨hij.rule, hij.dot, hij.lookaheads⟩

end Roster

namespace Session

/-- What a session keeps, whatever calls have been made and will be made. -/
structure Keeps (σ : Session) : Prop where
  /-- The rosters stand for states. -/
  states : ∃ S : List State, σ = S.map Roster.of
  kept : ∀ r ∈ σ, r.Kept
  lasts : ∀ τ, Leads σ τ → ∀ (n : Nat) (r : Roster), σ[n]? = some r → r.closed = true →
    ∃ t, τ[n]? = some t ∧ r.Lasts t
  /-- A call that is broken off leaves every state as it was. -/
  panics : ∀ c f τ, Step σ c (.panicked f) τ → τ = σ
  /-- Adding and merging answer whether the entries of their state have changed. -/
  changed : ∀ c grew τ, Step σ c (.changed grew) τ → ∃ (n : Nat) (r t : Roster),
    c.places.head? = some n ∧ σ[n]? = some r ∧ τ = σ.set n t ∧ (grew = true ↔ t.entries ≠ r.entries)
  /-- Every call on states of the session comes to an end. -/
  answered : ∀ c, (∀ n ∈ c.places, n < σ.length) → ∃ a τ, Step σ c a τ

theorem keeps_of_leads {σ : Session} (h : Leads [] σ) : Keeps σ := by
  obtain ⟨S, hS, -⟩ := Stands.leads (S := []) ⟨rfl, nofun⟩ h
  constructor
  case states => exact ⟨S, hS.eq⟩
  case kept =>
    intro r hr
    rw [hS.eq] at hr
    obtain ⟨s, hs, rfl⟩ := List.mem_map.mp hr
    exact Roster.kept_of (hS.orderly s hs)
  case lasts =>
    intro τ hτ n r hr hc
    obtain ⟨T, hT, hkeep⟩ := hS.leads hτ
    obtain ⟨s, hs, rfl, -⟩ := hS.exists_of_getElem? hr
    obtain ⟨t, ht, hst⟩ := hkeep n s hs
    refine ⟨Roster.of t, ?_, Roster.lasts_of hst hc⟩
    rw [hT.eq, List.getElem?_map, ht]
    rfl
  case panics =>
    intro c f τ hstep
    obtain ⟨T, hT, hdoes⟩ := hS.step hstep
    cases hdoes with
    | nothing => rw [hT.eq, hS.eq]
    | changes _ _ _ ha => exact absurd rfl (ha f)
  case changed =>
    intro c grew τ hstep
    obtain ⟨T, hT, hdoes⟩ := hS.step hstep
    cases hdoes with
    | nothing h => exact absurd rfl (h grew)
    | @changes n s t _ hn hs ht _ hb =>
      refine ⟨n, Roster.of s, Roster.of t, hn, ?_, ?_, ?_⟩
      · rw [hS.eq, List.getElem?_map, hs]
        rfl
      · rw [hT.eq, hS.eq, List.map_set]
      · rw [hb grew rfl]
        exact (not_congr Roster.entries_of_inj).symm
  case answered => exact fun c hc => hS.answered hc

/-! ### A session with a rule of no grammar -/

/-- The rule has the number of a rule of the sample. -/
def strayRule : Rule := ⟨⟨"X", [.terminal "x", .intermediate "C"], ""⟩, 3⟩

def strayDraft : State :=
  ⟨.lalr1, none, [⟨strayRule, 1, .ofList [.terminal "x"], none, by decide⟩], false⟩

def straySetup : Setup := .new (.ofEdits sampleEdits) ⟨.lalr1, "EOI"⟩

/-- An item is added, another one is refused, and the state is closed. -/
theorem leads_stray : Leads [] [Roster.of (strayDraft.close straySetup)] := by
  have hadd : Step [.draft .lalr1] (.addItem 0 strayRule 1 (.ofList [.terminal "x"]))
      (.changed true) [Roster.of strayDraft] := .addItem (r := .draft .lalr1) rfl
  have hpanic : Step [Roster.of strayDraft] (.addItem 0 strayRule 3 ∅) (.panicked .dotOutOfRule)
      [Roster.of strayDraft] := .addItem (r := Roster.of strayDraft) rfl
  have horderly : strayDraft.Orderly := ⟨List.nodup_singleton _, fun _ _ => rfl⟩
  have hclose : Step [Roster.of strayDraft] (.close 0 straySetup.grammar straySetup.first) .done
      [Roster.of (strayDraft.close straySetup)] :=
    .close (r := Roster.of strayDraft) rfl ((Roster.closes_iff horderly).mpr rfl)
  exact (((Leads.refl []).step .new).step hadd).step hpanic |>.step hclose

theorem keeps_stray : ∃ σ r τ, Leads [] σ ∧ σ[0]? = some r ∧ r.closed = true ∧
    r.entries.length = 3 ∧ Step σ (.addItem 0 strayRule 2 ∅) (.panicked .closedState) τ ∧
      Keeps σ := by
  have hn : (strayDraft.close straySetup).cores.Nodup := by decide +kernel
  have hadd : (strayDraft.close straySetup).add strayRule 2 ∅ = .error .closedState := by
    decide +kernel
  have hrun : (Roster.of (strayDraft.close straySetup)).run (Roster.addItem strayRule 2 ∅) =
      (.error .closedState, Roster.of (strayDraft.close straySetup)) := by
    rw [Roster.run_addItem hn, hadd]
    rfl
  have hpanic := @Step.addItem [Roster.of (strayDraft.close straySetup)] 0 _ strayRule 2 ∅ rfl
  rw [hrun] at hpanic
  exact ⟨_, _, _, leads_stray, rfl, rfl, by decide +kernel, hpanic, keeps_of_leads leads_stray⟩

end Session

end ShiftReduce
