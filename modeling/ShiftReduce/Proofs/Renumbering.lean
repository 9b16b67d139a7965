import Mathlib.Logic.Equiv.Basic
import ShiftReduce.Proofs.ItemSet

/-!
# Renumbering rules

Grammars that have the same rules under different numbers derive the same strings, and their item
sets differ in nothing but the numbers of the rules: closing, advancing and following a path carry
the items of one grammar to those of the other. Adding productions in another order renumbers the
rules.
-/

namespace ShiftReduce

/-- The core with its rule renumbered. -/
def Core.renumber (σ : Equiv.Perm RuleId) (c : Core) : Core := ⟨σ c.rule, c.dot⟩

namespace Core

variable {σ : Equiv.Perm RuleId} {c d : Core}

@[simp] theorem renumber_symm_renumber : (c.renumber σ).renumber σ.symm = c := by
  simp [renumber]

@[simp] theorem renumber_renumber_symm : (c.renumber σ.symm).renumber σ = c := by
  simp [renumber]

theorem renumber_injective (σ : Equiv.Perm RuleId) : Function.Injective (renumber σ) :=
  fun c d h => by rw [← renumber_symm_renumber (σ := σ) (c := c), h, renumber_symm_renumber]

end Core

namespace Grammar

/-- The rules of `h` are the rules of `g` with the numbers that `σ` gives them. Rule 1 is the same in
both. -/
structure Renumbering (g h : Grammar) (σ : Equiv.Perm RuleId) : Prop where
  start : σ startId = startId
  forth : ∀ r ∈ g.rules, ∃ q ∈ h.rules, q.id = σ r.id ∧ q.left = r.left ∧ q.right = r.right
  back : ∀ q ∈ h.rules, ∃ r ∈ g.rules, q.id = σ r.id

variable {g h : Grammar} {σ : Equiv.Perm RuleId}

namespace Renumbering

/-- A rule with the new number of another one is the same but for the number. -/
theorem rule_eq (hσ : Renumbering g h σ) {r q : Rule} (hr : r ∈ g.rules) (hq : q ∈ h.rules)
    (hid : q.id = σ r.id) : q.left = r.left ∧ q.right = r.right := by
  obtain ⟨q', hq', hid', hleft, hright⟩ := hσ.forth r hr
  obtain rfl := eq_of_id_eq hq hq' (hid.trans hid'.symm)
  exact ⟨hleft, hright⟩

theorem symm (hσ : Renumbering g h σ) : Renumbering h g σ.symm where
  start := by rw [Equiv.symm_apply_eq, hσ.start]
  forth q hq := by
    obtain ⟨r, hr, hid⟩ := hσ.back q hq
    obtain ⟨hleft, hright⟩ := hσ.rule_eq hr hq hid
    exact ⟨r, hr, by rw [hid, Equiv.symm_apply_apply], hleft.symm, hright.symm⟩
  back r hr := by
    obtain ⟨q, hq, hid, -⟩ := hσ.forth r hr
    exact ⟨q, hq, by rw [hid, Equiv.symm_apply_apply]⟩

theorem exists_startRule (hσ : Renumbering g h σ) {r : Rule} (hr : g.startRule = .ok r) :
    ∃ q, h.startRule = .ok q := by
  obtain ⟨hmem, hid⟩ := startRule_eq_ok_iff.mp hr
  obtain ⟨q, hq, hqid, -⟩ := hσ.forth r hmem
  exact ⟨q, startRule_eq_ok_iff.mpr ⟨hq, by rw [hqid, hid, hσ.start]⟩⟩

/-! ## Derivations and items -/

theorem derives (hσ : Renumbering g h σ) {s t : List Symbol} (hst : g.Derives s t) :
    h.Derives s t := by
  induction hst with
  | refl => exact .refl
  | step hr _ ih =>
    obtain ⟨q, hq, -, hleft, hright⟩ := hσ.forth _ hr
    rw [← hright]
    exact .step hq (hleft ▸ ih)

theorem begins (hσ : Renumbering g h σ) {s : List Symbol} {x : String} (hs : g.Begins s x) :
    h.Begins s x :=
  hs.imp fun _ => hσ.derives

theorem waits (hσ : Renumbering g h σ) {c : Core} {x : Symbol} {rest : List Symbol}
    (hc : g.Waits c x rest) : h.Waits (c.renumber σ) x rest := by
  obtain ⟨r, hr, hid, hdrop⟩ := hc
  obtain ⟨q, hq, hqid, -, hright⟩ := hσ.forth r hr
  exact ⟨q, hq, by rw [hqid, hid]; rfl, by rw [hright]; exact hdrop⟩

end Renumbering

end Grammar

/-! ## Item sets -/

namespace ItemSet

/-- Renumbering carries the items of `I` to items of `J`. -/
structure Carries (σ : Equiv.Perm RuleId) (I J : ItemSet) : Prop where
  cores : ∀ c ∈ I.cores, c.renumber σ ∈ J.cores
  lookaheads : ∀ c y, (c, y) ∈ I.lookaheads → (c.renumber σ, y) ∈ J.lookaheads

/-- The items of `J` are those of `I` with their rules renumbered. -/
structure Renumbered (σ : Equiv.Perm RuleId) (I J : ItemSet) : Prop where
  mem_cores_iff : ∀ c, c.renumber σ ∈ J.cores ↔ c ∈ I.cores
  mem_lookaheads_iff : ∀ c y, (c.renumber σ, y) ∈ J.lookaheads ↔ (c, y) ∈ I.lookaheads

variable {g h : Grammar} {σ : Equiv.Perm RuleId} {I I' J J' : ItemSet} {ahead : Bool} {e : String}

namespace Carries

theorem closureCore (hσ : g.Renumbering h σ) (hIJ : Carries σ I J) {c : Core}
    (hc : ClosureCore g I c) : ClosureCore h J (c.renumber σ) := by
  induction hc with
  | given hc => exact .given (hIJ.cores _ hc)
  | alternative _ hw hq ih =>
    obtain ⟨q', hq', hid, hleft, -⟩ := hσ.forth _ hq
    have hnew := ClosureCore.alternative ih (hleft ▸ hσ.waits hw) hq'
    rwa [hid] at hnew

theorem closureLookahead (hσ : g.Renumbering h σ) (hIJ : Carries σ I J) {c : Core} {y : Symbol}
    (hc : ClosureLookahead g ahead I c y) : ClosureLookahead h ahead J (c.renumber σ) y := by
  induction hc with
  | given hc => exact .given (hIJ.lookaheads _ _ hc)
  | first hc hw hq ha hx =>
    obtain ⟨q', hq', hid, hleft, -⟩ := hσ.forth _ hq
    have hnew := ClosureLookahead.first (hIJ.closureCore hσ hc) (hleft ▸ hσ.waits hw) hq' ha
      (hσ.begins hx)
    rwa [hid] at hnew
  | pass _ hw hq ha hn ih =>
    obtain ⟨q', hq', hid, hleft, -⟩ := hσ.forth _ hq
    have hnew := ClosureLookahead.pass ih (hleft ▸ hσ.waits hw) hq' ha (hσ.derives hn)
    rwa [hid] at hnew

theorem closure (hσ : g.Renumbering h σ) (hIJ : Carries σ I J) :
    Carries σ (I.closure g ahead) (J.closure h ahead) :=
  ⟨fun _ => hIJ.closureCore hσ, fun _ _ => hIJ.closureLookahead hσ⟩

theorem advance (hσ : g.Renumbering h σ) (hIJ : Carries σ I J) (x : Symbol) :
    Carries σ (I.advance g x) (J.advance h x) where
  cores := by
    rintro c ⟨d, hd, ⟨rest, hw⟩, rfl⟩
    exact ⟨d.renumber σ, hIJ.cores d hd, ⟨rest, hσ.waits hw⟩, rfl⟩
  lookaheads := by
    rintro c y ⟨d, hd, ⟨rest, hw⟩, rfl⟩
    exact ⟨d.renumber σ, hIJ.lookaheads d y hd, ⟨rest, hσ.waits hw⟩, rfl⟩

theorem start (hσ : σ startId = startId) : Carries σ (start ahead e) (start ahead e) where
  cores := by
    rintro c rfl
    exact congrArg (Core.mk · 0) hσ
  lookaheads := by
    rintro c y ⟨ha, he⟩
    obtain ⟨rfl, rfl⟩ := Prod.mk.inj he
    exact ⟨ha, by rw [Core.renumber, hσ]⟩

theorem along (hσ : g.Renumbering h σ) (path : List Symbol) :
    Carries σ (g.along ahead e path) (h.along ahead e path) := by
  induction path using List.reverseRecOn with
  | nil => exact (start hσ.start).closure hσ
  | append_singleton path x ih =>
    rw [Grammar.along_append_singleton, Grammar.along_append_singleton]
    exact (ih.advance hσ x).closure hσ

end Carries

namespace Renumbered

theorem of_carries (hIJ : Carries σ I J) (hJI : Carries σ.symm J I) : Renumbered σ I J where
  mem_cores_iff c := ⟨fun hc => by simpa using hJI.cores _ hc, hIJ.cores c⟩
  mem_lookaheads_iff c y :=
    ⟨fun hc => by simpa using hJI.lookaheads _ _ hc, hIJ.lookaheads c y⟩

theorem symm (h : Renumbered σ I J) : Renumbered σ.symm J I where
  mem_cores_iff c := by rw [← h.mem_cores_iff, Core.renumber_renumber_symm]
  mem_lookaheads_iff c y := by rw [← h.mem_lookaheads_iff, Core.renumber_renumber_symm]

theorem cores_eq (hI : Renumbered σ I J) (hI' : Renumbered σ I' J') (h : I.cores = I'.cores) :
    J.cores = J'.cores := by
  ext c
  rw [← hI.symm.mem_cores_iff, ← hI'.symm.mem_cores_iff, h]

theorem eq (hI : Renumbered σ I J) (hI' : Renumbered σ I' J') (h : I = I') : J = J' := by
  refine ItemSet.ext (hI.cores_eq hI' (by rw [h])) ?_
  ext ⟨c, y⟩
  rw [← hI.symm.mem_lookaheads_iff, ← hI'.symm.mem_lookaheads_iff, h]

/-- A path leads to the same items in both grammars. -/
theorem along (hσ : g.Renumbering h σ) (path : List Symbol) :
    Renumbered σ (g.along ahead e path) (h.along ahead e path) :=
  of_carries (.along hσ path) (.along hσ.symm path)

end Renumbered

end ItemSet

/-! ## Other orders -/

namespace Grammar

/-- Leaves the first number alone and renumbers those behind it. -/
def shift (σ : Equiv.Perm Nat) : Equiv.Perm Nat where
  toFun
    | 0 => 0
    | n + 1 => σ n + 1
  invFun
    | 0 => 0
    | n + 1 => σ.symm n + 1
  left_inv n := by cases n <;> simp
  right_inv n := by cases n <;> simp

/-- A list in another order has the same entries at other places. -/
theorem exists_perm_getElem? {α : Type} {l l' : List α} (h : l.Perm l') :
    ∃ σ : Equiv.Perm Nat, ∀ n, l'[σ n]? = l[n]? := by
  induction h with
  | nil => exact ⟨.refl Nat, fun n => rfl⟩
  | cons a _ ih =>
    obtain ⟨σ, hσ⟩ := ih
    refine ⟨shift σ, fun n => ?_⟩
    cases n with
    | zero => rfl
    | succ n => exact hσ n
  | swap a b l =>
    refine ⟨Equiv.swap 0 1, fun n => ?_⟩
    match n with
    | 0 => rfl
    | 1 => rfl
    | n + 2 => rw [Equiv.swap_apply_of_ne_of_ne (by omega) (by omega)]; rfl
  | trans _ _ ih1 ih2 =>
    obtain ⟨σ, hσ⟩ := ih1
    obtain ⟨τ, hτ⟩ := ih2
    exact ⟨σ.trans τ, fun n => (hτ (σ n)).trans (hσ n)⟩

/-- What a production says, without its action. -/
def form (p : Production) : String × List Symbol := (p.left, p.right)

/-- The same productions have been added, but for rule 1 in any order, and with any actions. -/
structure Reordered (g h : Grammar) : Prop where
  start : h.start?.map form = g.start?.map form
  others : (g.others.toList.map form).Perm (h.others.toList.map form)

variable {g h : Grammar} {σ : Equiv.Perm Nat}

theorem mem_rules_iff {r : Rule} : r ∈ g.rules ↔
    (g.start? = some r.toProduction ∧ r.id = startId) ∨
      ∃ n, g.others.toList[n]? = some r.toProduction ∧ r.id = n + firstId := by
  obtain ⟨p, id⟩ := r
  simp only [rules, List.mem_append, Option.mem_toList, Option.map_eq_some_iff, List.mem_mapIdx,
    Rule.mk.injEq]
  refine or_congr ⟨?_, ?_⟩ ⟨?_, ?_⟩
  · rintro ⟨q, hq, rfl, rfl⟩
    exact ⟨hq, rfl⟩
  · rintro ⟨hq, rfl⟩
    exact ⟨p, hq, rfl, rfl⟩
  · rintro ⟨n, hn, rfl, rfl⟩
    exact ⟨n, List.getElem?_eq_getElem hn, rfl⟩
  · rintro ⟨n, hget, rfl⟩
    obtain ⟨hn, rfl⟩ := List.getElem?_eq_some_iff.mp hget
    exact ⟨n, hn, rfl, rfl⟩

/-- Equal rules are found under the new numbers if the other productions are found at the new
places. -/
theorem exists_rule_shift (hstart : h.start?.map form = g.start?.map form)
    (hothers : ∀ n, (h.others.toList.map form)[σ n]? = (g.others.toList.map form)[n]?) {r : Rule}
    (hr : r ∈ g.rules) :
    ∃ q ∈ h.rules, q.id = shift (shift σ) r.id ∧ q.left = r.left ∧ q.right = r.right := by
  rcases mem_rules_iff.mp hr with ⟨hp, hid⟩ | ⟨n, hp, hid⟩
  · rw [hp, Option.map_some, Option.map_eq_some_iff] at hstart
    obtain ⟨q, hq, hform⟩ := hstart
    obtain ⟨hleft, hright⟩ := Prod.mk.inj hform
    refine ⟨⟨q, startId⟩, mem_rules_iff.mpr (.inl ⟨hq, rfl⟩), ?_, hleft, hright⟩
    rw [hid]
    rfl
  · have hplace := hothers n
    rw [List.getElem?_map, List.getElem?_map, hp, Option.map_some,
      Option.map_eq_some_iff] at hplace
    obtain ⟨q, hq, hform⟩ := hplace
    obtain ⟨hleft, hright⟩ := Prod.mk.inj hform
    refine ⟨⟨q, σ n + firstId⟩, mem_rules_iff.mpr (.inr ⟨σ n, hq, rfl⟩), ?_, hleft, hright⟩
    rw [hid]
    rfl

/-- Adding the productions in another order renumbers the rules. -/
theorem Reordered.exists_renumbering (hgh : Reordered g h) : ∃ σ, Renumbering g h σ := by
  obtain ⟨σ, hσ⟩ := exists_perm_getElem? hgh.others
  refine ⟨shift (shift σ), rfl, fun r hr => exists_rule_shift hgh.start hσ hr, fun q hq => ?_⟩
  have hback (n : Nat) : (g.others.toList.map form)[σ.symm n]? = (h.others.toList.map form)[n]? := by
    rw [← hσ, Equiv.apply_symm_apply]
  obtain ⟨r, hr, hid, -⟩ := exists_rule_shift hgh.start.symm hback hq
  refine ⟨r, hr, ?_⟩
  rw [hid]
  exact ((shift (shift σ)).apply_symm_apply q.id).symm

end Grammar

end ShiftReduce
