import ShiftReduce.Proofs.Storing
import ShiftReduce.Source.Load

/-!
# Loading

A source whose statements can be read leads to a grammar, and to the one that the edits lead to
which the statements stand for, unless its rules are more than there are numbers.
-/

namespace ShiftReduce

namespace Grammar

open Source

variable {g g' : Grammar} {ps : List Production} {ss : List Statement}

/-! ## Statements as edits -/

/-- The edits that some statements stand for. -/
def editsOf (ss : List Statement) : List Edit :=
  (declaredTerminals ss).toList.map .addTerminal ++
    ss.filterMap (fun
      | .type name code => some (.setType name (unbrace code))
      | _ => none) ++
    ((ss.flatMap Statement.alternatives).map fun (left, a) =>
      productionOf (declaredTerminals ss) left a).map .addRule

theorem foldl_addTerminal (g : Grammar) (names : List String) :
    names.foldl addTerminal g = (names.map .addTerminal).foldl Edit.apply g := by
  rw [List.foldl_map]
  rfl

theorem addTypes_eq_foldl (g : Grammar) (ss : List Statement) :
    g.addTypes ss = (ss.filterMap fun
      | .type name code => some (.setType name (unbrace code))
      | _ => none).foldl Edit.apply g := by
  induction ss generalizing g with
  | nil => rfl
  | cons s ss ih =>
    rw [addTypes, List.foldl_cons]
    cases s with
    | terminals names => exact ih g
    | type name code => exact ih (g.setType name (unbrace code))
    | rules left first others => exact ih g

theorem addRules_eq_foldl (h : g.addRules ps = .ok g') :
    g' = (ps.map .addRule).foldl Edit.apply g := by
  induction ps generalizing g with
  | nil => exact (Except.ok.inj h).symm
  | cons p ps ih =>
    unfold addRules at h
    show g' = (ps.map .addRule).foldl Edit.apply (g.addRule p).1
    split at h
    · rename_i hp
      rw [hp]
      exact ih h
    · cases h

theorem ofStatements_eq_ofEdits (h : ofStatements ss = .ok g) : g = .ofEdits (editsOf ss) := by
  rw [addRules_eq_foldl h, addTypes_eq_foldl, foldl_addTerminal, ofEdits, editsOf,
    List.foldl_append, List.foldl_append]

/-- A source that can be loaded leads to a grammar that edits lead to. -/
theorem exists_edits_of_load {cc : CharClass} {source : String} (h : load cc source = .ok g) :
    ∃ edits, g = .ofEdits edits := by
  unfold load at h
  split at h
  · cases h
  · split at h
    · cases h
    · cases h
      exact ⟨_, ofStatements_eq_ofEdits ‹_›⟩

/-! ## Whether the numbers suffice -/

/-- There is a number for each production. The first one of the start symbol has its own. -/
def Fits (g : Grammar) (ps : List Production) : Prop :=
  ps.length + g.nextId ≤
    lastId + 1 + if g.start? = none ∧ startName ∈ ps.map Production.left then 1 else 0

theorem fits_begun (hg : g.start? = none) {p : Production} (hp : p.left = startName) :
    (g.begun p).Fits ps ↔ g.Fits (p :: ps) := by
  unfold Fits
  have hold : g.start? = none ∧ startName ∈ (p :: ps).map Production.left := by simp [hg, hp]
  have hnew : ¬((g.begun p).start? = none ∧ startName ∈ ps.map Production.left) := by
    simp [begun]
  have hnext : (g.begun p).nextId = g.nextId := rfl
  rw [if_pos hold, if_neg hnew, hnext, List.length_cons]
  omega

theorem fits_extended {p : Production} (hp : ¬(p.left = startName ∧ g.start? = none)) :
    (g.extended p).Fits ps ↔ g.Fits (p :: ps) := by
  have hsame : ((g.extended p).start? = none ∧ startName ∈ ps.map Production.left) ↔
      g.start? = none ∧ startName ∈ (p :: ps).map Production.left := by
    show (g.start? = none ∧ _) ↔ _
    refine and_congr_right fun hg => ?_
    rw [List.map_cons, List.mem_cons]
    exact ⟨.inr, fun h => h.resolve_left fun hleft => hp ⟨hleft.symm, hg⟩⟩
  simp only [Fits, hsame, nextId_extended, List.length_cons]
  omega

theorem not_fits_of_lt {p : Production} (hp : ¬(p.left = startName ∧ g.start? = none))
    (hid : lastId < g.nextId) : ¬g.Fits (p :: ps) := by
  have hnext := Nat.succ_le_of_lt hid
  unfold Fits
  rw [List.length_cons]
  by_cases hstart : g.start? = none ∧ startName ∈ (p :: ps).map Production.left
  · -- a later production of the start symbol is one more that does not fit
    have hmem : startName ∈ ps.map Production.left :=
      (List.mem_cons.mp hstart.2).resolve_left fun hleft => hp ⟨hleft.symm, hstart.1⟩
    have hpos : 0 < ps.length := by
      rw [← List.length_map (f := Production.left)]
      exact List.length_pos_of_mem hmem
    rw [if_pos hstart]
    omega
  · rw [if_neg hstart]
    omega

instance (g : Grammar) (ps : List Production) : Decidable (g.Fits ps) :=
  inferInstanceAs (Decidable (_ ≤ _))

/-- Adding productions succeeds if there are numbers for all of them, and nothing else can go
wrong. -/
theorem addRules_cases (g : Grammar) (hg : g.nextId ≤ lastId + 1) (ps : List Production) :
    g.Fits ps ∧ (∃ g', g.addRules ps = .ok g') ∨
      ¬g.Fits ps ∧ g.addRules ps = .error .ruleNumbersExhausted := by
  induction ps generalizing g with
  | nil =>
    refine .inl ⟨?_, g, rfl⟩
    unfold Fits
    simpa using hg
  | cons p ps ih =>
    -- whether the rest fits does not change when `p` takes its number, and names take none
    have hsame (ps : List Production) : (g.register p).Fits ps ↔ g.Fits ps := by
      unfold Fits
      rw [start?_register, nextId_register]
    have hreg : (g.register p).nextId ≤ lastId + 1 := by rwa [nextId_register]
    unfold addRules addRule
    rcases (g.register p).store_cases p with ⟨hp, hstore⟩ | ⟨hp, hid, hstore⟩ | ⟨hp, hid, hstore⟩
    · rw [hstore, ← hsame, ← fits_begun hp.2 hp.1]
      exact ih _ hreg
    · rw [hstore, ← hsame, ← fits_extended hp]
      refine ih _ ?_
      rw [nextId_extended]
      exact Nat.succ_le_succ hid
    · rw [hstore, ← hsame]
      exact .inr ⟨not_fits_of_lt hp hid, rfl⟩

/-- There is a number for each alternative. The first one of the start symbol has its own. -/
def Numberable (ss : List Statement) : Prop :=
  (ss.flatMap Statement.alternatives).length + firstId ≤
    lastId + 1 + if startName ∈ (ss.flatMap Statement.alternatives).map Prod.fst then 1 else 0

instance (ss : List Statement) : Decidable (Numberable ss) :=
  inferInstanceAs (Decidable (_ ≤ _))

/-- Declarations take no numbers. -/
theorem counts_declared (edits : List Edit) (h : ∀ e ∈ edits, ∀ p, e ≠ .addRule p) (g : Grammar) :
    (edits.foldl Edit.apply g).start? = g.start? ∧
      (edits.foldl Edit.apply g).nextId = g.nextId := by
  induction edits generalizing g with
  | nil => exact ⟨rfl, rfl⟩
  | cons e edits ih =>
    have hrest := ih (fun d hd => h d (List.mem_cons_of_mem e hd)) (e.apply g)
    cases e with
    | addRule p => exact absurd rfl (h (.addRule p) List.mem_cons_self p)
    | addTerminal name => exact hrest
    | addIntermediate name => exact hrest
    | setType name type => exact hrest

theorem ofStatements_cases (ss : List Statement) :
    Numberable ss ∧ (∃ g, ofStatements ss = .ok g) ∨
      ¬Numberable ss ∧ ofStatements ss = .error .ruleNumbersExhausted := by
  unfold ofStatements
  have hdeclared : (((declaredTerminals ss).toList.foldl addTerminal empty).addTypes ss).start? =
      none ∧ (((declaredTerminals ss).toList.foldl addTerminal empty).addTypes ss).nextId =
        firstId := by
    rw [addTypes_eq_foldl, foldl_addTerminal, ← List.foldl_append]
    refine counts_declared _ (fun e he p => ?_) empty
    rintro rfl
    rcases List.mem_append.mp he with he | he
    · simp at he
    · obtain ⟨s, -, hs⟩ := List.mem_filterMap.mp he
      cases s <;> cases hs
  obtain ⟨hstart, hnext⟩ := hdeclared
  have hfits (g : Grammar) (hstart : g.start? = none) (hnext : g.nextId = firstId) :
      g.Fits ((ss.flatMap Statement.alternatives).map fun (left, a) =>
        productionOf (declaredTerminals ss) left a) ↔ Numberable ss := by
    unfold Fits Numberable
    rw [hstart, hnext, List.length_map, List.map_map]
    simp only [true_and]
    rfl
  rw [← hfits _ hstart hnext]
  refine addRules_cases _ ?_ _
  rw [hnext]
  decide

end Grammar

end ShiftReduce
