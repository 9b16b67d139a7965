import ShiftReduce.Proofs.Declarations
import ShiftReduce.Proofs.Stepping

/-!
# The check foresees the failure

The check looks at the alternatives of the start symbol, and the construction looks up rule 1. In
every ledger that edits lead to, whether they failed or not, both tell the same: the check misses
the start rule exactly when no rule of the start symbol has been stored, and then nothing is built,
however often it is asked for.
-/

namespace ShiftReduce

variable {u : Setup} {edits : List Edit} {l : Ledger} {g : Grammar} {h : List Rule}

/-! ## Asking for the states -/

namespace Collection

theorem generate_empty : generate u empty = build u := rfl

theorem requested_of_error {e : BuildError} (he : build u = .error e) (n : Nat) :
    requested u empty n = empty := by
  induction n with
  | zero => rfl
  | succ n ih =>
    rw [requested, ih, generate_empty, he]
    rfl

theorem generate_of_size_pos {c : Collection} (hc : 0 < c.size) : generate u c = .ok c := by
  have hsome : c.states.isEmpty = false := by
    rw [Array.isEmpty_eq_false_iff, ← Array.size_pos_iff]
    exact hc
  rw [generate, hsome]
  rfl

/-- The first request builds the states, and the others leave them as they are. -/
theorem requested_of_ok {c : Collection} (hc : build u = .ok c) (hpos : 0 < c.size) (n : Nat) :
    requested u empty (n + 1) = c := by
  induction n with
  | zero =>
    rw [requested, requested, generate_empty, hc]
    rfl
  | succ n ih =>
    rw [requested, ih, generate_of_size_pos hpos]
    rfl

/-- With a start rule every request answers the same states, unless there are too many. -/
theorem built_of_start (hg : g.start? ≠ none) (config : Config) :
    Table.build g config = .error (.fault .tooManyStates) ∧ (Setup.new g config).Crowded ∨
      ∃ c, Table.build g config = .ok ⟨g, config, c.states⟩ ∧ 0 < c.size ∧
        ∀ n, generate (.new g config) (requested (.new g config) empty n) = .ok c := by
  obtain ⟨p, hp⟩ := Option.ne_none_iff_exists'.mp hg
  have hrule : g.startRule = .ok ⟨p, startId⟩ := by rw [Grammar.startRule, hp]
  rcases Table.build_cases hrule config with hfull | ⟨t, ht⟩
  · exact .inl hfull
  · obtain ⟨c, hc, rfl⟩ := Table.build_eq_ok_iff.mp ht
    have hpos : 0 < c.size := (Table.complete_of_build ht).size_pos
    refine .inr ⟨c, ht, hpos, fun n => ?_⟩
    cases n with
    | zero => exact hc
    | succ n =>
      rw [requested_of_ok hc hpos]
      exact generate_of_size_pos hpos

end Collection

/-! ## Checking a ledger -/

namespace Edit

theorem untyped_iff {name : String} :
    untyped edits name ↔ ∀ type, .setType name type ∉ edits := by
  rw [← Grammar.declaredType?_eq_none_iff, Grammar.declaredType?_ofEdits,
    List.getLast?_eq_none_iff, List.filterMap_eq_nil_iff]
  simp [untyped]

end Edit

namespace Ledger

theorem Agrees.startRule (hl : l.Agrees g) : l.startRule = g.startRule := by
  unfold Ledger.startRule Grammar.startRule
  rw [hl.productions]
  cases hg : g.start? with
  | some p => simp [Grammar.rules, hg]
  | none =>
    have hnone : (g.rules.map fun r => (r.id, r.toProduction)).lookup startId = none := by
      rw [List.lookup_eq_none_iff]
      intro e he
      obtain ⟨r, hr, rfl⟩ := List.mem_map.mp he
      have hid : startId ∉ g.rules.map Rule.id := by simp [Grammar.startId_mem_ids, hg]
      have hne : startId ≠ r.id := fun heq => hid (heq ▸ List.mem_map_of_mem hr)
      simpa using hne
    rw [hnone]

theorem Agrees.startDiagnostics (hl : l.Agrees g) : l.startDiagnostics = g.startDiagnostics := by
  have hlength : (l.alternativesOf startName).length = (g.alternatives startName).length := by
    rw [hl.alternatives, List.length_map]
  unfold Ledger.startDiagnostics Grammar.startDiagnostics
  rw [← hlength, alternativesOf]
  cases l.alternatives.lookup startName with
  | none => rfl
  | some ids =>
    rw [Option.map_some, Option.getD_some]
    split <;> simp_all

theorem Agrees.typeDiagnostics (hl : l.Agrees g) : l.typeDiagnostics = g.typeDiagnostics := by
  unfold Ledger.typeDiagnostics Grammar.typeDiagnostics
  simp only [hl.intermediates, hl.types]

theorem Agrees.check (hl : l.Agrees g) : l.check = g.check := by
  rw [Ledger.check, hl.startDiagnostics, hl.typeDiagnostics, Grammar.check]

end Ledger

/-! ## What the check tells -/

namespace Grammar

theorem missingStartRule_mem_check_iff {name : String} :
    .missingStartRule name ∈ g.check ↔ name = startName ∧ g.alternatives startName = [] := by
  rw [check, List.mem_append, or_iff_left (by simp [typeDiagnostics]), startDiagnostics,
    ← List.length_eq_zero_iff]
  split <;> simp_all

theorem duplicateStartRule_mem_check_iff {name : String} {count : Nat} :
    .duplicateStartRule name count ∈ g.check ↔
      name = startName ∧ 1 < count ∧ (g.alternatives startName).length = count := by
  rw [check, List.mem_append, or_iff_left (by simp [typeDiagnostics]), startDiagnostics]
  split
  case h_1 hnone => simp [hnone]; omega
  case h_2 hone => simp [hone]; omega
  case h_3 h0 h1 =>
    rw [List.mem_singleton, Diagnostic.duplicateStartRule.injEq, eq_comm (a := count)]
    refine and_congr_right fun _ => (and_iff_right_of_imp ?_).symm
    rintro rfl
    exact Nat.lt_of_le_of_ne (Nat.pos_of_ne_zero h0) (Ne.symm h1)

theorem length_startDiagnostics_le (g : Grammar) : g.startDiagnostics.length ≤ 1 := by
  unfold startDiagnostics
  split <;> simp

theorem missingType_not_mem_startDiagnostics (name : String) :
    .missingType name ∉ g.startDiagnostics := by
  unfold startDiagnostics
  split <;> simp

theorem count_missingType (g : Grammar) (name : String) :
    g.check.count (.missingType name) =
      if name ∈ g.intermediates ∧ g.declaredType? name = none then 1 else 0 := by
  have hnames : (g.intermediates.toList.filter fun n => (g.declaredType? n).isNone).Nodup :=
    g.intermediates.nodup.filter _
  have hinj : Function.Injective Diagnostic.missingType := fun _ _ => Diagnostic.missingType.inj
  rw [check, List.count_append, typeDiagnostics, List.count_map_of_injective _ _ hinj,
    List.count_eq_zero.mpr (missingType_not_mem_startDiagnostics name), Nat.zero_add, hnames.count]
  simp only [List.mem_filter, OrderedSet.mem_toList, Option.isNone_iff_eq_none]

theorem untyped_ofEdits_iff {name : String} :
    name ∈ (ofEdits edits).intermediates ∧ (ofEdits edits).declaredType? name = none ↔
      name ∈ edits.flatMap Edit.intermediates ∧ ∀ type, .setType name type ∉ edits := by
  rw [intermediates_ofEdits, OrderedSet.mem_ofList, declaredType?_eq_none_iff]

theorem typeDiagnostics_ofEdits (edits : List Edit) :
    (ofEdits edits).typeDiagnostics =
      ((edits.flatMap Edit.intermediates).eraseDups.filter (Edit.untyped edits)).map
        .missingType := by
  have huntyped (name : String) : ((ofEdits edits).declaredType? name).isNone =
      Edit.untyped edits name := by
    rw [Bool.eq_iff_iff, Option.isNone_iff_eq_none, declaredType?_eq_none_iff, Edit.untyped_iff]
  unfold typeDiagnostics
  simp only [huntyped]
  rw [intermediates_ofEdits, OrderedSet.toList_ofList]

end Grammar

/-! ## The check and the construction -/

namespace Ledger

/-- How the check of a ledger and the construction agree. `edits` have led to the ledger `l` and to
the grammar `g`, and stored the rules `h`. -/
structure Foresees (edits : List Edit) (config : Config) (l : Ledger) (g : Grammar)
    (h : List Rule) : Prop where
  agrees : l.Agrees g
  /-- Looking up rule 1 in the ledger has the answer that the construction works with. -/
  startRule : l.startRule = g.startRule
  missing : .missingStartRule startName ∈ l.check ↔ ∀ r ∈ h, r.left ≠ startName
  refused : .missingStartRule startName ∈ l.check ↔
    Table.build g config = .error (.missingStartRule startName)
  /-- Where the start rule is missing there is no first stage, and no request adds a state. -/
  early : .missingStartRule startName ∈ l.check →
    Collection.Stage.first (.new g config) = .error (.missingStartRule startName) ∧
      ∀ n, Collection.requested (.new g config) .empty n = .empty ∧
        Collection.generate (.new g config) (Collection.requested (.new g config) .empty n) =
          .error (.missingStartRule startName)
  /-- Where it is not, the table is built, and so it stays. -/
  built : .missingStartRule startName ∉ l.check →
    Table.build g config = .error (.fault .tooManyStates) ∧ (Setup.new g config).Crowded ∨
      ∃ c, Table.build g config = .ok ⟨g, config, c.states⟩ ∧ 0 < c.size ∧
        ∀ n, Collection.generate (.new g config)
          (Collection.requested (.new g config) .empty n) = .ok c
  duplicate : ∀ name count, .duplicateStartRule name count ∈ l.check ↔
    name = startName ∧ 1 < count ∧ (h.filter (·.left = startName)).length = count
  /-- Behind at most one problem of the start symbol the missing types stand in the order in which
  the intermediates were registered. -/
  order : ∃ problems : List Diagnostic, problems.length ≤ 1 ∧
    (∀ name, .missingType name ∉ problems) ∧
    l.check = problems ++
      ((edits.flatMap Edit.intermediates).eraseDups.filter (Edit.untyped edits)).map .missingType
  typeless : ∀ name, name ∈ edits.flatMap Edit.intermediates →
    (∀ type, .setType name type ∉ edits) → l.check.count (.missingType name) = 1
  typed : ∀ name, .missingType name ∈ l.check →
    name ∈ edits.flatMap Edit.intermediates ∧ ∀ type, .setType name type ∉ edits

theorem Recounts.alternatives_eq_nil_iff (hr : Recounts g h) :
    g.alternatives startName = [] ↔ ∀ r ∈ h, r.left ≠ startName := by
  rw [← hr.order, List.filter_eq_nil_iff]
  simp

theorem Agrees.start?_eq_none_iff (hl : l.Agrees g) (hg : g.StartsRight) :
    g.start? = none ↔ g.alternatives startName = [] := by
  refine ⟨hl.begins, fun hnil => ?_⟩
  cases hstart : g.start? with
  | none => rfl
  | some p =>
    have hmem : ⟨p, startId⟩ ∈ g.alternatives startName :=
      Grammar.mem_alternatives.mpr ⟨by simp [Grammar.rules, hstart], hg p hstart⟩
    rw [hnil] at hmem
    cases hmem

theorem foresees_ofEdits (edits : List Edit) (config : Config) :
    Foresees edits config (ofEdits edits) (.ofEdits edits) (empty.history edits) := by
  have hl := agrees_ofEdits edits
  have hr := recounts_ofEdits edits
  have hcheck : .missingStartRule startName ∈ (ofEdits edits).check ↔
      (Grammar.ofEdits edits).start? = none := by
    rw [hl.check, Grammar.missingStartRule_mem_check_iff, and_iff_right rfl,
      hl.start?_eq_none_iff (Grammar.startsRight_ofEdits edits)]
  constructor
  case agrees => exact hl
  case startRule => exact hl.startRule
  case missing =>
    rw [hl.check, Grammar.missingStartRule_mem_check_iff, and_iff_right rfl,
      hr.alternatives_eq_nil_iff]
  case refused =>
    rw [hcheck]
    refine ⟨fun hnone => Table.build_of_startless hnone config, fun herror => ?_⟩
    by_contra hsome
    rcases Collection.built_of_start hsome config with ⟨hfull, -⟩ | ⟨c, hc, -⟩
    · rw [hfull] at herror
      cases herror
    · rw [hc] at herror
      cases herror
  case early =>
    intro hmissing
    have hrule : (Grammar.ofEdits edits).startRule = .error (.missingStartRule startName) := by
      rw [Grammar.startRule, hcheck.mp hmissing]
    obtain ⟨hfirst, hbuild⟩ := Collection.Stage.first_eq_error
      (u := .new (Grammar.ofEdits edits) config) hrule
    refine ⟨hfirst, fun n => ?_⟩
    rw [Collection.requested_of_error hbuild]
    exact ⟨rfl, hbuild⟩
  case built =>
    exact fun hmissing => Collection.built_of_start (mt hcheck.mpr hmissing) config
  case duplicate =>
    intro name count
    rw [hl.check, Grammar.duplicateStartRule_mem_check_iff, hr.order]
  case order =>
    refine ⟨_, Grammar.length_startDiagnostics_le (.ofEdits edits),
      Grammar.missingType_not_mem_startDiagnostics, ?_⟩
    rw [hl.check, Grammar.check, Grammar.typeDiagnostics_ofEdits]
  case typeless =>
    intro name hname huntyped
    rw [hl.check, Grammar.count_missingType]
    exact if_pos (Grammar.untyped_ofEdits_iff.mpr ⟨hname, huntyped⟩)
  case typed =>
    intro name hmem
    rw [hl.check, ← List.count_pos_iff, Grammar.count_missingType] at hmem
    by_contra hnot
    rw [if_neg (mt Grammar.untyped_ofEdits_iff.mp hnot)] at hmem
    cases hmem

-- the start symbol is registered, but has no rule
example :
    let l := ofEdits [.addRule ⟨"E", [.intermediate startName], ""⟩, .setType "E" "i64"]
    l.check = [.missingStartRule startName, .missingType startName] ∧
      l.startRule = .error (.missingStartRule startName) := by
  cbv

end Ledger

end ShiftReduce
