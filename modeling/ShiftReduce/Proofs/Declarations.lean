import ShiftReduce.Proofs.Ledger
import ShiftReduce.Proofs.Loading
import ShiftReduce.Source.Parts

/-!
# What is declared

The names of a grammar are those that its edits register, in the order of first occurrence, and the
type of an intermediate is the last one declared. For the grammar of a source each kind of statement
declares its part.
-/

namespace ShiftReduce

variable {name : String}

/-! ## Edits -/

namespace Grammar

theorem types_addRule (g : Grammar) (p : Production) : (g.addRule p).1.types = g.types := by
  have hregister : (g.register p).types = g.types := rfl
  unfold addRule
  rcases (g.register p).store_cases p with ⟨-, h⟩ | ⟨-, -, h⟩ | ⟨-, -, h⟩
  all_goals rw [h]; exact hregister

theorem declaredType?_setType (g : Grammar) (other type : String) :
    (g.setType other type).declaredType? name =
      if name = other then some type else g.declaredType? name := by
  show ((other, type) :: g.types.filter (·.1 ≠ other)).lookup name = _
  rw [Entries.lookup_cons]
  by_cases hname : name = other
  · rw [if_pos hname, if_pos hname]
  · rw [if_neg hname, if_neg hname, Entries.lookup_filter_ne hname]
    rfl

end Grammar

namespace Edit

theorem declaredType?_apply (g : Grammar) (e : Edit) :
    (e.apply g).declaredType? name = (e.typeOf? name).or (g.declaredType? name) := by
  cases e with
  | addTerminal other => rfl
  | addIntermediate other => rfl
  | setType other type =>
    rw [apply, Grammar.declaredType?_setType, typeOf?]
    by_cases hname : other = name
    · rw [if_pos hname, if_pos hname.symm, Option.some_or]
    · rw [if_neg hname, if_neg (Ne.symm hname), Option.none_or]
  | addRule p =>
    unfold Grammar.declaredType?
    rw [apply, Grammar.types_addRule]
    rfl

/-- The last type that an edit declares holds. -/
theorem declaredType?_foldl (g : Grammar) (edits : List Edit) :
    (edits.foldl apply g).declaredType? name =
      (edits.filterMap (typeOf? name)).getLast?.or (g.declaredType? name) := by
  induction edits generalizing g with
  | nil => rfl
  | cons e edits ih =>
    rw [List.foldl_cons, ih, declaredType?_apply]
    cases htype : e.typeOf? name with
    | none => rw [List.filterMap_cons_none htype, Option.none_or]
    | some type =>
      rw [List.filterMap_cons_some htype, List.getLast?_cons, Option.some_or]
      cases (edits.filterMap (typeOf? name)).getLast? <;> rfl

end Edit

namespace Grammar

variable {g : Grammar} {ss : List Source.Statement}

theorem declaredType?_ofEdits (edits : List Edit) :
    (ofEdits edits).declaredType? name = (edits.filterMap (Edit.typeOf? name)).getLast? := by
  rw [ofEdits, Edit.declaredType?_foldl]
  exact Option.or_none

/-- An intermediate has no type if no edit declares one. -/
theorem declaredType?_eq_none_iff {edits : List Edit} :
    (ofEdits edits).declaredType? name = none ↔ ∀ type, .setType name type ∉ edits := by
  rw [declaredType?_ofEdits, List.getLast?_eq_none_iff, List.filterMap_eq_nil_iff]
  constructor
  · intro h type hmem
    have hnone := h _ hmem
    simp [Edit.typeOf?] at hnone
  · intro h e he
    cases e with
    | setType other type =>
      have hother : other ≠ name := fun heq => h type (heq ▸ he)
      exact if_neg hother
    | addTerminal other => rfl
    | addIntermediate other => rfl
    | addRule p => rfl

theorem terminals_ofEdits (edits : List Edit) :
    (ofEdits edits).terminals = .ofList (edits.flatMap Edit.terminals) := by
  rw [← (Ledger.agrees_ofEdits edits).terminals, Ledger.terminals_ofEdits]

theorem intermediates_ofEdits (edits : List Edit) :
    (ofEdits edits).intermediates = .ofList (edits.flatMap Edit.intermediates) := by
  rw [← (Ledger.agrees_ofEdits edits).intermediates, Ledger.intermediates_ofEdits]

end Grammar

/-! ## Statements -/

namespace Source

variable {ss : List Statement}

theorem declaredTerminals_eq (ss : List Statement) :
    declaredTerminals ss = .ofList (ss.flatMap Statement.declared) := rfl

theorem mem_declaredTerminals : name ∈ declaredTerminals ss ↔ Declares ss name := by
  rw [declaredTerminals_eq, OrderedSet.mem_ofList, List.mem_flatMap]
  constructor
  · rintro ⟨s, hs, hname⟩
    cases s with
    | terminals names => exact ⟨names, hs, hname⟩
    | type _ _ => cases hname
    | rules _ _ _ => cases hname
  · rintro ⟨names, hs, hname⟩
    exact ⟨_, hs, hname⟩

@[simp] theorem name_symbolOf (terminals : OrderedSet String) (name : String) :
    (symbolOf terminals name).name = name := by
  unfold symbolOf
  split <;> rfl

theorem isTerminal_symbolOf {terminals : OrderedSet String} :
    (symbolOf terminals name).isTerminal ↔ name ∈ terminals := by
  unfold symbolOf
  split <;> simp_all [Symbol.isTerminal]

/-- A name is a terminal of a right side if it is declared. -/
theorem isTerminal_iff_of_mem_productionsOf {p : Production} (hp : p ∈ productionsOf ss)
    {x : Symbol} (hx : x ∈ p.right) : x.isTerminal ↔ x.name ∈ declaredTerminals ss := by
  obtain ⟨⟨left, a⟩, -, rfl⟩ := List.mem_map.mp hp
  obtain ⟨name, -, rfl⟩ := List.mem_map.mp hx
  rw [isTerminal_symbolOf, name_symbolOf]

theorem terminals_subset_of_mem_productionsOf {p : Production} (hp : p ∈ productionsOf ss) :
    ∀ name ∈ p.terminals, name ∈ declaredTerminals ss := by
  intro name hname
  obtain ⟨x, hx, rfl⟩ := List.mem_map.mp hname
  obtain ⟨hx, hterminal⟩ := List.mem_filter.mp hx
  exact (isTerminal_iff_of_mem_productionsOf hp hx).mp hterminal

/-- A production goes back to what is written. -/
theorem written_productionOf (terminals : OrderedSet String) (left : String) (a : Alternative)
    (id : RuleId) : (Rule.mk (productionOf terminals left a) id).written = (id, left, a) := by
  simp [Rule.written, productionOf, Function.comp_def]

end Source

/-! ## Numbers -/

namespace Grammar

open Source

variable {g g' : Grammar} {ps : List Production} {ss : List Statement}

/-- The first production of the start symbol becomes rule 1, and the others come behind. -/
theorem addRules_eq (h : g.addRules ps = .ok g') :
    g'.start? = g.start?.or (ps.find? (·.left = startName)) ∧
      g'.others.toList =
        g.others.toList ++ if g.start?.isSome then ps else ps.eraseP (·.left = startName) := by
  induction ps generalizing g with
  | nil =>
    obtain rfl := Except.ok.inj h
    simp
  | cons p ps ih =>
    have hothers : (g.register p).others = g.others := rfl
    unfold addRules addRule at h
    rcases (g.register p).store_cases p with ⟨hp, hstore⟩ | ⟨hp, -, hstore⟩ | ⟨-, -, hstore⟩
    · rw [hstore] at h
      obtain ⟨hstart, hrest⟩ := ih h
      rw [start?_register] at hp
      rw [hstart, hrest]
      simp [begun, hp, hothers]
    · rw [hstore] at h
      obtain ⟨hstart, hrest⟩ := ih h
      rw [start?_register] at hp
      rw [hstart, hrest]
      cases hg : g.start? with
      | none =>
        have hleft : p.left ≠ startName := fun hleft => hp ⟨hleft, hg⟩
        simp [extended, start?_register, hg, hleft, hothers]
      | some q => simp [extended, start?_register, hg, hothers]
    · rw [hstore] at h
      cases h

/-- The rules of a grammar to which productions have been added that had none. -/
theorem rules_addRules (hg : g.rules = []) (h : g.addRules ps = .ok g') :
    g'.rules = (ps.find? (·.left = startName)).toList.map (Rule.mk · startId) ++
      (ps.eraseP (·.left = startName)).mapIdx fun i p => Rule.mk p (i + firstId) := by
  have hnone : g.start? = none ∧ g.others.toList = [] := by
    simpa [rules] using hg
  obtain ⟨hstart, hothers⟩ := addRules_eq h
  rw [rules, hstart, hothers, hnone.1, hnone.2]
  cases ps.find? (·.left = startName) <;> rfl

/-! ## The grammar of a source -/

theorem editsOf_eq (ss : List Statement) :
    editsOf ss = (declaredTerminals ss).toList.map .addTerminal ++
      ss.filterMap Statement.typeEdit? ++ (productionsOf ss).map .addRule := rfl

theorem flatMap_terminals_editsOf (ss : List Statement) :
    (editsOf ss).flatMap Edit.terminals =
      (declaredTerminals ss).toList ++ (productionsOf ss).flatMap Production.terminals := by
  have htypes : (ss.filterMap Statement.typeEdit?).flatMap Edit.terminals = [] := by
    refine List.flatMap_eq_nil_iff.mpr fun e he => ?_
    obtain ⟨s, -, hs⟩ := List.mem_filterMap.mp he
    cases s <;> cases hs
    rfl
  rw [editsOf_eq, List.flatMap_append, List.flatMap_append, htypes, List.append_nil,
    List.flatMap_map, List.flatMap_map]
  congr 1
  exact List.flatMap_singleton' _

theorem flatMap_intermediates_editsOf (ss : List Statement) :
    (editsOf ss).flatMap Edit.intermediates =
      ss.flatMap Statement.typed ++ (productionsOf ss).flatMap Production.intermediates := by
  have htypes : (ss.filterMap Statement.typeEdit?).flatMap Edit.intermediates =
      ss.flatMap Statement.typed := by
    induction ss with
    | nil => rfl
    | cons s ss ih =>
      cases s with
      | terminals names => exact ih
      | type name code => exact congrArg (name :: ·) ih
      | rules left first others => exact ih
  rw [editsOf_eq, List.flatMap_append, List.flatMap_append, htypes, List.flatMap_map,
    List.flatMap_map]
  have hterminals : ((declaredTerminals ss).toList.flatMap fun name =>
      (Edit.addTerminal name).intermediates) = [] := List.flatMap_eq_nil_iff.mpr fun _ _ => rfl
  rw [hterminals, List.nil_append]
  rfl

theorem filterMap_typeOf?_editsOf (name : String) (ss : List Statement) :
    (editsOf ss).filterMap (Edit.typeOf? name) = ss.filterMap (Statement.typeOf? name) := by
  have hother {α : Type} (f : α → Edit) (hf : ∀ a, (f a).typeOf? name = none) (l : List α) :
      (l.map f).filterMap (Edit.typeOf? name) = [] := by
    rw [List.filterMap_map]
    exact List.filterMap_eq_nil_iff.mpr fun a _ => hf a
  rw [editsOf_eq, List.filterMap_append, List.filterMap_append,
    hother Edit.addTerminal (fun _ => rfl), hother Edit.addRule (fun _ => rfl), List.nil_append,
    List.append_nil, List.filterMap_filterMap]
  congr 1
  funext s
  cases s <;> rfl

theorem terminals_ofStatements (h : ofStatements ss = .ok g) :
    g.terminals = declaredTerminals ss := by
  rw [ofStatements_eq_ofEdits h, terminals_ofEdits, flatMap_terminals_editsOf,
    OrderedSet.ofList, OrderedSet.insertAll_append]
  have hdeclared : (∅ : OrderedSet String).insertAll (declaredTerminals ss).toList =
      declaredTerminals ss := OrderedSet.ofList_toList _
  rw [hdeclared]
  refine OrderedSet.insertAll_of_subset fun name hname => ?_
  obtain ⟨p, hp, hname⟩ := List.mem_flatMap.mp hname
  exact terminals_subset_of_mem_productionsOf hp name hname

theorem rules_foldl_addTerminal (g : Grammar) (names : List String) :
    (names.foldl addTerminal g).rules = g.rules := by
  induction names generalizing g with
  | nil => rfl
  | cons name names ih => exact ih (g.addTerminal name)

theorem rules_addTypes (g : Grammar) (ss : List Statement) : (g.addTypes ss).rules = g.rules := by
  induction ss generalizing g with
  | nil => rfl
  | cons s ss ih =>
    cases s with
    | terminals names => exact ih g
    | type name code => exact ih (g.setType name (unbrace code))
    | rules left first others => exact ih g

/-- The rules are the productions of the source with their numbers. -/
theorem rules_ofStatements (h : ofStatements ss = .ok g) :
    g.rules = ((productionsOf ss).find? (·.left = startName)).toList.map (Rule.mk · startId) ++
      ((productionsOf ss).eraseP (·.left = startName)).mapIdx
        fun i p => Rule.mk p (i + firstId) := by
  refine rules_addRules ?_ h
  rw [rules_addTypes, rules_foldl_addTerminal]
  rfl

theorem mem_productionsOf_of_mem_rules (h : ofStatements ss = .ok g) {r : Rule}
    (hr : r ∈ g.rules) : r.toProduction ∈ productionsOf ss := by
  rw [rules_ofStatements h, List.mem_append] at hr
  rcases hr with hr | hr
  · obtain ⟨p, hp, rfl⟩ := List.mem_map.mp hr
    exact List.mem_of_find?_eq_some (Option.mem_toList.mp hp)
  · obtain ⟨i, hi, rfl⟩ := List.mem_mapIdx.mp hr
    exact List.mem_of_mem_eraseP (List.getElem_mem hi)

theorem arranged_ofStatements (h : ofStatements ss = .ok g) : g.Arranged ss where
  terminals := by
    rw [terminals_ofStatements h, declaredTerminals_eq, OrderedSet.toList_ofList]
  types := by
    intro name
    rw [ofStatements_eq_ofEdits h, declaredType?_ofEdits, filterMap_typeOf?_editsOf]
  rules := by
    have hproductions : productionsOf ss = (ss.flatMap Statement.alternatives).map
        fun a => productionOf (declaredTerminals ss) a.1 a.2 := rfl
    have hleft : ((fun p => decide (p.left = startName)) ∘
        fun a : String × Alternative => productionOf (declaredTerminals ss) a.1 a.2) =
          fun a => decide (a.1 = startName) := rfl
    rw [rules_ofStatements h, numbered, hproductions, List.find?_map, List.eraseP_map, hleft,
      List.map_append]
    congr 1
    · cases (ss.flatMap Statement.alternatives).find? (·.1 = startName) with
      | none => rfl
      | some a => exact congrArg ([·]) (written_productionOf _ a.1 a.2 startId)
    · refine List.ext_getElem? fun i => ?_
      simp only [List.getElem?_map, List.getElem?_mapIdx, Option.map_map, Function.comp_def,
        written_productionOf]
  symbols := by
    intro r hr x hx
    rw [isTerminal_iff_of_mem_productionsOf (mem_productionsOf_of_mem_rules h hr) hx,
      mem_declaredTerminals]
  intermediates := by
    rw [ofStatements_eq_ofEdits h, intermediates_ofEdits, flatMap_intermediates_editsOf,
      OrderedSet.toList_ofList]

theorem load_of_parse {cc : CharClass} {source : String} (h : parse cc source = .ok ss) :
    load cc source = (ofStatements ss).mapError .fault := by
  simp only [load, h]
  cases ofStatements ss <;> rfl

theorem exists_parse_of_load {cc : CharClass} {source : String} (h : load cc source = .ok g) :
    ∃ ss, parse cc source = .ok ss := by
  unfold load at h
  split at h
  · cases h
  · exact ⟨_, ‹_›⟩

theorem ofStatements_of_load {cc : CharClass} {source : String} (h : parse cc source = .ok ss)
    (hg : load cc source = .ok g) : ofStatements ss = .ok g := by
  rw [load_of_parse h] at hg
  cases hss : ofStatements ss with
  | error f =>
    rw [hss] at hg
    cases hg
  | ok g' =>
    rw [hss] at hg
    exact congrArg Except.ok (Except.ok.inj hg)

end Grammar

end ShiftReduce
