import ShiftReduce.Proofs.Declarations
import ShiftReduce.Proofs.Outcome

/-!
# Terminals and intermediates of a source

On right sides a name is a terminal if it is declared, and an intermediate otherwise. A left side
and a name with a type are intermediates whether they are declared or not, so there a name can be
both.
-/

namespace ShiftReduce

namespace Source

variable {ss : List Statement} {name left : String} {a : Alternative}

/-! ## Where names stand -/

theorem mem_flatMap_alternatives : (left, a) ∈ ss.flatMap Statement.alternatives ↔
    ∃ first others, .rules left first others ∈ ss ∧ a ∈ first :: others := by
  rw [List.mem_flatMap]
  constructor
  · rintro ⟨s, hs, ha⟩
    cases s with
    | terminals names => cases ha
    | type name code => cases ha
    | rules left' first others =>
      obtain ⟨a', ha', heq⟩ := List.mem_map.mp ha
      obtain ⟨rfl, rfl⟩ := Prod.mk.inj heq
      exact ⟨first, others, hs, ha'⟩
  · rintro ⟨first, others, hs, ha⟩
    exact ⟨_, hs, List.mem_map_of_mem ha⟩

theorem mem_flatMap_typed : name ∈ ss.flatMap Statement.typed ↔ Types ss name := by
  rw [List.mem_flatMap]
  constructor
  · rintro ⟨s, hs, hname⟩
    cases s with
    | terminals names => cases hname
    | type other code =>
      obtain rfl := List.mem_singleton.mp hname
      exact ⟨code, hs⟩
    | rules left first others => cases hname
  · rintro ⟨code, hs⟩
    exact ⟨_, hs, List.mem_singleton_self name⟩

/-- The intermediates of a right side are the names that are not declared. -/
theorem mem_intermediates_productionOf {terminals : OrderedSet String} :
    name ∈ (productionOf terminals left a).intermediates ↔
      name = left ∨ name ∈ a.symbols ∧ name ∉ terminals := by
  have hright : name ∈ ((a.symbols.map (symbolOf terminals)).filter Symbol.isIntermediate).map
      Symbol.name ↔ name ∈ a.symbols ∧ name ∉ terminals := by
    simp only [List.mem_map, List.mem_filter]
    constructor
    · rintro ⟨x, ⟨⟨other, hother, rfl⟩, hkind⟩, rfl⟩
      rw [name_symbolOf]
      refine ⟨hother, fun hmem => ?_⟩
      rw [symbolOf, if_pos hmem] at hkind
      cases hkind
    · rintro ⟨hname, hnot⟩
      refine ⟨_, ⟨⟨name, hname, rfl⟩, ?_⟩, name_symbolOf terminals name⟩
      rw [symbolOf, if_neg hnot]
      rfl
  rw [Production.intermediates, List.mem_append, List.mem_singleton, or_comm]
  exact or_congr_right hright

theorem mem_intermediates_productionsOf :
    name ∈ (productionsOf ss).flatMap Production.intermediates ↔
      Defines ss name ∨ Uses ss name ∧ ¬Declares ss name := by
  rw [List.mem_flatMap]
  constructor
  · rintro ⟨p, hp, hname⟩
    obtain ⟨⟨left, a⟩, ha, rfl⟩ := List.mem_map.mp hp
    obtain ⟨first, others, hs, ha⟩ := mem_flatMap_alternatives.mp ha
    rcases mem_intermediates_productionOf.mp hname with rfl | ⟨hused, hnot⟩
    · exact .inl ⟨first, others, hs⟩
    · exact .inr ⟨⟨left, first, others, hs, a, ha, hused⟩, mt mem_declaredTerminals.mpr hnot⟩
  · have hmem {left : String} {first a : Alternative} {others : List Alternative}
        (hs : .rules left first others ∈ ss) (ha : a ∈ first :: others) :
        productionOf (declaredTerminals ss) left a ∈ productionsOf ss :=
      List.mem_map.mpr ⟨(left, a), mem_flatMap_alternatives.mpr ⟨first, others, hs, ha⟩, rfl⟩
    rintro (⟨first, others, hs⟩ | ⟨⟨left, first, others, hs, a, ha, hused⟩, hnot⟩)
    · exact ⟨_, hmem hs List.mem_cons_self, mem_intermediates_productionOf.mpr (.inl rfl)⟩
    · exact ⟨_, hmem hs ha,
        mem_intermediates_productionOf.mpr (.inr ⟨hused, mt mem_declaredTerminals.mp hnot⟩)⟩

theorem defines_of_mem_productionsOf {p : Production} (hp : p ∈ productionsOf ss) :
    Defines ss p.left := by
  obtain ⟨⟨left, a⟩, ha, rfl⟩ := List.mem_map.mp hp
  obtain ⟨first, others, hs, -⟩ := mem_flatMap_alternatives.mp ha
  exact ⟨first, others, hs⟩

theorem filterMap_typeOf?_eq_nil (h : ¬Types ss name) :
    ss.filterMap (Statement.typeOf? name) = [] := by
  refine List.filterMap_eq_nil_iff.mpr fun s hs => ?_
  cases s with
  | terminals names => rfl
  | type other code =>
    have hother : other ≠ name := fun heq => h ⟨code, heq ▸ hs⟩
    exact if_neg hother
  | rules left first others => rfl

end Source

namespace Grammar

open Source

variable {g : Grammar} {ss : List Statement}

/-! ## The kinds of names -/

/-- No name is of both kinds. -/
structure NamesApart (g : Grammar) : Prop where
  disjoint : ∀ name ∈ g.terminals, name ∉ g.intermediates
  left : ∀ r ∈ g.rules, r.left ∉ g.terminals
  types : ∀ name ∈ g.terminals, g.declaredType? name = none

/-- Of which kinds the names of a source are. -/
structure NameKinds (ss : List Statement) (g : Grammar) : Prop where
  terminals : ∀ name, name ∈ g.terminals ↔ Declares ss name
  intermediates : ∀ name, name ∈ g.intermediates ↔
    Types ss name ∨ Defines ss name ∨ Uses ss name ∧ ¬Declares ss name
  right : ∀ r ∈ g.rules, ∀ x ∈ r.right, x.isTerminal ↔ Declares ss x.name
  /-- A name is of both kinds if it is declared and is a left side or has a type. -/
  both : ∀ name, name ∈ g.terminals ∧ name ∈ g.intermediates ↔
    Declares ss name ∧ (Types ss name ∨ Defines ss name)
  apart : g.NamesApart ↔ ∀ name, Declares ss name → ¬Types ss name ∧ ¬Defines ss name

theorem Arranged.mem_terminals (h : g.Arranged ss) {name : String} :
    name ∈ g.terminals ↔ Declares ss name := by
  rw [← mem_declaredTerminals, ← OrderedSet.mem_toList, h.terminals, declaredTerminals_eq,
    ← OrderedSet.mem_toList, OrderedSet.toList_ofList]

theorem Arranged.mem_intermediates (h : g.Arranged ss) {name : String} :
    name ∈ g.intermediates ↔
      Types ss name ∨ Defines ss name ∨ Uses ss name ∧ ¬Declares ss name := by
  rw [← OrderedSet.mem_toList, h.intermediates, List.mem_eraseDups, List.mem_append,
    mem_flatMap_typed, mem_intermediates_productionsOf]

theorem Arranged.both_iff (h : g.Arranged ss) {name : String} :
    name ∈ g.terminals ∧ name ∈ g.intermediates ↔
      Declares ss name ∧ (Types ss name ∨ Defines ss name) := by
  rw [h.mem_terminals, h.mem_intermediates]
  exact and_congr_right fun hname => by simp [hname]

/-- Each name of a source is of the kind that its places give it. -/
theorem load_nameKinds {cc : CharClass} {source : String} (h : parse cc source = .ok ss)
    (hg : load cc source = .ok g) : NameKinds ss g := by
  have hss := ofStatements_of_load h hg
  have harranged := arranged_ofStatements hss
  refine ⟨fun _ => harranged.mem_terminals, fun _ => harranged.mem_intermediates,
    harranged.symbols, fun _ => harranged.both_iff, fun hapart name hname => ?_, fun hsource => ?_⟩
  · have hterminal := harranged.mem_terminals.mpr hname
    have hnot := mt harranged.mem_intermediates.mpr (hapart.disjoint name hterminal)
    exact ⟨fun htyped => hnot (.inl htyped), fun hdefined => hnot (.inr (.inl hdefined))⟩
  · have hsource' {name : String} (hname : name ∈ g.terminals) :=
      hsource name (harranged.mem_terminals.mp hname)
    constructor
    · intro name hname hintermediate
      rcases (harranged.both_iff.mp ⟨hname, hintermediate⟩).2 with htyped | hdefined
      · exact (hsource' hname).1 htyped
      · exact (hsource' hname).2 hdefined
    · intro r hr hname
      have hdefined := defines_of_mem_productionsOf (mem_productionsOf_of_mem_rules hss hr)
      exact (hsource' hname).2 hdefined
    · intro name hname
      rw [harranged.types, filterMap_typeOf?_eq_nil (hsource' hname).1]
      rfl

/-- The token `a` is used as declared, and `b` is a left side without being declared. -/
theorem nameKinds_used : ∃ g,
    parse .unicode "b ::= a b; %token a;" = .ok [.rules "b" ⟨["a", "b"], ""⟩ [], .terminals ["a"]] ∧
      load .unicode "b ::= a b; %token a;" = .ok g ∧
      NameKinds [.rules "b" ⟨["a", "b"], ""⟩ [], .terminals ["a"]] g := by
  have hparse : parse .unicode "b ::= a b; %token a;" =
      .ok [.rules "b" ⟨["a", "b"], ""⟩ [], .terminals ["a"]] := by decide +kernel
  obtain ⟨g, hg, -⟩ := exists_of_map_eq_ok (x := load .unicode "b ::= a b; %token a;")
    (f := fun g => g.rules.length) (b := 1) (by decide +kernel)
  exact ⟨g, hparse, hg, load_nameKinds hparse hg⟩

def tokenOnTheLeft : String :=
  "%token S; %type START \x7bi64\x7d; %type S \x7bi64\x7d; START ::= S; S ::= ;"

/-- The token `S` is a left side and has a type, and the check has nothing to say of it. -/
theorem not_namesApart_token : ∃ g, load .unicode tokenOnTheLeft = .ok g ∧
    "S" ∈ g.terminals ∧ "S" ∈ g.intermediates ∧ g.check = [] ∧ ¬g.NamesApart := by
  obtain ⟨g, hg, hkinds⟩ := exists_of_map_eq_ok (x := load .unicode tokenOnTheLeft)
    (f := fun g => (decide ("S" ∈ g.terminals), decide ("S" ∈ g.intermediates), g.check))
    (b := (true, true, [])) (by decide +kernel)
  simp only [Prod.mk.injEq, decide_eq_true_eq] at hkinds
  obtain ⟨hterminal, hintermediate, hcheck⟩ := hkinds
  exact ⟨g, hg, hterminal, hintermediate, hcheck,
    fun hapart => hapart.disjoint "S" hterminal hintermediate⟩

end Grammar

end ShiftReduce
