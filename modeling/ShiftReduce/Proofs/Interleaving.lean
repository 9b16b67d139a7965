import ShiftReduce.Proofs.Declarations

/-!
# The order of statements of different kinds

Terminals, types and rules are taken in three turns over the statements of a source, so where a
statement stands among those of other kinds makes no difference: sources with the same statements of
each kind load to the same grammar, or fail in the same way.
-/

namespace ShiftReduce

namespace Source

variable {ss ss' : List Statement}

/-! ## Statements of one kind -/

theorem flatMap_filter_kind {α : Type} {f : Statement → List α} {k : StatementKind}
    (hf : ∀ s, s.kind ≠ k → f s = []) (ss : List Statement) :
    (ss.filter (·.kind = k)).flatMap f = ss.flatMap f := by
  induction ss with
  | nil => rfl
  | cons s ss ih =>
    by_cases hs : s.kind = k
    · rw [List.filter_cons_of_pos (by simpa using hs), List.flatMap_cons, List.flatMap_cons, ih]
    · rw [List.filter_cons_of_neg (by simpa using hs), List.flatMap_cons, hf s hs, ih,
        List.nil_append]

/-- What only the statements of one kind say is the same. -/
theorem SameParts.flatMap_eq {α : Type} (h : SameParts ss ss') (k : StatementKind)
    {f : Statement → List α} (hf : ∀ s, s.kind ≠ k → f s = []) : ss.flatMap f = ss'.flatMap f := by
  rw [← flatMap_filter_kind hf ss, h k, flatMap_filter_kind hf ss']

theorem SameParts.declaredTerminals_eq (h : SameParts ss ss') :
    declaredTerminals ss = declaredTerminals ss' := by
  refine congrArg OrderedSet.ofList
    (h.flatMap_eq .terminals (f := Statement.declared) fun s hs => ?_)
  cases s with
  | terminals names => exact absurd rfl hs
  | type name code => rfl
  | rules left first others => rfl

theorem SameParts.alternatives_eq (h : SameParts ss ss') :
    ss.flatMap Statement.alternatives = ss'.flatMap Statement.alternatives := by
  refine h.flatMap_eq .rules fun s hs => ?_
  cases s with
  | terminals names => rfl
  | type name code => rfl
  | rules left first others => exact absurd rfl hs

theorem SameParts.typeEdits_eq (h : SameParts ss ss') :
    ss.filterMap Statement.typeEdit? = ss'.filterMap Statement.typeEdit? := by
  rw [List.filterMap_eq_flatMap_toList, List.filterMap_eq_flatMap_toList]
  refine h.flatMap_eq .type fun s hs => ?_
  cases s with
  | terminals names => rfl
  | type name code => exact absurd rfl hs
  | rules left first others => rfl

end Source

namespace Grammar

open Source

variable {ss ss' : List Statement}

/-! ## The grammars of such statements -/

theorem addTypes_congr (h : SameParts ss ss') (g : Grammar) : g.addTypes ss = g.addTypes ss' := by
  have hfold (ss : List Statement) :
      g.addTypes ss = (ss.filterMap Statement.typeEdit?).foldl Edit.apply g :=
    addTypes_eq_foldl g ss
  rw [hfold, hfold, h.typeEdits_eq]

theorem ofStatements_congr (h : SameParts ss ss') : ofStatements ss = ofStatements ss' := by
  simp only [ofStatements, h.declaredTerminals_eq, h.alternatives_eq, addTypes_congr h]

theorem editsOf_congr (h : SameParts ss ss') : editsOf ss = editsOf ss' := by
  rw [editsOf_eq, editsOf_eq, productionsOf, productionsOf, h.declaredTerminals_eq,
    h.typeEdits_eq, h.alternatives_eq]

/-- What two sources with the same statements of each kind lead to. -/
structure Interleaved (cc : CharClass) (source source' : String) (ss ss' : List Statement) :
    Prop where
  same : load cc source = load cc source'
  /-- The tables in which the grammars are kept have the same entries in the same order. -/
  tables : Ledger.ofEdits (editsOf ss) = Ledger.ofEdits (editsOf ss')
  agrees : ∀ g, load cc source = .ok g → (Ledger.ofEdits (editsOf ss)).Agrees g
  arranged : ∀ g, load cc source = .ok g → g.Arranged ss

/-- How statements of different kinds are mixed makes no difference to the grammar. -/
theorem load_interleaved {cc : CharClass} {source source' : String}
    (h : parse cc source = .ok ss) (h' : parse cc source' = .ok ss') (hparts : SameParts ss ss') :
    Interleaved cc source source' ss ss' where
  same := by rw [load_of_parse h, load_of_parse h', ofStatements_congr hparts]
  tables := congrArg Ledger.ofEdits (editsOf_congr hparts)
  agrees := by
    intro g hg
    rw [ofStatements_eq_ofEdits (ofStatements_of_load h hg)]
    exact Ledger.agrees_ofEdits _
  arranged := fun g hg => arranged_ofStatements (ofStatements_of_load h hg)

/-- The statements of `mixedSource`: tokens are declared behind their uses and again, `S` has two
types, and rule 1 is not the first one. -/
def mixedStatements : List Statement :=
  [.rules "S" ⟨["a", "S"], ""⟩ [⟨["b"], "\x7b1\x7d"⟩], .type "S" "\x7bx\x7d", .terminals ["b"],
    .rules startName ⟨["S"], ""⟩ [⟨[], ""⟩], .terminals ["a", "b"], .type "S" "\x7by\x7d"]

def mixedSource : String :=
  "S ::= a S | b \x7b1\x7d; %type S \x7bx\x7d; %token b; " ++
    "START ::= S | ; %token a b; %type S \x7by\x7d;"

/-- The same statements, those of one kind behind those of another. -/
def sortedStatements : List Statement :=
  [.terminals ["b"], .terminals ["a", "b"], .type "S" "\x7bx\x7d", .type "S" "\x7by\x7d",
    .rules "S" ⟨["a", "S"], ""⟩ [⟨["b"], "\x7b1\x7d"⟩], .rules startName ⟨["S"], ""⟩ [⟨[], ""⟩]]

def sortedSource : String :=
  "%token b; %token a b; %type S \x7bx\x7d; %type S \x7by\x7d; " ++
    "S ::= a S | b \x7b1\x7d; START ::= S | ;"

theorem interleaved_mixed :
    parse .unicode mixedSource = .ok mixedStatements ∧
      parse .unicode sortedSource = .ok sortedStatements ∧
      SameParts mixedStatements sortedStatements ∧
      Interleaved .unicode mixedSource sortedSource mixedStatements sortedStatements := by
  have hmixed : parse .unicode mixedSource = .ok mixedStatements := by decide +kernel
  have hsorted : parse .unicode sortedSource = .ok sortedStatements := by decide +kernel
  have hparts : SameParts mixedStatements sortedStatements := by
    intro k
    cases k <;> rfl
  exact ⟨hmixed, hsorted, hparts, load_interleaved hmixed hsorted hparts⟩

example : (Grammar.load .unicode mixedSource).map (fun g =>
      (g.terminals.toList, g.declaredType? "S", g.rules.map fun r => (r.id, r.right))) =
    .ok (["b", "a"], some "y", [(1, [.intermediate "S"]),
      (2, [.terminal "a", .intermediate "S"]), (3, [.terminal "b"]), (4, [])]) := by
  decide +kernel

end Grammar

end ShiftReduce
