import ShiftReduce.Grammar.Ledger
import ShiftReduce.Source.Load

/-!
# Parts of a source

The statements of a source by their kinds. The terminals, the types and the rules of a grammar are
each declared by the statements of one kind, and `Arranged` says how.
-/

namespace ShiftReduce

namespace Source

inductive StatementKind where
  | terminals
  | type
  | rules
  deriving DecidableEq, Repr

namespace Statement

def kind : Statement → StatementKind
  | terminals _ => .terminals
  | type _ _ => .type
  | rules _ _ _ => .rules

/-- The names that a statement declares as terminals. -/
def declared : Statement → List String
  | terminals names => names
  | _ => []

/-- The intermediates whose types a statement declares. -/
def typed : Statement → List String
  | type name _ => [name]
  | _ => []

/-- The type that a statement declares for `name`. -/
def typeOf? (name : String) : Statement → Option String
  | type other code => if other = name then some (unbrace code) else none
  | _ => none

/-- The edit that declares the type of an intermediate. -/
def typeEdit? : Statement → Option Edit
  | type name code => some (.setType name (unbrace code))
  | _ => none

end Statement

/-- A statement declares the name as a terminal. -/
def Declares (ss : List Statement) (name : String) : Prop :=
  ∃ names, .terminals names ∈ ss ∧ name ∈ names

/-- A statement declares a type for the name. -/
def Types (ss : List Statement) (name : String) : Prop := ∃ code, .type name code ∈ ss

/-- The name is the left side of a rule. -/
def Defines (ss : List Statement) (name : String) : Prop :=
  ∃ first others, .rules name first others ∈ ss

/-- The name stands on the right side of a rule. -/
def Uses (ss : List Statement) (name : String) : Prop :=
  ∃ left first others, .rules left first others ∈ ss ∧ ∃ a ∈ first :: others, name ∈ a.symbols

/-- The statements of each kind are the same and in the same order. -/
def SameParts (ss ss' : List Statement) : Prop :=
  ∀ k, ss.filter (·.kind = k) = ss'.filter (·.kind = k)

/-- The productions that the rules of a source stand for, in their order. -/
def productionsOf (ss : List Statement) : List Production :=
  (ss.flatMap Statement.alternatives).map fun (left, a) =>
    productionOf (declaredTerminals ss) left a

/-- The alternatives with their numbers: the first one of the start symbol is rule 1, and the others
are rules 2, 3, … in the order of the source. -/
def numbered (alternatives : List (String × Alternative)) :
    List (RuleId × String × Alternative) :=
  (alternatives.find? (·.1 = startName)).toList.map (startId, ·) ++
    (alternatives.eraseP (·.1 = startName)).mapIdx fun i a => (i + firstId, a)

end Source

/-- A rule with its number, as a source writes it. -/
def Rule.written (r : Rule) : RuleId × String × Source.Alternative :=
  (r.id, r.left, ⟨r.right.map Symbol.name, r.action⟩)

namespace Grammar

open Source

/-- What each kind of statement declares, in the order of the source. -/
structure Arranged (g : Grammar) (ss : List Statement) : Prop where
  /-- The terminals are the declared names in the order of first occurrence. -/
  terminals : g.terminals.toList = (ss.flatMap Statement.declared).eraseDups
  /-- The last type that is declared for a name holds. -/
  types : ∀ name, g.declaredType? name = (ss.filterMap (Statement.typeOf? name)).getLast?
  rules : g.rules.map Rule.written = numbered (ss.flatMap Statement.alternatives)
  /-- A name on a right side is a terminal if any statement declares it, and only then. -/
  symbols : ∀ r ∈ g.rules, ∀ x ∈ r.right, x.isTerminal ↔ Declares ss x.name
  /-- The intermediates come with their types and then with the rules. -/
  intermediates : g.intermediates.toList =
    (ss.flatMap Statement.typed ++ (productionsOf ss).flatMap Production.intermediates).eraseDups

end Grammar

end ShiftReduce
