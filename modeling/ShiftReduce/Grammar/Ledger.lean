import ShiftReduce.Grammar.Edit

/-!
# Ledgers

A grammar kept as tables: its rules by their numbers, the numbers of the alternatives by the left
sides, names and types, and the number of the next rule. A table keeps its entries in the order in
which their keys came; only the rules are sorted, when rule 1 comes behind others. What has been
stored is read off the numbers that the ledger answers.
-/

namespace ShiftReduce

/-! ## Tables -/

namespace Entries

variable {κ ν : Type} [DecidableEq κ]

/-- Enters a value for a key, in the place of an earlier one or behind the other entries. -/
def put : List (κ × ν) → κ → ν → List (κ × ν)
  | [], key, value => [(key, value)]
  | e :: entries, key, value =>
    if e.1 = key then (key, value) :: entries else e :: put entries key value

end Entries

structure Ledger extends Names where
  productions : List (RuleId × Production)
  /-- The numbers of the alternatives of a left side. -/
  alternatives : List (String × List RuleId)
  types : List (String × String)
  nextId : RuleId
  deriving DecidableEq, Repr

namespace Ledger

def empty : Ledger := ⟨.empty, [], [], [], firstId⟩

/-! ## Looking at a ledger -/

/-- The rules in the order of the table. -/
def rules (l : Ledger) : List Rule := l.productions.map fun e => ⟨e.2, e.1⟩

def alternativesOf (l : Ledger) (name : String) : List RuleId :=
  (l.alternatives.lookup name).getD []

/-! ## Building a ledger -/

def addTerminal (l : Ledger) (name : String) : Ledger :=
  { l with toNames := l.toNames.addTerminal name }

def addIntermediate (l : Ledger) (name : String) : Ledger :=
  { l with toNames := l.toNames.addIntermediate name }

def setType (l : Ledger) (name type : String) : Ledger :=
  let l := l.addIntermediate name
  { l with types := Entries.put l.types name type }

/-- Registers the symbols of a production. -/
def register (l : Ledger) (p : Production) : Ledger :=
  { l with toNames := l.toNames.register p }

/-- The highest number that 16 bits can hold. -/
def highestCount : Nat := 65535

/-- The number that the next rule gets, and the one behind it. Counting beyond 16 bits fails. -/
def draw (l : Ledger) : Except Fault (RuleId × RuleId) :=
  if l.nextId < highestCount then .ok (l.nextId, l.nextId + 1) else .error .ruleNumbersExhausted

/-- Enters a production under its number. -/
def enter (l : Ledger) (id : RuleId) (p : Production) : Ledger :=
  let productions := Entries.put l.productions id p
  { l with
    productions := if id = startId then productions.mergeSort fun d e => d.1 ≤ e.1 else productions
    alternatives := Entries.put l.alternatives p.left (l.alternativesOf p.left ++ [id]) }

/-- Adds a production as the last alternative of its left side. The first one of the start symbol is
rule 1. -/
def addRule (l : Ledger) (p : Production) : Ledger × Except Fault RuleId :=
  let l := l.register p
  if p.left = startName ∧ startId ∉ l.productions.map Prod.fst then
    (l.enter startId p, .ok startId)
  else
    match l.draw with
    | .ok (id, next) => ({ l with nextId := next }.enter id p, .ok id)
    | .error f => (l, .error f)

/-- Makes an edit. An edit that fails keeps what it did before. -/
def apply (l : Ledger) : Edit → Ledger
  | .addTerminal name => l.addTerminal name
  | .addIntermediate name => l.addIntermediate name
  | .setType name type => l.setType name type
  | .addRule p => (l.addRule p).1

/-- The ledger that a list of edits leads to. -/
def ofEdits (edits : List Edit) : Ledger := edits.foldl apply empty

/-! ## Checking a ledger -/

/-- Rule 1, looked up by its number. -/
def startRule (l : Ledger) : Except BuildError Rule :=
  match l.productions.lookup startId with
  | some p => .ok ⟨p, startId⟩
  | none => .error (.missingStartRule startName)

/-- What the numbers listed for the start symbol tell of its rules. -/
def startDiagnostics (l : Ledger) : List Diagnostic :=
  match (l.alternatives.lookup startName).map List.length with
  | none | some 0 => [.missingStartRule startName]
  | some 1 => []
  | some count => [.duplicateStartRule startName count]

def typeDiagnostics (l : Ledger) : List Diagnostic :=
  (l.intermediates.toList.filter fun name => (l.types.lookup name).isNone).map .missingType

/-- The problems of the start symbol, and then the missing types in the order of registration. -/
def check (l : Ledger) : List Diagnostic := l.startDiagnostics ++ l.typeDiagnostics

/-! ## What has been stored -/

/-- The rule that an edit stores, by the number that is answered. -/
def stored? (l : Ledger) : Edit → Option Rule
  | .addRule p =>
    match (l.addRule p).2 with
    | .ok id => some ⟨p, id⟩
    | .error _ => none
  | _ => none

/-- The rules that edits store, in the order in which they are stored. -/
def history (l : Ledger) : List Edit → List Rule
  | [] => []
  | e :: edits => (l.stored? e).toList ++ (l.apply e).history edits

end Ledger

/-! ## What is registered -/

namespace Production

/-- The terminals of the right side, in their order. -/
def terminals (p : Production) : List String :=
  (p.right.filter Symbol.isTerminal).map Symbol.name

/-- The intermediates of the right side, in their order, and then the left side. -/
def intermediates (p : Production) : List String :=
  (p.right.filter Symbol.isIntermediate).map Symbol.name ++ [p.left]

end Production

namespace Edit

/-- The terminals that an edit registers, in their order. -/
def terminals : Edit → List String
  | addTerminal name => [name]
  | addIntermediate _ => []
  | setType _ _ => []
  | addRule p => p.terminals

/-- The intermediates that an edit registers, in their order. -/
def intermediates : Edit → List String
  | addTerminal _ => []
  | addIntermediate name => [name]
  | setType name _ => [name]
  | addRule p => p.intermediates

/-- The type that an edit declares for `name`. -/
def typeOf? (name : String) : Edit → Option String
  | setType other type => if other = name then some type else none
  | _ => none

/-- Whether no edit declares a type for `name`. -/
def untyped (edits : List Edit) (name : String) : Bool :=
  edits.all fun e => (e.typeOf? name).isNone

end Edit

end ShiftReduce
