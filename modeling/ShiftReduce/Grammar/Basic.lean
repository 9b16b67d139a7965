import ShiftReduce.Diagnostic
import ShiftReduce.Fault
import ShiftReduce.OrderedSet
import ShiftReduce.Symbol
import ShiftReduce.Text.Basic

/-!
# Grammars

A grammar holds the registered names, the declared types and the productions. A production is
numbered by its place: the first one of the start symbol is rule 1, and the others are rules
2, 3, … in the order in which they were added. A rule is a production with its number.
-/

namespace ShiftReduce

/-- The intermediate that every derivation starts from. -/
def startName : String := "START"

abbrev RuleId := Nat

/-- The number of the first production of the start symbol. -/
def startId : RuleId := 1

/-- The number of the first production that is not rule 1. -/
def firstId : RuleId := 2

/-- The highest number that a rule can have. -/
def lastId : RuleId := 65534

structure Production where
  left : String
  right : List Symbol
  /-- The text attached to the production, empty if there is none. -/
  action : String
  deriving DecidableEq, Repr

structure Rule extends Production where
  id : RuleId
  deriving DecidableEq, Repr

namespace Rule

def isStart (r : Rule) : Bool := r.id == startId

/-- The rule in the form `E ::= E ADD B`. -/
def text (r : Rule) : String :=
  String.join ((r.left ++ " ::=") :: r.right.map fun x => " " ++ x.name)

end Rule

/-! ## Names -/

/-- The registered names of either kind. -/
@[ext] structure Names where
  terminals : OrderedSet String
  intermediates : OrderedSet String
  deriving DecidableEq, Repr

namespace Names

def empty : Names := ⟨∅, ∅⟩

def addTerminal (n : Names) (name : String) : Names :=
  { n with terminals := n.terminals.insert name }

def addIntermediate (n : Names) (name : String) : Names :=
  { n with intermediates := n.intermediates.insert name }

def addSymbol (n : Names) : Symbol → Names
  | .terminal name => n.addTerminal name
  | .intermediate name => n.addIntermediate name

/-- Registers the symbols of a right side and then the left side. -/
def register (n : Names) (p : Production) : Names :=
  (p.right.foldl addSymbol n).addIntermediate p.left

end Names

/-! ## Grammars -/

structure Grammar extends Names where
  /-- At most one type for a name. -/
  types : List (String × String)
  start? : Option Production
  others : Array Production
  deriving DecidableEq, Repr

namespace Grammar

def empty : Grammar := ⟨.empty, [], none, #[]⟩

instance : Inhabited Grammar := ⟨empty⟩

/-! ## Building a grammar -/

def addTerminal (g : Grammar) (name : String) : Grammar :=
  { g with toNames := g.toNames.addTerminal name }

def addIntermediate (g : Grammar) (name : String) : Grammar :=
  { g with toNames := g.toNames.addIntermediate name }

/-- Registers `name` and declares its type, in place of an earlier declaration. -/
def setType (g : Grammar) (name type : String) : Grammar :=
  let g := g.addIntermediate name
  { g with types := (name, type) :: g.types.filter (·.1 ≠ name) }

/-- Registers the symbols of a production. -/
def register (g : Grammar) (p : Production) : Grammar :=
  { g with toNames := g.toNames.register p }

/-- The number that the next production gets if it is not rule 1. -/
def nextId (g : Grammar) : RuleId := g.others.size + firstId

/-- Numbers a production whose symbols are registered. -/
def store (g : Grammar) (p : Production) : Grammar × Except Fault RuleId :=
  if p.left = startName ∧ g.start? = none then ({ g with start? := some p }, .ok startId)
  else
    let id := g.nextId
    if id ≤ lastId then ({ g with others := g.others.push p }, .ok id)
    else (g, .error .ruleNumbersExhausted)

/-- Adds a production as the last alternative of its left side. If the numbers are exhausted its
symbols are registered and nothing else happens. -/
def addRule (g : Grammar) (p : Production) : Grammar × Except Fault RuleId :=
  (g.register p).store p

/-! ## Looking at a grammar -/

/-- The rules in the order of their numbers. -/
def rules (g : Grammar) : List Rule :=
  (g.start?.map (Rule.mk · startId)).toList ++
    g.others.toList.mapIdx fun i p => Rule.mk p (i + firstId)

/-- The number of places for a dot in the right sides of rules. -/
def dotCount (rules : List Rule) : Nat := rules.foldr (fun r n => r.right.length + 1 + n) 0

/-- The rules of an intermediate in the order in which they were added. -/
def alternatives (g : Grammar) (name : String) : List Rule :=
  g.rules.filter (·.left = name)

/-- Rule 1. -/
def startRule (g : Grammar) : Except BuildError Rule :=
  match g.start? with
  | some p => .ok ⟨p, startId⟩
  | none => .error (.missingStartRule startName)

def rule (g : Grammar) (id : RuleId) : Except Fault Rule :=
  match g.rules.find? (·.id = id) with
  | some r => .ok r
  | none => .error (.missingRule id)

def isTerminal (g : Grammar) (name : String) : Bool :=
  name ∈ g.terminals

def declaredType? (g : Grammar) (name : String) : Option String :=
  g.types.lookup name

/-! ## Checking a grammar -/

def startDiagnostics (g : Grammar) : List Diagnostic :=
  match (g.alternatives startName).length with
  | 0 => [.missingStartRule startName]
  | 1 => []
  | count => [.duplicateStartRule startName count]

def typeDiagnostics (g : Grammar) : List Diagnostic :=
  (g.intermediates.toList.filter fun name => (g.declaredType? name).isNone).map .missingType

/-- A grammar should have exactly one rule for the start symbol, and a type for each intermediate.
The problems of the start symbol come first, and then the missing types in the order of
registration. -/
def check (g : Grammar) : List Diagnostic :=
  g.startDiagnostics ++ g.typeDiagnostics

/-! ## Text -/

/-- An intermediate with its type. -/
def intermediateText (g : Grammar) (name : String) : String :=
  match g.declaredType? name with
  | some type => name ++ " : " ++ type
  | none => name

/-- The names, the types and the rules of a grammar. -/
def text (g : Grammar) : String :=
  Text.lines <|
    "## terminals:" :: g.terminals.toList ++
    ["", "## intermediates:"] ++ g.intermediates.toList.map g.intermediateText ++
    ["", "## rules:"] ++ g.rules.map fun r => "[" ++ toString r.id ++ "] " ++ r.text

end Grammar

end ShiftReduce
