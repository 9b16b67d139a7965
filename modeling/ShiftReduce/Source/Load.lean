import ShiftReduce.Grammar.Basic
import ShiftReduce.Source.Reader
import ShiftReduce.Text.Basic

/-!
# Loading a grammar

The statements of a source are taken in three turns: the declared terminals, the declared types,
and the rules. So a declaration holds for the whole source, wherever it stands.
-/

namespace ShiftReduce

namespace Source

/-- The names that a list of statements declares as terminals. -/
def declaredTerminals (ss : List Statement) : OrderedSet String :=
  .ofList <| ss.flatMap fun
    | .terminals names => names
    | _ => []

/-- A block without its braces and without blanks at its ends. -/
def unbrace (code : String) : String :=
  let cs := code.toList
  let inner :=
    if cs.head? = some '\x7b' && 2 ≤ cs.length && cs.getLast? = some '\x7d' then cs.tail.dropLast
    else cs
  .ofList (Text.trim inner)

/-- A name on a right side. -/
def symbolOf (terminals : OrderedSet String) (name : String) : Symbol :=
  if name ∈ terminals then .terminal name else .intermediate name

def productionOf (terminals : OrderedSet String) (left : String) (a : Alternative) :
    Production :=
  ⟨left, a.symbols.map (symbolOf terminals), a.action⟩

end Source

inductive LoadError where
  | source (e : Source.SourceError)
  | fault (f : Fault)
  deriving DecidableEq, Repr

namespace LoadError

def message : LoadError → String
  | source e => e.message
  | fault f => f.message

end LoadError

namespace Grammar

open Source

def addTypes (g : Grammar) (ss : List Statement) : Grammar :=
  ss.foldl (fun g s =>
    match s with
    | .type name code => g.setType name (unbrace code)
    | _ => g) g

/-- Adds productions until one finds no number. -/
def addRules : Grammar → List Production → Except Fault Grammar
  | g, [] => .ok g
  | g, p :: rest =>
    match g.addRule p with
    | (g, .ok _) => g.addRules rest
    | (_, .error f) => .error f

def ofStatements (ss : List Statement) : Except Fault Grammar :=
  let terminals := declaredTerminals ss
  let declared := (terminals.toList.foldl addTerminal empty).addTypes ss
  declared.addRules <|
    (ss.flatMap Statement.alternatives).map fun (left, a) => productionOf terminals left a

/-- The grammar that a source describes. -/
def load (cc : CharClass) (source : String) : Except LoadError Grammar :=
  match parse cc source with
  | .error e => .error (.source e)
  | .ok ss =>
    match ofStatements ss with
    | .error f => .error (.fault f)
    | .ok g => .ok g

end Grammar

end ShiftReduce
