import ShiftReduce.Table.Basic
import ShiftReduce.Table.Grid

/-!
# Dumps

The text form of a table: the rules, a grid of actions and successors, and the items of each
state.
-/

namespace ShiftReduce

namespace Action

/-- What a cell of the grid says. An error leaves the cell empty. -/
def cell : Action → String
  | shift id => "S" ++ toString id
  | reduce r => "R" ++ toString r
  | accept => "ACC"
  | error => ""

end Action

namespace Table

/-- The terminals of the grid, with the end of input if it is not one of them. -/
def terminalColumns (t : Table) : List String :=
  State.inputs t.grammar t.config.endOfInput

/-- The intermediates of the grid. The start symbol has no successors worth showing. -/
def intermediateColumns (t : Table) : List String :=
  t.grammar.intermediates.toList.filter (· ≠ startName)

def header (t : Table) : List String :=
  "" :: t.terminalColumns ++ t.intermediateColumns

def gotoCell (s : State) (intermediate : String) : String :=
  match s.goto? intermediate with
  | some id => toString id
  | none => ""

def row (t : Table) (id : StateId) (s : State) : List String :=
  toString id :: t.terminalColumns.map (fun x => (s.action x t.config.endOfInput).cell) ++
    t.intermediateColumns.map (gotoCell s)

/-- The lines of the grid, with a bar between terminals and intermediates. -/
def grid (t : Table) : List String :=
  Grid.render (t.terminalColumns.length + 1) (t.header :: t.states.toList.mapIdx t.row)

/-- A rule with its number and its action. -/
def ruleLine (r : Rule) : String :=
  "[" ++ toString r.id ++ "] " ++ r.left ++ " ::= " ++ Symbol.join " " r.right ++
    (if r.action = "" then "" else "  " ++ r.action)

def stateLines (id : StateId) (s : State) : List String :=
  ("State " ++ toString id ++ ":") :: s.items.map fun i => "  " ++ i.text

def dump (t : Table) : String :=
  Text.lines <|
    "## rules" :: t.grammar.rules.map ruleLine ++
    ["", "## " ++ t.config.method.text ++ " table"] ++ t.grid ++
    ["", "## states"] ++ (t.states.toList.mapIdx stateLines).flatten

end Table

end ShiftReduce
