import ShiftReduce.Text.Basic

/-!
# Grids

Rows of cells in columns. A column is as wide as its widest cell, columns are set apart by a
space, a bar may stand before one column, and no line ends in blanks.
-/

namespace ShiftReduce.Grid

/-- The cell with spaces up to the width of its column. -/
def pad (width : Nat) (cell : List Char) : List Char :=
  cell ++ List.replicate (width - cell.length) ' '

/-- The widths of columns that hold the cells of `row` as well. -/
def widen : List Nat → List (List Char) → List Nat
  | [], row => row.map List.length
  | widths, [] => widths
  | w :: widths, cell :: row => max w cell.length :: widen widths row

def columnWidths (rows : List (List (List Char))) : List Nat :=
  rows.foldl widen []

/-- What stands before the column `column`. -/
def separator (bar column : Nat) : List Char :=
  (if column = bar then [' ', '|'] else []) ++ (if column = 0 then [] else [' '])

/-- The cells from the column `column` on. -/
def rowFrom (bar : Nat) : Nat → List Nat → List (List Char) → List Char
  | column, w :: widths, cell :: row =>
    separator bar column ++ pad w cell ++ rowFrom bar (column + 1) widths row
  | _, _, _ => []

def rowText (bar : Nat) (widths : List Nat) (row : List (List Char)) : String :=
  .ofList (Text.trimEnd (rowFrom bar 0 widths row))

/-- The lines of a grid with a bar before the column `bar`. -/
def render (bar : Nat) (rows : List (List String)) : List String :=
  let rows := rows.map (·.map String.toList)
  rows.map (rowText bar (columnWidths rows))

end ShiftReduce.Grid
