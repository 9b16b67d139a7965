import Mathlib.Data.List.DropRight
import ShiftReduce.Source.Layout
import ShiftReduce.Table.Dump

/-!
# Columns

How a grid is read again. The columns begin where the words of the first line do, and there every
line is cut; what fills a piece up to the next cell is dropped.
-/

namespace ShiftReduce

namespace Grid

/-- Whether a character stands between cells. -/
def isFiller (c : Char) : Bool := Text.isBlank c || c = '|'

/-- The places where words begin, if the first character is at `place`. -/
def startsFrom : Nat → Bool → List Char → List Nat
  | _, _, [] => []
  | place, inside, c :: rest =>
    if isFiller c then startsFrom (place + 1) false rest
    else if inside then startsFrom (place + 1) true rest
    else place :: startsFrom (place + 1) true rest

/-- The places where the columns begin. The first column has no name. -/
def offsets (header : List Char) : List Nat := 0 :: startsFrom 0 false header

/-- A piece of a line without what fills it up. -/
def content (piece : List Char) : String := .ofList (piece.rdropWhile isFiller)

/-- The cells of a line that is cut at the given places. -/
def cells : List Nat → List Char → List String
  | [], _ => []
  | [start], line => [content (line.drop start)]
  | start :: stop :: places, line =>
    content ((line.take stop).drop start) :: cells (stop :: places) line

/-- The number of the columns before the bar. -/
def columnsBeforeBar (header : List Char) : Nat :=
  (offsets (header.takeWhile (· ≠ '|'))).length

/-- The rows of a grid. -/
def read : List String → List (List String)
  | [] => []
  | header :: lines =>
    (header :: lines).map fun line => cells (offsets header.toList) line.toList

end Grid

end ShiftReduce
