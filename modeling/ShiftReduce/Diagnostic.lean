/-!
# Diagnostics

A diagnostic is a problem of a grammar or of its table that does not stop the construction.
Diagnostics are collected in the order in which they are found.
-/

namespace ShiftReduce

inductive Diagnostic where
  | missingStartRule (name : String)
  | duplicateStartRule (name : String) (count : Nat)
  | missingType (intermediate : String)
  | reduceReduceConflict (state : Nat) (items : List String)
  | multipleAccept (state : Nat) (items : List String)
  deriving DecidableEq, Repr

namespace Diagnostic

/-- A name in the quotes that messages use. -/
def quote (name : String) : String := "`" ++ name ++ "'"

def commas (items : List String) : String := ", ".intercalate items

def message : Diagnostic → String
  | missingStartRule name => "the start rule " ++ quote name ++ " is not defined"
  | duplicateStartRule name count =>
    "the start rule " ++ quote name ++ " must have exactly one alternative, found " ++
      toString count
  | missingType name => "no type is declared for the intermediate " ++ quote name
  | reduceReduceConflict state items =>
    "reduce/reduce conflict in state " ++ toString state ++ ": " ++ commas items
  | multipleAccept state items =>
    "multiple accepting items in state " ++ toString state ++ ": " ++ commas items

/-- One line for each diagnostic. -/
def report (ds : List Diagnostic) : String :=
  String.join (ds.map fun d => "error: " ++ d.message ++ "\n")

end Diagnostic

end ShiftReduce
