import Std.Data.TreeMap

/-!
# Symbols

A terminal is read from the input, an intermediate is rewritten by rules. The two have separate
name spaces: a terminal and an intermediate of the same name are different symbols.
-/

namespace ShiftReduce

inductive Symbol where
  | terminal (name : String)
  | intermediate (name : String)
  deriving DecidableEq, Repr, Inhabited

namespace Symbol

def name : Symbol → String
  | terminal n => n
  | intermediate n => n

def isTerminal : Symbol → Bool
  | terminal _ => true
  | intermediate _ => false

def isIntermediate : Symbol → Bool
  | terminal _ => false
  | intermediate _ => true

/-! ## Order -/

/-- Terminals come before intermediates, and symbols of one kind go by their names. -/
instance : Ord Symbol where
  compare
    | terminal a, terminal b => compare a b
    | terminal _, intermediate _ => .lt
    | intermediate _, terminal _ => .gt
    | intermediate a, intermediate b => compare a b

theorem compare_eq :
    (compare : Symbol → Symbol → Ordering) =
      compareLex (compareOn isIntermediate) (compareOn name) := by
  funext a b
  cases a <;> cases b <;> rfl

instance : Std.TransOrd Symbol := by
  rw [Std.TransOrd, compare_eq]
  infer_instance

instance : Std.LawfulEqOrd Symbol where
  compare_self := by
    intro a
    cases a <;> exact Std.ReflOrd.compare_self
  eq_of_compare := by
    intro a b h
    cases a <;> cases b
    · exact congrArg terminal (Std.LawfulEqOrd.eq_of_compare h)
    · cases h
    · cases h
    · exact congrArg intermediate (Std.LawfulEqOrd.eq_of_compare h)

def sort (symbols : List Symbol) : List Symbol :=
  symbols.mergeSort fun a b => (compare a b).isLE

/-! ## Text -/

/-- The names of symbols, separated by `separator`. -/
def join (separator : String) (symbols : List Symbol) : String :=
  separator.intercalate (symbols.map name)

end Symbol

end ShiftReduce
