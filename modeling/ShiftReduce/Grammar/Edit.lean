import ShiftReduce.Grammar.Basic

/-!
# Edits

An edit is one step in the building of a grammar. A grammar that can come about is the result of
a list of edits on the empty grammar.
-/

namespace ShiftReduce

inductive Edit where
  | addTerminal (name : String)
  | addIntermediate (name : String)
  | setType (name type : String)
  | addRule (p : Production)
  deriving DecidableEq, Repr

namespace Edit

/-- Makes an edit. An edit that ends in a fault keeps what it did before the fault. -/
def apply (g : Grammar) : Edit → Grammar
  | addTerminal name => g.addTerminal name
  | addIntermediate name => g.addIntermediate name
  | setType name type => g.setType name type
  | addRule p => (g.addRule p).1

end Edit

namespace Grammar

/-- The result of a list of edits on the empty grammar. -/
def ofEdits (edits : List Edit) : Grammar :=
  edits.foldl Edit.apply empty

end Grammar

end ShiftReduce
