import ShiftReduce.State.Basic

/-!
# Configurations

The choices that a construction leaves to its user.
-/

namespace ShiftReduce

structure Config where
  method : Method
  /-- The terminal that marks the end of the input. -/
  endOfInput : String
  deriving DecidableEq, Repr

namespace Config

def default : Config := ⟨.lalr1, "EOI"⟩

instance : Inhabited Config := ⟨default⟩

def withMethod (c : Config) (method : Method) : Config := { c with method }

def withEndOfInput (c : Config) (name : String) : Config := { c with endOfInput := name }

end Config

end ShiftReduce
