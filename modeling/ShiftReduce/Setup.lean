import ShiftReduce.Config
import ShiftReduce.Grammar.First
import ShiftReduce.Groups

/-!
# Setups

What a construction works from: a grammar and a configuration, and what can be computed from the
grammar once and for all.
-/

namespace ShiftReduce

structure Setup where
  grammar : Grammar
  config : Config
  first : FirstSets
  byLeft : Groups String Rule
  /-- The number of cores that items of the grammar can have. -/
  coreCount : Nat
  first_eq : first = .ofGrammar grammar
  byLeft_eq : byLeft = .ofList (fun r => some r.left) grammar.rules
  coreCount_eq : coreCount = Grammar.dotCount grammar.rules

namespace Setup

def new (g : Grammar) (config : Config) : Setup :=
  ⟨g, config, .ofGrammar g, .ofList (fun r => some r.left) g.rules,
    Grammar.dotCount g.rules, rfl, rfl, rfl⟩

def alternatives (u : Setup) (name : String) : List Rule := u.byLeft.get name

theorem alternatives_eq (u : Setup) (name : String) :
    u.alternatives name = u.grammar.alternatives name := by
  simp [alternatives, u.byLeft_eq, Groups.get_ofList, Grammar.alternatives]

/-- The draft of the start state. -/
def start (u : Setup) (method : Method) : Except BuildError State := do
  .ok (State.start method (← u.grammar.startRule) u.config.endOfInput)

end Setup

end ShiftReduce
