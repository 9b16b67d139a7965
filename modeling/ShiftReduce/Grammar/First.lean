import ShiftReduce.Family
import ShiftReduce.Grammar.Basic
import ShiftReduce.Settle

/-!
# FIRST sets

The FIRST set of a string of symbols holds the terminals that can begin what the string derives;
a string is nullable if it derives the empty one. Both are least fixed points of passes over the
rules, and each pass only adds members.
-/

namespace ShiftReduce

structure FirstSets where
  /-- The nullable intermediates. -/
  nullable : OrderedSet String
  /-- The FIRST sets of the intermediates. -/
  sets : Family String Symbol
  deriving DecidableEq, Repr

namespace FirstSets

/-! ## Nullable intermediates -/

def nullableSymbol (nulls : OrderedSet String) : Symbol → Bool
  | .terminal _ => false
  | .intermediate name => name ∈ nulls

/-- Adds the left side of a rule whose right side is nullable. -/
def addNullable (nulls : OrderedSet String) (r : Rule) : OrderedSet String :=
  if r.right.all (nullableSymbol nulls) then nulls.insert r.left else nulls

def nullablePass (rules : List Rule) (nulls : OrderedSet String) : OrderedSet String :=
  rules.foldl addNullable nulls

/-- Every pass but the last adds a left side. -/
def nullableOf (rules : List Rule) : OrderedSet String :=
  settle (nullablePass rules) rules.length ∅

/-! ## FIRST sets of the intermediates -/

/-- The FIRST set of `superset` includes the FIRST set of the symbol `subset`. -/
structure Inclusion where
  superset : String
  subset : Symbol
  deriving DecidableEq, Repr

/-- The symbols of a right side up to the first one that is not nullable. -/
def leading (nulls : OrderedSet String) : List Symbol → List Symbol
  | [] => []
  | x :: rest => if nullableSymbol nulls x then x :: leading nulls rest else [x]

/-- What a rule says about the FIRST set of its left side. That a set includes itself is left
out. -/
def inclusionsOf (nulls : OrderedSet String) (r : Rule) : List Inclusion :=
  ((leading nulls r.right).filter (· ≠ .intermediate r.left)).map (Inclusion.mk r.left)

/-- The FIRST set of one symbol. -/
def firstOfSymbol (sets : Family String Symbol) : Symbol → OrderedSet Symbol
  | .terminal name => .ofList [.terminal name]
  | .intermediate name => sets.get name

/-- Adds what an inclusion asks for, as far as the sets show it. -/
def impose (sets : Family String Symbol) (i : Inclusion) : Family String Symbol :=
  sets.extend i.superset (firstOfSymbol sets i.subset)

def inclusionPass (inclusions : List Inclusion) (sets : Family String Symbol) :
    Family String Symbol :=
  inclusions.foldl impose sets

/-- Every pass but the first and the last adds a terminal of a right side to the set of a left
side. -/
def passBound (rules : List Rule) : Nat :=
  rules.length * Grammar.dotCount rules

def ofGrammar (g : Grammar) : FirstSets :=
  let rules := g.rules
  let nulls := nullableOf rules
  let inclusions := rules.flatMap (inclusionsOf nulls)
  ⟨nulls, settle (inclusionPass inclusions) (passBound rules + 1) ∅⟩

/-! ## Strings of symbols -/

/-- Whether a string of symbols derives the empty one. -/
def isNullable (f : FirstSets) (symbols : List Symbol) : Bool :=
  symbols.all (nullableSymbol f.nullable)

/-- Adds to `found` the terminals that begin a string of symbols, and those of `lookaheads` if
the string is nullable. -/
def collect (f : FirstSets) (found lookaheads : OrderedSet Symbol) :
    List Symbol → OrderedSet Symbol
  | [] => found.union lookaheads
  | .terminal name :: _ => found.insert (.terminal name)
  | .intermediate name :: rest =>
    let found := found.union (f.sets.get name)
    if name ∈ f.nullable then f.collect found lookaheads rest else found

/-- The terminals that begin a string of symbols which is followed by one of `lookaheads`. -/
def firstWith (f : FirstSets) (symbols : List Symbol) (lookaheads : OrderedSet Symbol) :
    OrderedSet Symbol :=
  f.collect ∅ lookaheads symbols

/-- The FIRST set of a string of symbols. -/
def first (f : FirstSets) (symbols : List Symbol) : OrderedSet Symbol :=
  f.firstWith symbols ∅

end FirstSets

/-- The FIRST set of a string of symbols in a grammar. -/
def Grammar.first (g : Grammar) (symbols : List Symbol) : OrderedSet Symbol :=
  (FirstSets.ofGrammar g).first symbols

end ShiftReduce
