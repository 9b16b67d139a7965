import ShiftReduce.Grammar.Basic

/-!
# Items

An item is a rule with a dot that marks how much of it has been read, the lookaheads that may
follow the rule, and the state that reading the symbol behind the dot leads to.
-/

namespace ShiftReduce

abbrev StateId := Nat

namespace StateId

/-- A state number with at least three digits. -/
def label (id : StateId) : String :=
  let digits := (Nat.toDigits 10 id)
  .ofList ('S' :: '#' :: (List.replicate (3 - digits.length) '0' ++ digits))

end StateId

/-- What remains of an item without its lookaheads. -/
structure Core where
  rule : RuleId
  dot : Nat
  deriving DecidableEq, Repr

namespace Core

/-- Cores go by the rule and then by the dot. -/
instance : Ord Core := ⟨compareLex (compareOn rule) (compareOn dot)⟩

instance : Std.TransOrd Core :=
  inferInstanceAs (Std.TransCmp (compareLex (compareOn rule) (compareOn dot)))

instance : Std.LawfulEqOrd Core where
  compare_self := Std.ReflOrd.compare_self
  eq_of_compare := by
    rintro ⟨a, b⟩ ⟨c, d⟩ h
    obtain ⟨h1, h2⟩ := Ordering.then_eq_eq.mp h
    obtain rfl : a = c := Std.LawfulEqOrd.eq_of_compare h1
    obtain rfl : b = d := Std.LawfulEqOrd.eq_of_compare h2
    rfl

end Core

inductive ItemKind where
  /-- A symbol follows the dot. -/
  | shift
  /-- The dot is at the end of the rule. -/
  | reduce
  deriving DecidableEq, Repr

structure Item where
  rule : Rule
  dot : Nat
  lookaheads : OrderedSet Symbol
  /-- The state behind the next symbol, once it is known. -/
  next : Option StateId
  dot_le : dot ≤ rule.right.length
  deriving DecidableEq, Repr

namespace Item

/-- The item of a rule of which nothing has been read. -/
def ofRule (r : Rule) (lookaheads : OrderedSet Symbol) : Item :=
  ⟨r, 0, lookaheads, none, Nat.zero_le _⟩

def new (r : Rule) (dot : Nat) (lookaheads : OrderedSet Symbol) : Except Fault Item :=
  if h : dot ≤ r.right.length then .ok ⟨r, dot, lookaheads, none, h⟩ else .error .dotOutOfRule

def core (i : Item) : Core := ⟨i.rule.id, i.dot⟩

def atEnd (i : Item) : Bool := i.dot == i.rule.right.length

def kind (i : Item) : ItemKind := if i.atEnd then .reduce else .shift

/-- Whether the item completes rule 1. -/
def accepting (i : Item) : Bool := i.rule.isStart && i.atEnd

/-- Whether the item completes a rule that can be reduced. -/
def reducing (i : Item) : Bool := i.atEnd && !i.rule.isStart

/-- The symbols before the dot. -/
def before (i : Item) : List Symbol := i.rule.right.take i.dot

/-- The symbols behind the dot. -/
def after (i : Item) : List Symbol := i.rule.right.drop i.dot

/-- The symbol behind the dot. -/
def nextSymbol? (i : Item) : Option Symbol := i.after.head?

/-- What follows the symbol behind the dot. -/
def rest (i : Item) : List Symbol := i.after.tail

/-- The item with its dot behind the next symbol. -/
def advance? (i : Item) : Option Item :=
  if h : i.dot < i.rule.right.length then some ⟨i.rule, i.dot + 1, i.lookaheads, none, h⟩
  else none

/-- The item with more lookaheads. -/
def unite (i : Item) (lookaheads : OrderedSet Symbol) : Item :=
  { i with lookaheads := i.lookaheads.union lookaheads }

theorem unite_unite (i : Item) (a b : OrderedSet Symbol) :
    (i.unite a).unite b = i.unite (a.union b) := by
  simp [unite, OrderedSet.union_assoc]

/-- The item in the form `E ::= E • ADD B, EOI/ADD`. -/
def text (i : Item) : String :=
  let words := i.before.map Symbol.name ++ "•" :: i.after.map Symbol.name
  let dotted := String.join ((i.rule.left ++ " ::=") :: words.map (" " ++ ·))
  match i.lookaheads.toList with
  | [] => dotted
  | la => dotted ++ ", " ++ Symbol.join "/" la

@[simp] theorem core_unite (i : Item) (la : OrderedSet Symbol) : (i.unite la).core = i.core := rfl

theorem after_eq_cons {i : Item} {x : Symbol} (h : i.nextSymbol? = some x) :
    i.after = x :: i.rest := by
  unfold nextSymbol? at h
  unfold rest
  cases ha : i.after with
  | nil => simp [ha] at h
  | cons y l => simp_all

end Item

end ShiftReduce
