import ShiftReduce.Grammar.First
import ShiftReduce.State.Basic
import ShiftReduce.Turns

/-!
# States changed in place

A roster is a state as it is kept while calls change it in place: a table of entries, each under a
core. Nothing in its form says that an entry stands under its own core, that a core stands there
once, or that a dot is within its rule. A call outside its contract is broken off, and leaves the
roster as it is at that moment.
-/

namespace ShiftReduce

/-! ## Entries -/

structure Entry where
  rule : Rule
  dot : Nat
  lookaheads : OrderedSet Symbol
  next : Option StateId
  deriving DecidableEq, Repr

namespace Entry

def new (r : Rule) (dot : Nat) (lookaheads : OrderedSet Symbol) : Except Fault Entry :=
  if dot ≤ r.right.length then .ok ⟨r, dot, lookaheads, none⟩ else .error .dotOutOfRule

def core (e : Entry) : Core := ⟨e.rule.id, e.dot⟩

def nextSymbol? (e : Entry) : Option Symbol := e.rule.right[e.dot]?

def rest (e : Entry) : List Symbol := e.rule.right.drop (e.dot + 1)

/-- The entry with its dot behind the next symbol, unless the dot is at the end. -/
def advance (e : Entry) : Except Fault (Option Entry) :=
  if e.dot = e.rule.right.length then .ok none else some <$> new e.rule (e.dot + 1) e.lookaheads

/-- Inserts lookaheads one after another, and answers whether one of them is new. -/
def unite (e : Entry) (la : List Symbol) : Entry × Bool :=
  la.foldl
    (fun p x =>
      ({ p.1 with lookaheads := p.1.lookaheads.insert x }, p.2 || decide (x ∉ p.1.lookaheads)))
    (e, false)

end Entry

structure Roster where
  method : Method
  number : Option StateId
  entries : List (Core × Entry)
  closed : Bool
  deriving DecidableEq, Repr

/-- A computation on a roster. What it has done to the roster when it is broken off remains. -/
abbrev InPlace := ExceptT Fault (StateM Roster)

namespace Roster

def run {α : Type} (r : Roster) (x : InPlace α) : Except Fault α × Roster :=
  (StateT.run (ExceptT.run x) r).run

def draft (method : Method) : Roster := ⟨method, none, [], false⟩

def keys (r : Roster) : List Core := r.entries.map Prod.fst

def get? (r : Roster) (c : Core) : Option Entry := r.entries.lookup c

def replace (r : Roster) (c : Core) (e : Entry) : Roster :=
  { r with entries := r.entries.map fun p => if p.1 = c then (c, e) else p }

/-! ## Adding -/

/-- Adds an entry behind the others, or unites the lookaheads with those of the entry that stands
under its core. Answers whether anything changed. -/
def addItem (q : Rule) (dot : Nat) (la : OrderedSet Symbol) : InPlace Bool := do
  let r ← get
  let key : Core := ⟨q.id, dot⟩
  match r.get? key with
  | some e =>
    if r.method = .lr0 then return false
    let (united, grew) := e.unite la.toList
    set (r.replace key united)
    return grew
  | none =>
    if r.closed then throw .closedState
    let e ← Entry.new q dot (State.carried r.method la)
    set { r with entries := r.entries ++ [(key, e)] }
    return true

/-- Adds the rules with nothing read, and answers whether anything changed. -/
def addAll (rules : List Rule) (la : OrderedSet Symbol) : InPlace Bool :=
  rules.foldlM
    (fun changed q => do
      let grew ← addItem q 0 la
      return changed || grew)
    false

/-- The draft from which the construction starts. -/
def start (method : Method) (g : Grammar) (endOfInput : Symbol) : Except BuildError Roster := do
  let q ← g.startRule
  match (draft method).run (addItem q 0 (.ofList [endOfInput])) with
  | (.ok _, r) => .ok r
  | (.error f, _) => .error (.fault f)

/-! ## Merging -/

def mergeable (r t : Roster) : Bool :=
  r.method = t.method && r.entries.length == t.entries.length &&
    (r.entries.zip t.entries).all fun (p, q) =>
      p.2.core = q.2.core && (r.method ≠ .lr1 || p.2.lookaheads.sameMembers q.2.lookaheads)

/-- Unites the lookaheads of the entries pair by pair, and answers whether one of them is new. -/
def absorb : List (Core × Entry) → List (Core × Entry) → List (Core × Entry) × Bool
  | (c, e) :: l, (_, d) :: m =>
    let (united, grew) := e.unite d.lookaheads.toList
    let (rest, more) := absorb l m
    ((c, united) :: rest, grew || more)
  | l, _ => (l, false)

/-- Answers whether a set of lookaheads grew. -/
def merge (t : Roster) : InPlace Bool := do
  let r ← get
  if r.mergeable t then
    let (entries, grew) := absorb r.entries t.entries
    set { r with entries }
    return grew
  else throw .unrelatedStates

/-! ## Successors -/

/-- Puts an entry behind the others that have read the same symbol. -/
def enqueue (x : Symbol) (e : Entry) : List (Symbol × List Entry) → List (Symbol × List Entry)
  | [] => [(x, [e])]
  | (y, l) :: kernels => if y = x then (y, l ++ [e]) :: kernels else (y, l) :: enqueue x e kernels

/-- The entries that wait for each symbol, moved over it. -/
def kernels (r : Roster) : Except Fault (List (Symbol × List Entry)) :=
  r.entries.foldlM
    (fun kernels p => do
      match p.2.nextSymbol?, ← p.2.advance with
      | some x, some e => .ok (enqueue x e kernels)
      | _, _ => .ok kernels)
    []

/-- The draft whose entries are those of a kernel in the order of their cores. -/
def ofKernel (method : Method) (kernel : List Entry) : Except Fault Roster :=
  let sorted := kernel.mergeSort fun d e => (compare d.core e.core).isLE
  match (draft method).run (forM sorted fun e => discard (addItem e.rule e.dot e.lookaheads)) with
  | (.ok _, r) => .ok r
  | (.error f, _) => .error f

/-- The draft behind each symbol. -/
def successors (r : Roster) : Except Fault (List (Symbol × Roster)) := do
  (← r.kernels).mapM fun (x, kernel) => return (x, ← ofKernel r.method kernel)

/-- Records `target` as the state behind `x`. -/
def assign (r : Roster) (x : Symbol) (target : StateId) : Roster :=
  { r with entries := r.entries.map fun p =>
      if p.2.nextSymbol? = some x then (p.1, { p.2 with next := some target }) else p }

end Roster

/-! ## Closing -/

/-- A closing under way: the roster so far, the place of the next entry, and whether this sweep has
changed anything. -/
structure Round where
  roster : Roster
  place : Nat
  changed : Bool
  /-- In LR(0), the names whose alternatives have been added. -/
  seen : OrderedSet String

namespace Round

/-- The lookaheads of the alternatives that an entry waits for. -/
def offer (f : FirstSets) (w : Round) (e : Entry) : OrderedSet Symbol :=
  if w.roster.method = .lr0 then ∅ else f.firstWith e.rest e.lookaheads

def see (w : Round) (name : String) : OrderedSet String :=
  if w.roster.method = .lr0 then w.seen.insert name else w.seen

/-- Adds the alternatives of what the entry at the place waits for. There is nothing to do at the
end of the table. -/
def advance (g : Grammar) (f : FirstSets) (w : Round) : Except Fault (Option Round) :=
  match w.roster.entries[w.place]? with
  | none => .ok none
  | some (_, e) =>
    match e.nextSymbol? with
    | some (.intermediate name) =>
      if name ∈ w.seen then .ok (some { w with place := w.place + 1 })
      else
        match w.roster.run (Roster.addAll (g.alternatives name) (w.offer f e)) with
        | (.ok grew, r) => .ok (some ⟨r, w.place + 1, w.changed || grew, w.see name⟩)
        | (.error e, _) => .error e
    | _ => .ok (some { w with place := w.place + 1 })

/-- At the end of the table a sweep that has changed anything is followed by another one, except in
LR(0). -/
def turn (g : Grammar) (f : FirstSets) (w : Round) : Except Fault (Option Round) := do
  match ← w.advance g f with
  | some v => .ok (some v)
  | none =>
    .ok (if w.changed ∧ w.roster.method ≠ .lr0 then some { w with place := 0, changed := false }
      else none)

end Round

namespace Roster

/-- Closing `r` ends, and leads to `t`. A closed roster is left as it is. -/
def Closes (g : Grammar) (f : FirstSets) (r t : Roster) : Prop :=
  if r.closed then t = r
  else ∃ n w, Ends (Round.turn g f) n ⟨r, 0, false, ∅⟩ w ∧ t = { w.roster with closed := true }

/-- Closing `r` is broken off. -/
def ClosingFails (g : Grammar) (f : FirstSets) (r : Roster) (e : Fault) : Prop :=
  r.closed = false ∧
    ∃ n w, Turns (Round.turn g f) n ⟨r, 0, false, ∅⟩ w ∧ Round.turn g f w = .error e

end Roster

end ShiftReduce
