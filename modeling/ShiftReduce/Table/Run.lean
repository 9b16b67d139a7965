import ShiftReduce.Table.Basic

/-!
# Runs

How a table is used to parse. A run keeps a stack of states, whose bottom is the start state, and
the terminals that are still to be read. `Steps t a b` says that the run `a` of the table `t`
becomes `b` in zero or more steps.
-/

namespace ShiftReduce

structure Run where
  /-- The newest state is the first. -/
  stack : List StateId
  /-- What is left to read, with the end of input as the last one. -/
  input : List String
  /-- The terminals that have been shifted. -/
  shifted : List String
  /-- The rules that have been reduced. -/
  reduced : List RuleId
  deriving DecidableEq, Repr

namespace Run

/-- What a step makes of a run. -/
inductive Result where
  | next (r : Run)
  | accepted
  | rejected
  /-- The whole input has been read, and the parse is not complete. -/
  | exhausted
  /-- The table refers to something that does not exist. -/
  | stuck
  deriving DecidableEq, Repr

/-- The run on an input before its first step. -/
def start (t : Table) (input : List String) : Run :=
  ⟨[Table.startState], input ++ [t.config.endOfInput], [], []⟩

/-- Takes a whole right side off the stack and goes on after the left side. -/
def reduce (t : Table) (r : Run) (id : RuleId) : Result :=
  match t.grammar.rule id with
  | .error _ => .stuck
  | .ok rule =>
    match r.stack.drop rule.right.length with
    | [] => .stuck
    | below :: rest =>
      match t.goto? below rule.left with
      | .ok (some target) =>
        .next { r with stack := target :: below :: rest, reduced := r.reduced ++ [id] }
      | _ => .stuck

def step (t : Table) (r : Run) : Result :=
  match r.stack, r.input with
  | [], _ => .stuck
  | _, [] => .exhausted
  | top :: _, a :: rest =>
    match t.action top a with
    | .error _ => .stuck
    | .ok (.shift target) =>
      .next { r with stack := target :: r.stack, input := rest, shifted := r.shifted ++ [a] }
    | .ok (.reduce id) => r.reduce t id
    | .ok .accept => .accepted
    | .ok .error => .rejected

inductive Steps (t : Table) : Run → Run → Prop where
  | refl (a : Run) : Steps t a a
  | step {a b c : Run} (h : a.step t = .next b) (hs : Steps t b c) : Steps t a c

theorem Steps.trans {t : Table} {a b c : Run} (h1 : Steps t a b) (h2 : Steps t b c) :
    Steps t a c := by
  induction h1 with
  | refl => exact h2
  | step h _ ih => exact .step h (ih h2)

/-- Runs for at most `bound` steps. -/
def iterate (t : Table) : Nat → Run → Run × Result
  | 0, r => (r, .next r)
  | bound + 1, r =>
    match r.step t with
    | .next s => iterate t bound s
    | outcome => (r, outcome)

end Run

namespace Table

/-- The state reached from `id` along recorded successors. -/
def follow? (t : Table) : StateId → List Symbol → Option StateId
  | id, [] => some id
  | id, x :: rest => do
    let s ← t.states[id]?
    let target ← s.successor? x
    t.follow? target rest

end Table

end ShiftReduce
