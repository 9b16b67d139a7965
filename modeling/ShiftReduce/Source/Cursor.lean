import ShiftReduce.Source.Reader

/-!
# Reading with a cursor

Here the statements of a source are read by a cursor, a place in the list of tokens. It goes forward
token by token, and one step back where the token that it has passed is not the expected one. The
open braces of a block are counted while it is read. A place and a count are numbers from 0 up to
`limit`, and a step out of this range stops the reading.
-/

namespace ShiftReduce.Source

/-- Why reading stops without a result. -/
inductive Halt where
  | source (e : SourceError)
  /-- A number was to leave its range. -/
  | outOfRange
  /-- A loop was cut off at its bound before it had come to its end. -/
  | unsettled
  deriving DecidableEq, Repr

def countUp (limit n : Nat) : Except Halt Nat :=
  if n < limit then .ok (n + 1) else .error .outOfRange

def countDown : Nat → Except Halt Nat
  | 0 => .error .outOfRange
  | n + 1 => .ok n

/-! ## Counting braces -/

/-- The text up to the brace that closes the last of `depth` open ones. -/
def countedBlock (limit : Nat) : Nat → List Char → Except Halt (Option (List Char))
  | _, [] => .ok none
  | depth, c :: rest =>
    if c = '\x7b' then do
      .ok ((← countedBlock limit (← countUp limit depth) rest).map (c :: ·))
    else if c = '\x7d' then do
      let depth ← countDown depth
      if depth = 0 then .ok (some [c])
      else .ok ((← countedBlock limit depth rest).map (c :: ·))
    else do .ok ((← countedBlock limit depth rest).map (c :: ·))

/-- The first piece of a source. The brace that opens a block is the first one to be counted. -/
def countedPiece? (cc : CharClass) (limit : Nat) (cs : List Char) : Except Halt (Option Piece) :=
  match opening? cc cs with
  | some .block => do
    .ok ((← countedBlock limit 1 cs.tail).map fun rest =>
      ⟨'\x7b' :: rest, some (.code (.ofList ('\x7b' :: rest)))⟩)
  | _ => .ok (piece? cc cs)

def countedLexFrom (cc : CharClass) (limit : Nat) (p : Position) :
    List Char → Except Halt Lexed
  | [] => .ok ⟨[], none⟩
  | c :: rest => do
    match ← countedPiece? cc limit (c :: rest) with
    | none => .ok ⟨[], some p⟩
    | some piece =>
      let stop := p.after cc piece.text
      let lexed ← countedLexFrom cc limit stop (rest.drop (piece.text.length - 1))
      match piece.token with
      | none => .ok lexed
      | some t => .ok { lexed with tokens := ⟨t, p, stop⟩ :: lexed.tokens }
termination_by cs => cs.length
decreasing_by simp only [List.length_drop, List.length_cons]; omega

/-! ## Going from token to token -/

namespace Cursor

variable (limit : Nat) (tokens : List Located)

def peek (place : Nat) : Option Token := tokens[place]?.map Located.token

/-- What stands at the place is not what is expected there. -/
def unexpected (place : Nat) (e : Expected) : Halt := .source (.unexpected e tokens[place]?)

/-- Passes the token at the place, if there is one. -/
def bump (place : Nat) : Except Halt (Option Token × Nat) :=
  match peek tokens place with
  | none => .ok (none, place)
  | some t => do .ok (some t, ← countUp limit place)

def expect (t : Token) (e : Expected) (place : Nat) : Except Halt Nat :=
  if peek tokens place = some t then countUp limit place
  else .error (unexpected tokens place e)

def identifier (place : Nat) : Except Halt (String × Nat) :=
  match peek tokens place with
  | some (.ident name) => do .ok (name, ← countUp limit place)
  | _ => .error (unexpected tokens place .identifier)

/-- Passes the names at the place, and puts them behind `names`. -/
def nameList : Nat → List String → Nat → Except Halt (List String × Nat)
  | 0, _, _ => .error .unsettled
  | bound + 1, names, place =>
    match peek tokens place with
    | some (.ident name) => do nameList bound (names ++ [name]) (← countUp limit place)
    | _ => .ok (names, place)

/-- The loops pass at least one token in each turn. -/
def turns : Nat := tokens.length + 1

/-! ## Statements -/

def tokenStatement (place : Nat) : Except Halt (Statement × Nat) := do
  let (_, place) ← bump limit tokens place
  let (names, place) ← nameList limit tokens (turns tokens) [] place
  let place ← expect limit tokens .semicolon .semicolon place
  .ok (.terminals names, place)

/-- Passes the block of a type declaration, or steps back from what stands there instead. -/
def bracedType (place : Nat) : Except Halt (String × Nat) := do
  match ← bump limit tokens place with
  | (some (.code code), place) => .ok (code, place)
  | (_, place) =>
    let place ← countDown place
    .error (unexpected tokens place .bracedType)

def typeStatement (place : Nat) : Except Halt (Statement × Nat) := do
  let (_, place) ← bump limit tokens place
  let (name, place) ← identifier limit tokens place
  let (code, place) ← bracedType limit tokens place
  let place ← expect limit tokens .semicolon .semicolon place
  .ok (.type name code, place)

/-- Reads an alternative of which the symbols before the place are known. -/
def alternative : Nat → List String → Nat → Except Halt (Alternative × Nat)
  | 0, _, _ => .error .unsettled
  | bound + 1, symbols, place =>
    match peek tokens place with
    | some (.ident name) => do alternative bound (symbols ++ [name]) (← countUp limit place)
    | some (.code code) => do .ok (⟨symbols, code⟩, ← countUp limit place)
    | _ => .ok (⟨symbols, ""⟩, place)

/-- Passes what stands behind an alternative. A bar says that there is another one. -/
def another (place : Nat) : Except Halt (Bool × Nat) := do
  match ← bump limit tokens place with
  | (some .bar, place) => .ok (true, place)
  | (some .semicolon, place) => .ok (false, place)
  | (some _, place) =>
    let place ← countDown place
    .error (unexpected tokens place .barOrSemicolon)
  | (none, place) => .error (unexpected tokens place .barOrSemicolon)

/-- The rules whose alternatives are `done` and behind them `last`. -/
def rulesOf (left : String) (done : List Alternative) (last : Alternative) : Statement :=
  match done with
  | [] => .rules left last []
  | first :: others => .rules left first (others ++ [last])

/-- Reads alternatives up to the semicolon behind the last of them. -/
def alternatives (left : String) : Nat → List Alternative → Nat → Except Halt (Statement × Nat)
  | 0, _, _ => .error .unsettled
  | bound + 1, done, place => do
    let (last, place) ← alternative limit tokens (turns tokens) [] place
    let (more, place) ← another limit tokens place
    if more then alternatives left bound (done ++ [last]) place
    else .ok (rulesOf left done last, place)

def ruleStatement (place : Nat) : Except Halt (Statement × Nat) := do
  let (left, place) ← identifier limit tokens place
  let place ← expect limit tokens .defines .defines place
  alternatives limit tokens left (turns tokens) [] place

/-- The statement at the place, which begins with the token `t`. -/
def statement (t : Token) (place : Nat) : Except Halt (Statement × Nat) :=
  match t with
  | .tokenKeyword => tokenStatement limit tokens place
  | .typeKeyword => typeStatement limit tokens place
  | .ident _ => ruleStatement limit tokens place
  | _ => .error (unexpected tokens place .statement)

/-- Puts the statements from the place on behind those that are known. -/
def statements : Nat → List Statement → Nat → Except Halt (List Statement)
  | 0, _, _ => .error .unsettled
  | bound + 1, done, place =>
    match peek tokens place with
    | none => .ok done
    | some t => do
      let (s, place) ← statement limit tokens t place
      statements bound (done ++ [s]) place

/-- The statements of a source, read from the first token on. -/
def parse (cc : CharClass) (source : String) : Except Halt (List Statement) := do
  let lexed ← countedLexFrom cc limit .zero source.toList
  match lexed.stopped with
  | some p => .error (.source (.invalidToken p))
  | none => statements limit lexed.tokens (turns lexed.tokens) [] 0

end Cursor

end ShiftReduce.Source
