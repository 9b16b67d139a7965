import ShiftReduce.Source.Token

/-!
# Reading tokens

A source is cut into pieces from left to right: blanks and comments, which are skipped, and
tokens. Of the openings that a piece can have the longest decides, and of equally long ones the
first. A comment ends with its line, a block with the brace that closes its first one. Reading stops
where no piece begins.
-/

namespace ShiftReduce.Source

/-! ## Openings -/

/-- The ways in which a piece can begin. -/
inductive Opening where
  | blank
  | comment
  | block
  | fixed (t : Token)
  | word
  deriving DecidableEq, Repr

/-- The openings in the order of precedence. -/
def openings : List Opening :=
  [.blank, .comment, .block, .fixed .defines, .fixed .semicolon, .fixed .bar,
    .fixed .tokenKeyword, .fixed .typeKeyword, .word]

def isSpace (c : Char) : Bool := c = ' ' || c = '\t' || c = '\n' || c = '\r'

def isLineEnd (c : Char) : Bool := c = '\n' || c = '\r'

/-- The identifier that a source begins with, empty if there is none. -/
def word (cc : CharClass) : List Char → List Char
  | [] => []
  | c :: rest => if cc.isStart c then c :: rest.takeWhile cc.isContinue else []

/-- `text` if the source begins with it, and nothing otherwise. -/
def given (text : List Char) (cs : List Char) : List Char :=
  if text.isPrefixOf cs then text else []

namespace Opening

/-- The part of a source that an opening matches, empty if it does not match. -/
def extent (cc : CharClass) (cs : List Char) : Opening → List Char
  | blank => cs.takeWhile isSpace
  | comment => given ['/', '/'] cs
  | block => given ['\x7b'] cs
  | fixed t => given t.text.toList cs
  | word => Source.word cc cs

end Opening

/-- The better of two openings: the second one only if it matches more. -/
def better (cc : CharClass) (cs : List Char) (a b : Opening) : Opening :=
  if (a.extent cc cs).length < (b.extent cc cs).length then b else a

/-- The opening that decides about the first piece of a source. -/
def opening? (cc : CharClass) (cs : List Char) : Option Opening :=
  let best := openings.foldl (better cc cs) .blank
  if best.extent cc cs = [] then none else some best

/-! ## Pieces -/

/-- The text up to the brace that closes the last of `depth` open ones. -/
def block? : Nat → List Char → Option (List Char)
  | _, [] => none
  | depth, c :: rest =>
    if c = '\x7b' then (c :: ·) <$> block? (depth + 1) rest
    else if c = '\x7d' then
      if depth ≤ 1 then some [c] else (c :: ·) <$> block? (depth - 1) rest
    else (c :: ·) <$> block? depth rest

/-- The line break that a source begins with, empty if there is none: a line feed with all carriage
returns before it, or one carriage return. -/
def lineBreak (cs : List Char) : List Char :=
  let returns := cs.takeWhile (· = '\r')
  match cs.dropWhile (· = '\r') with
  | '\n' :: _ => returns ++ ['\n']
  | _ => returns.take 1

/-- A comment with the line break behind it. -/
def commentLine (cs : List Char) : List Char :=
  cs.takeWhile (!isLineEnd ·) ++ lineBreak (cs.dropWhile (!isLineEnd ·))

/-- A part of the source, with the token that it is unless it is skipped. -/
structure Piece where
  text : List Char
  token : Option Token
  deriving DecidableEq, Repr

/-- The first piece of a source. -/
def piece? (cc : CharClass) (cs : List Char) : Option Piece :=
  match opening? cc cs with
  | none => none
  | some .blank => some ⟨cs.takeWhile isSpace, none⟩
  | some .comment => some ⟨commentLine cs, none⟩
  | some .block => (block? 0 cs).map fun text => ⟨text, some (.code (.ofList text))⟩
  | some (.fixed t) => some ⟨t.text.toList, some t⟩
  | some .word => some ⟨word cc cs, some (.ident (.ofList (word cc cs)))⟩

/-! ## The whole source -/

structure Lexed where
  tokens : List Located
  /-- Where reading stopped before the end of the source. -/
  stopped : Option Position
  deriving DecidableEq, Repr

/-- Reads the source from the position `p` on, where `cs` is left. -/
def lexFrom (cc : CharClass) (p : Position) : List Char → Lexed
  | [] => ⟨[], none⟩
  | c :: rest =>
    match piece? cc (c :: rest) with
    | none => ⟨[], some p⟩
    | some piece =>
      let stop := p.after cc piece.text
      let lexed := lexFrom cc stop (rest.drop (piece.text.length - 1))
      match piece.token with
      | none => lexed
      | some t => { lexed with tokens := ⟨t, p, stop⟩ :: lexed.tokens }
termination_by cs => cs.length
decreasing_by simp only [List.length_drop, List.length_cons]; omega

def lex (cc : CharClass) (source : String) : Lexed :=
  lexFrom cc .zero source.toList

end ShiftReduce.Source
