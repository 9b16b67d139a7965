import ShiftReduce.Text.Identifier
import ShiftReduce.Text.Printable
import ShiftReduce.Text.Width

/-!
# Tokens and positions

The source of a grammar is read as a list of tokens, each with the positions where it starts and
stops.
-/

namespace ShiftReduce.Source

/-! ## Positions -/

/-- What the reading of a source depends on for each character. -/
structure CharClass where
  isStart : Char → Bool
  isContinue : Char → Bool
  width : Char → Nat

namespace CharClass

def unicode : CharClass := ⟨Text.isIdentifierStart, Text.isIdentifierContinue, Text.displayWidth⟩

end CharClass

structure Position where
  line : Nat
  /-- The display width of the line so far. -/
  column : Nat
  /-- The number of bytes of the source so far. -/
  offset : Nat
  deriving DecidableEq, Repr

namespace Position

def zero : Position := ⟨0, 0, 0⟩

/-- The position behind a character. A tabulator takes four columns wherever it stands. -/
def step (cc : CharClass) (p : Position) (c : Char) : Position :=
  let offset := p.offset + c.utf8Size
  if c = '\n' then ⟨p.line + 1, 0, offset⟩
  else if c = '\t' then ⟨p.line, p.column + 4, offset⟩
  else ⟨p.line, p.column + cc.width c, offset⟩

/-- The position behind a text. -/
def after (cc : CharClass) (p : Position) (text : List Char) : Position :=
  text.foldl (step cc) p

/-- Line and column as a message shows them, counted from one. -/
def text (p : Position) : String :=
  toString (p.line + 1) ++ ":" ++ toString (p.column + 1)

end Position

/-! ## Tokens -/

inductive Token where
  /-- The sign between the left side of a rule and its alternatives. -/
  | defines
  | semicolon
  | bar
  | tokenKeyword
  | typeKeyword
  | ident (name : String)
  /-- A block in braces, with the braces. -/
  | code (text : String)
  deriving DecidableEq, Repr

namespace Token

/-- The text of the token in the source. -/
def text : Token → String
  | defines => "::="
  | semicolon => ";"
  | bar => "|"
  | tokenKeyword => "%token"
  | typeKeyword => "%type"
  | ident name => name
  | code text => text

/-- The token as messages name it. -/
def describe : Token → String
  | defines => "ColonColonEq"
  | semicolon => "Semicolon"
  | bar => "VertBar"
  | tokenKeyword => "Kw(Token)"
  | typeKeyword => "Kw(Type)"
  | ident name => "Ident(" ++ Text.quoted name ++ ")"
  | code text => "Code(" ++ Text.quoted text ++ ")"

end Token

structure Located where
  token : Token
  start : Position
  stop : Position
  deriving DecidableEq, Repr

end ShiftReduce.Source
