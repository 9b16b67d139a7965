import ShiftReduce.Source.Lexer
import ShiftReduce.Source.Statement

/-!
# Reading statements

The tokens of a source are read one by one. The reader keeps the statements that are complete and
the part of the current one that it has seen; the first token that cannot come next is an error.
-/

namespace ShiftReduce.Source

/-- What has to come next. -/
inductive Expected where
  | statement
  | identifier
  | semicolon
  | bracedType
  | defines
  | barOrSemicolon
  deriving DecidableEq, Repr

namespace Expected

def text : Expected → String
  | statement => "a statement"
  | identifier => "an identifier"
  | semicolon => "`;'"
  | bracedType => "a braced type"
  | defines => "`::='"
  | barOrSemicolon => "`|' or `;'"

end Expected

inductive SourceError where
  /-- No token begins at the position. -/
  | invalidToken (position : Position)
  /-- Another token, or the end of the source, stands where something is expected. -/
  | unexpected (expected : Expected) (found : Option Located)
  deriving DecidableEq, Repr

namespace SourceError

def message : SourceError → String
  | invalidToken p => p.text ++ ": invalid token (InvalidToken)"
  | unexpected e (some l) =>
    l.start.text ++ ": expected " ++ e.text ++ ", found " ++ l.token.describe
  | unexpected e none => "expected " ++ e.text ++ ", found end of input"

end SourceError

/-- The part of the current statement that has been read. Lists are kept backwards. -/
inductive Progress where
  | idle
  | terminals (names : List String)
  | type
  | typeName (name : String) (found : Located)
  | typeCode (name code : String)
  | ruleName (left : String)
  | ruleSymbols (left : String) (alternatives : List Alternative) (symbols : List String)
  | ruleAction (left : String) (alternatives : List Alternative) (last : Alternative)
  deriving DecidableEq, Repr

structure Reader where
  /-- The complete statements, the last one first. -/
  statements : List Statement
  progress : Progress
  deriving DecidableEq, Repr

namespace Reader

def initial : Reader := ⟨[], .idle⟩

/-- Completes the current statement. -/
def complete (r : Reader) (s : Statement) : Reader := ⟨s :: r.statements, .idle⟩

/-- Completes a rule whose alternatives before the last one are given backwards. -/
def completeRules (r : Reader) (left : String) (alternatives : List Alternative)
    (last : Alternative) : Reader :=
  match alternatives.reverse with
  | [] => r.complete (.rules left last [])
  | first :: others => r.complete (.rules left first (others ++ [last]))

def step (r : Reader) (l : Located) : Except SourceError Reader :=
  let goOn (p : Progress) : Except SourceError Reader := .ok { r with progress := p }
  let fail (e : Expected) : Except SourceError Reader := .error (.unexpected e (some l))
  match r.progress, l.token with
  | .idle, .tokenKeyword => goOn (.terminals [])
  | .idle, .typeKeyword => goOn .type
  | .idle, .ident name => goOn (.ruleName name)
  | .idle, _ => fail .statement
  | .terminals names, .ident name => goOn (.terminals (name :: names))
  | .terminals names, .semicolon => .ok (r.complete (.terminals names.reverse))
  | .terminals _, _ => fail .semicolon
  | .type, .ident name => goOn (.typeName name l)
  | .type, _ => fail .identifier
  | .typeName name _, .code code => goOn (.typeCode name code)
  | .typeName _ _, _ => fail .bracedType
  | .typeCode name code, .semicolon => .ok (r.complete (.type name code))
  | .typeCode _ _, _ => fail .semicolon
  | .ruleName left, .defines => goOn (.ruleSymbols left [] [])
  | .ruleName _, _ => fail .defines
  | .ruleSymbols left done symbols, .ident name => goOn (.ruleSymbols left done (name :: symbols))
  | .ruleSymbols left done symbols, .code code =>
    goOn (.ruleAction left done ⟨symbols.reverse, code⟩)
  | .ruleSymbols left done symbols, .bar =>
    goOn (.ruleSymbols left (⟨symbols.reverse, ""⟩ :: done) [])
  | .ruleSymbols left done symbols, .semicolon =>
    .ok (r.completeRules left done ⟨symbols.reverse, ""⟩)
  | .ruleSymbols _ _ _, _ => fail .barOrSemicolon
  | .ruleAction left done last, .bar => goOn (.ruleSymbols left (last :: done) [])
  | .ruleAction left done last, .semicolon => .ok (r.completeRules left done last)
  | .ruleAction _ _ _, _ => fail .barOrSemicolon

/-- The statements at the end of the source. A type declaration that ends behind the name is
reported at the name. -/
def finish (r : Reader) : Except SourceError (List Statement) :=
  match r.progress with
  | .idle => .ok r.statements.reverse
  | .terminals _ => .error (.unexpected .semicolon none)
  | .type => .error (.unexpected .identifier none)
  | .typeName _ found => .error (.unexpected .bracedType (some found))
  | .typeCode _ _ => .error (.unexpected .semicolon none)
  | .ruleName _ => .error (.unexpected .defines none)
  | .ruleSymbols _ _ _ => .error (.unexpected .barOrSemicolon none)
  | .ruleAction _ _ _ => .error (.unexpected .barOrSemicolon none)

end Reader

/-- The statements that a list of tokens consists of. -/
def readStatements (tokens : List Located) : Except SourceError (List Statement) := do
  (← tokens.foldlM Reader.step Reader.initial).finish

/-- The statements of a source. Tokens are looked at first, so one that is not valid is reported
before a statement that is not. -/
def parse (cc : CharClass) (source : String) : Except SourceError (List Statement) :=
  let lexed := lex cc source
  match lexed.stopped with
  | some p => .error (.invalidToken p)
  | none => readStatements lexed.tokens

end ShiftReduce.Source
