import ShiftReduce.Source.Token

/-!
# Statements

The source of a grammar is a list of statements. Each one declares terminals, or the type of an
intermediate, or rules with the same left side. `Statement.tokens` writes it down.
-/

namespace ShiftReduce.Source

/-- One right side of a rule. -/
structure Alternative where
  symbols : List String
  /-- The block behind the symbols, with its braces, or nothing. -/
  action : String
  deriving DecidableEq, Repr

inductive Statement where
  | terminals (names : List String)
  | type (name code : String)
  | rules (left : String) (first : Alternative) (others : List Alternative)
  deriving DecidableEq, Repr

namespace Alternative

def tokens (a : Alternative) : List Token :=
  a.symbols.map .ident ++ if a.action = "" then [] else [.code a.action]

end Alternative

namespace Statement

def tokens : Statement → List Token
  | terminals names => .tokenKeyword :: names.map .ident ++ [.semicolon]
  | type name code => [.typeKeyword, .ident name, .code code, .semicolon]
  | rules left first others =>
    .ident left :: .defines :: first.tokens ++
      others.flatMap (fun a => .bar :: a.tokens) ++ [.semicolon]

/-- The alternatives of a rule statement. -/
def alternatives : Statement → List (String × Alternative)
  | rules left first others => (first :: others).map (left, ·)
  | _ => []

end Statement

end ShiftReduce.Source
