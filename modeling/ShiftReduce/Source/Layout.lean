import ShiftReduce.Source.Lexer

/-!
# Layouts

How a list of tokens can be written: which texts identifiers and blocks have, and what stands
between two tokens.
-/

namespace ShiftReduce.Source

/-! ## Texts of tokens -/

/-- A first letter and letters that go on with an identifier. -/
def IsIdentifier (cc : CharClass) : List Char → Prop
  | [] => False
  | c :: run => cc.isStart c = true ∧ run.all cc.isContinue = true

/-- In every proper beginning more braces open than close, and in the whole as many. -/
structure IsBraced (text : List Char) : Prop where
  opens : text.head? = some '\x7b'
  balanced : text.count '\x7b' = text.count '\x7d'
  inside : ∀ n < text.length, 0 < n → (text.take n).count '\x7d' < (text.take n).count '\x7b'

/-- The token has a text that can be written. -/
def Token.Writable (cc : CharClass) : Token → Prop
  | ident name => IsIdentifier cc name.toList
  | code text => IsBraced text.toList
  | _ => True

instance (cc : CharClass) (cs : List Char) : Decidable (IsIdentifier cc cs) :=
  match cs with
  | [] => inferInstanceAs (Decidable False)
  | _ :: _ => inferInstanceAs (Decidable (_ ∧ _))

instance (text : List Char) : Decidable (IsBraced text) :=
  decidable_of_iff
    (text.head? = some '\x7b' ∧ text.count '\x7b' = text.count '\x7d' ∧
      ∀ n < text.length, 0 < n → (text.take n).count '\x7d' < (text.take n).count '\x7b')
    ⟨fun h => ⟨h.1, h.2.1, h.2.2⟩, fun h => ⟨h.opens, h.balanced, h.inside⟩⟩

instance (cc : CharClass) (t : Token) : Decidable (t.Writable cc) :=
  match t with
  | .ident name => inferInstanceAs (Decidable (IsIdentifier cc name.toList))
  | .code text => inferInstanceAs (Decidable (IsBraced text.toList))
  | .defines | .semicolon | .bar | .tokenKeyword | .typeKeyword =>
    inferInstanceAs (Decidable True)

/-! ## What stands between tokens -/

/-- Blanks, and comments behind them, each with the line feed that closes it. -/
structure Separator where
  blanks : List Char
  comments : List (List Char)
  nonempty : blanks ≠ []
  blank : blanks.all isSpace = true
  line : comments.all (·.all (!isLineEnd ·)) = true

def Separator.text (s : Separator) : List Char :=
  s.blanks ++ s.comments.flatMap fun text => '/' :: '/' :: text ++ ['\n']

/-- How a list of tokens is written: with a separator behind each token, which the last one may do
without. A separator may also stand in front. -/
structure Layout where
  lead : Option Separator
  words : List (Token × Separator)
  last : Option Token

namespace Layout

def tokens (l : Layout) : List Token := l.words.map Prod.fst ++ l.last.toList

def text (l : Layout) : List Char :=
  l.lead.elim [] Separator.text ++ (l.words.flatMap fun w => w.1.text.toList ++ w.2.text) ++
    l.last.elim [] fun t => t.text.toList

end Layout

end ShiftReduce.Source
