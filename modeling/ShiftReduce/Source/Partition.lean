import ShiftReduce.Source.Lexer

/-!
# Partitions of a source

A source consists of tokens and of gaps between them, up to its end or to the first place where
neither of them goes on. `Partition` says so of a result of reading, in terms of the bytes of the
source.
-/

namespace ShiftReduce.Source

/-! ## Tokens -/

/-- As many closing braces as opening ones. -/
def Balanced (cs : List Char) : Prop := cs.count '\x7b' = cs.count '\x7d'

/-- The shortest balanced text from an opening brace on. -/
structure IsBlock (text : List Char) : Prop where
  opens : text.head? = some '\x7b'
  balanced : Balanced text
  shortest : ∀ front, front <+: text → front ≠ [] → Balanced front → front = text

/-- An identifier that `behind` does not continue. -/
structure IsWord (cc : CharClass) (text behind : List Char) : Prop where
  letters : ∃ c run, text = c :: run ∧ cc.isStart c = true ∧ ∀ d ∈ run, cc.isContinue d = true
  maximal : ∀ d ∈ behind.head?, cc.isContinue d = false

/-- The token is complete with its text, if `behind` comes next. -/
def Token.Complete (cc : CharClass) (behind : List Char) : Token → Prop
  | ident name => IsWord cc name.toList behind
  | code text => IsBlock text.toList
  | _ => True

/-! ## Gaps -/

/-- Blanks and comments, where `behind` comes next. A comment reaches to the end of its line. -/
inductive IsGap : List Char → List Char → Prop
  | nil {behind : List Char} : IsGap [] behind
  | blank {c : Char} {gap behind : List Char} (hc : isSpace c = true) (h : IsGap gap behind) :
    IsGap (c :: gap) behind
  | comment {text gap behind : List Char} (hline : ∀ c ∈ text, isLineEnd c = false)
    (hend : ∀ c ∈ (gap ++ behind).head?, isLineEnd c = true) (h : IsGap gap behind) :
    IsGap ('/' :: '/' :: text ++ gap) behind

/-! ## Where reading stops -/

/-- Neither a blank nor a comment nor a complete token begins. -/
structure Barren (cc : CharClass) (rest : List Char) : Prop where
  blank : ∀ c ∈ rest.head?, isSpace c = false
  comment : ¬['/', '/'] <+: rest
  token : ∀ t behind, rest = t.text.toList ++ behind → ¬Token.Complete cc behind t

/-- A brace opens a block that nothing closes. -/
structure Unclosed (rest : List Char) : Prop where
  opens : rest.head? = some '\x7b'
  unbalanced : ∀ front, front <+: rest → front ≠ [] → ¬Balanced front

/-- Nothing begins, or a block does that nothing closes. What else begins with its brace can only be
an identifier. -/
structure Stuck (cc : CharClass) (rest : List Char) : Prop where
  nonempty : rest ≠ []
  nothing : Barren cc rest ∨ Unclosed rest
  barren : cc.isStart '\x7b' = false → Barren cc rest

/-! ## The whole source -/

/-- At the position `p` of a source, `rest` is left. -/
def Ahead (cc : CharClass) (source : List Char) (p : Position) (rest : List Char) : Prop :=
  ∃ before, source = before ++ rest ∧ p = Position.zero.after cc before ∧
    p.offset = (String.ofList before).utf8ByteSize

/-- The source has the token where the token says, and there it is complete. -/
def Located.Present (cc : CharClass) (source : List Char) (l : Located) : Prop :=
  ∃ behind, Ahead cc source l.start (l.token.text.toList ++ behind) ∧
    Ahead cc source l.stop behind ∧ l.token.Complete cc behind

/-- The source has only blanks and comments between the positions. -/
def Vacant (cc : CharClass) (source : List Char) (p q : Position) : Prop :=
  ∃ gap behind, Ahead cc source p (gap ++ behind) ∧ Ahead cc source q behind ∧ IsGap gap behind

/-- The places between the tokens, each with its start and its end. The first one starts at `p`, and
the last one ends at `finish`. -/
def gapsFrom (finish p : Position) : List Located → List (Position × Position)
  | [] => [(p, finish)]
  | l :: ls => (p, l.start) :: gapsFrom finish l.stop ls

/-- Where the reading of a source ends. -/
def Lexed.finish (cc : CharClass) (source : List Char) (lexed : Lexed) : Position :=
  lexed.stopped.getD (Position.zero.after cc source)

/-- From the position `p` on, the source is the text of the tokens with gaps between them. -/
structure Partition (cc : CharClass) (source : List Char) (p : Position) (lexed : Lexed) :
    Prop where
  tokens : ∀ l ∈ lexed.tokens, l.Present cc source
  gaps : ∀ place ∈ gapsFrom (lexed.finish cc source) p lexed.tokens,
    Vacant cc source place.1 place.2
  nonempty : ∀ l ∈ lexed.tokens, l.start.offset < l.stop.offset
  inside : ∀ l ∈ lexed.tokens, p.offset ≤ l.start.offset
  increasing : lexed.tokens.Pairwise fun l l' => l.stop.offset ≤ l'.start.offset
  stopped : ∀ q, lexed.stopped = some q → ∃ rest, Ahead cc source q rest ∧ Stuck cc rest

end ShiftReduce.Source
