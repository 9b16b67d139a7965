import ShiftReduce.Proofs.Reading
import ShiftReduce.Source.Cursor

/-!
# The cursor stays in its range

A cursor that goes through the tokens of a source reads the statements that the reader reads, and
stops with the same error where the reader does. No count of braces and no place leaves its range,
which need not exceed the length of the source, and every loop comes to its end.
-/

namespace ShiftReduce.Source

/-! ## Counting -/

theorem countUp_of_lt {limit n : Nat} (h : n < limit) : countUp limit n = .ok (n + 1) := if_pos h

theorem countedBlock_eq {limit depth : Nat} {cs : List Char} (hd : 0 < depth)
    (h : depth + cs.length ≤ limit) : countedBlock limit depth cs = .ok (block? depth cs) := by
  induction cs generalizing depth with
  | nil => rfl
  | cons c rest ih =>
    rw [List.length_cons] at h
    unfold countedBlock block?
    by_cases hopen : c = '\x7b'
    · rw [if_pos hopen, if_pos hopen, countUp_of_lt (by omega)]
      show (do .ok ((← countedBlock limit (depth + 1) rest).map (c :: ·))) = _
      rw [ih (Nat.succ_pos depth) (by omega)]
      rfl
    · rw [if_neg hopen, if_neg hopen]
      by_cases hclose : c = '\x7d'
      · obtain ⟨depth, rfl⟩ : ∃ d, depth = d + 1 := ⟨depth - 1, by omega⟩
        rw [if_pos hclose, if_pos hclose]
        show (if depth = 0 then _ else do .ok ((← countedBlock limit depth rest).map (c :: ·))) = _
        by_cases hlast : depth = 0
        · rw [if_pos hlast, if_pos (by omega)]
        · rw [if_neg hlast, if_neg (by omega), ih (by omega) (by omega)]
          rfl
      · rw [if_neg hclose, if_neg hclose, ih hd (by omega)]
        rfl

theorem countedPiece?_eq {cc : CharClass} {limit : Nat} {cs : List Char} (h : cs.length ≤ limit) :
    countedPiece? cc limit cs = .ok (piece? cc cs) := by
  unfold countedPiece? piece?
  cases ho : opening? cc cs with
  | none => rfl
  | some o =>
    cases o with
    | block =>
      obtain ⟨rest, rfl⟩ := exists_eq_cons_of_given (mem_openings_of_opening? ho).2
      show (do .ok ((← countedBlock limit 1 rest).map _)) = _
      rw [List.length_cons] at h
      rw [countedBlock_eq Nat.one_pos (by omega), block?_zero_cons]
      cases block? 1 rest <;> rfl
    | blank => rfl
    | comment => rfl
    | fixed t => rfl
    | word => rfl

theorem countedLexFrom_eq {cc : CharClass} {limit : Nat} {p : Position} {cs : List Char}
    (h : cs.length ≤ limit) : countedLexFrom cc limit p cs = .ok (lexFrom cc p cs) := by
  fun_induction lexFrom cc p cs with
  | case1 p => rw [countedLexFrom]
  | case2 p c rest hpiece =>
    rw [countedLexFrom, countedPiece?_eq h, hpiece]
    rfl
  | case3 p c rest piece hpiece stop lexed htoken ih =>
    have hrest : (rest.drop (piece.text.length - 1)).length ≤ limit :=
      Nat.le_trans (List.drop_sublist _ rest).length_le (Nat.le_of_succ_le h)
    rw [countedLexFrom, countedPiece?_eq h, hpiece]
    show (do let lexed ← countedLexFrom cc limit stop _; _) = _
    rw [ih hrest]
    simp only [bind, Except.bind, htoken]
    rfl
  | case4 p c rest piece hpiece stop lexed t htoken ih =>
    have hrest : (rest.drop (piece.text.length - 1)).length ≤ limit :=
      Nat.le_trans (List.drop_sublist _ rest).length_le (Nat.le_of_succ_le h)
    rw [countedLexFrom, countedPiece?_eq h, hpiece]
    show (do let lexed ← countedLexFrom cc limit stop _; _) = _
    rw [ih hrest]
    simp only [bind, Except.bind, htoken]
    rfl

/-- Each token takes up a character at least. -/
theorem length_tokens_lexFrom (cc : CharClass) (p : Position) (cs : List Char) :
    (lexFrom cc p cs).tokens.length ≤ cs.length := by
  fun_induction lexFrom cc p cs with
  | case1 p => exact Nat.le_refl 0
  | case2 p c rest hpiece => exact Nat.zero_le _
  | case3 p c rest piece hpiece stop lexed htoken ih =>
    exact Nat.le_succ_of_le (Nat.le_trans ih (List.drop_sublist _ rest).length_le)
  | case4 p c rest piece hpiece stop lexed t htoken ih =>
    exact Nat.succ_le_succ (Nat.le_trans ih (List.drop_sublist _ rest).length_le)

/-! ## The reader -/

namespace Reader

/-- What the reader makes of the tokens that are left. -/
def run (r : Reader) (ts : List Located) : Except Halt (List Statement) :=
  (do (← ts.foldlM step r).finish : Except SourceError (List Statement)).mapError .source

variable {r : Reader} {l : Located} {ts : List Located} {e : SourceError}

theorem run_nil (r : Reader) : r.run [] = r.finish.mapError .source := rfl

theorem run_cons_ok (r' : Reader) (h : r.step l = .ok r') : r.run (l :: ts) = r'.run ts := by
  unfold run
  rw [List.foldlM_cons, h]
  rfl

theorem run_cons_error (h : r.step l = .error e) : r.run (l :: ts) = .error (.source e) := by
  unfold run
  rw [List.foldlM_cons, h]
  rfl

end Reader

/-! ## Places -/

namespace Cursor

variable {limit bound place : Nat} {tokens : List Located} {l : Located} {ss : List Statement}

/-- The token `l` is at a place, and the next place is in range. -/
structure At (limit : Nat) (tokens : List Located) (place : Nat) (l : Located) : Prop where
  get : tokens[place]? = some l
  lt : place < tokens.length
  drop : tokens.drop place = l :: tokens.drop (place + 1)
  countUp : countUp limit place = .ok (place + 1)

theorem At.peek_eq (h : At limit tokens place l) : peek tokens place = some l.token :=
  congrArg (Option.map Located.token) h.get

theorem At.bump_eq (h : At limit tokens place l) :
    bump limit tokens place = .ok (some l.token, place + 1) := by
  unfold bump
  rw [h.peek_eq]
  show (do .ok (some l.token, ← Source.countUp limit place)) = _
  rw [h.countUp]
  rfl

theorem At.identifier_eq (h : At limit tokens place l) {name : String}
    (hl : l.token = .ident name) : identifier limit tokens place = .ok (name, place + 1) := by
  unfold identifier
  rw [h.peek_eq, hl]
  show (do .ok (name, ← Source.countUp limit place)) = _
  rw [h.countUp]
  rfl

theorem bump_end (h : tokens[place]? = none) : bump limit tokens place = .ok (none, place) := by
  rw [bump, peek, h]
  rfl

/-- At a place there is a token, or no token is left. -/
theorem at_or_end (hlimit : tokens.length ≤ limit) (place : Nat) :
    (∃ l, At limit tokens place l) ∨ tokens[place]? = none ∧ tokens.drop place = [] := by
  by_cases hlt : place < tokens.length
  · exact .inl ⟨tokens[place], List.getElem?_eq_getElem hlt, hlt,
      List.drop_eq_getElem_cons hlt, countUp_of_lt (Nat.lt_of_lt_of_le hlt hlimit)⟩
  · have hle := Nat.le_of_not_lt hlt
    exact .inr ⟨List.getElem?_eq_none hle, List.drop_eq_nil_of_le hle⟩

theorem exists_at_of_peek (hlimit : tokens.length ≤ limit) {t : Token}
    (h : peek tokens place = some t) : ∃ l, At limit tokens place l ∧ l.token = t := by
  rcases at_or_end hlimit place with ⟨l, hl⟩ | ⟨hend, -⟩
  · exact ⟨l, hl, Option.some.inj (hl.peek_eq.symm.trans h)⟩
  · rw [peek, hend] at h
    cases h

variable {k : Statement × Nat → Except Halt (List Statement)}

/-- What is done behind a statement is what the reader does there, if the statement ends behind
`place`. -/
def GoesOn (tokens : List Located) (place : Nat) (ss : List Statement)
    (k : Statement × Nat → Except Halt (List Statement)) : Prop :=
  ∀ s place', place < place' → k (s, place') = Reader.run ⟨s :: ss, .idle⟩ (tokens.drop place')

theorem GoesOn.mono (h : GoesOn tokens place ss k) {place' : Nat} (hle : place ≤ place') :
    GoesOn tokens place' ss k :=
  fun s place'' hlt => h s place'' (Nat.lt_of_le_of_lt hle hlt)

/-! ## Parts of statements -/

/-- The cursor that expects one token does what the reader does if it expects the same. -/
theorem expect_run (hlimit : tokens.length ≤ limit) (r' : Reader) {t : Token} {e : Expected}
    {r : Reader}
    (hok : ∀ l, l.token = t → r.step l = .ok r')
    (herror : ∀ l, At limit tokens place l → l.token ≠ t →
      r.step l = .error (.unexpected e (some l)))
    (hend : r.finish = .error (.unexpected e none))
    {k : Nat → Except Halt (List Statement)}
    (hk : k (place + 1) = r'.run (tokens.drop (place + 1))) :
    (expect limit tokens t e place >>= k) = r.run (tokens.drop place) := by
  unfold expect unexpected
  rcases at_or_end hlimit place with ⟨l, hl⟩ | ⟨hnone, hdrop⟩
  · rw [hl.drop, hl.peek_eq]
    by_cases ht : l.token = t
    · rw [ht, if_pos rfl, hl.countUp, Reader.run_cons_ok r' (hok l ht)]
      exact hk
    · rw [if_neg (fun h => ht (Option.some.inj h)), hl.get, Reader.run_cons_error (herror l hl ht)]
      rfl
  · rw [hdrop, Reader.run_nil, hend, peek, hnone, if_neg nofun]
    rfl

theorem nameList_of_ident (h : At limit tokens place l) {name : String}
    (hl : l.token = .ident name) (names : List String) :
    nameList limit tokens (bound + 1) names place =
      nameList limit tokens bound (names ++ [name]) (place + 1) := by
  rw [nameList, h.peek_eq, hl]
  show (do nameList limit tokens bound (names ++ [name]) (← Source.countUp limit place)) = _
  rw [h.countUp]
  rfl

theorem nameList_of_not_ident (h : ∀ name, peek tokens place ≠ some (.ident name))
    (names : List String) :
    nameList limit tokens (bound + 1) names place = .ok (names, place) := by
  unfold nameList
  split
  · exact absurd ‹_› (h _)
  · rfl

/-- The cursor that passes names does what the reader does with them. -/
theorem nameList_run (hlimit : tokens.length ≤ limit) (names : List String)
    (hbound : tokens.length - place < bound)
    {k : List String × Nat → Except Halt (List Statement)}
    (hk : ∀ names place', place ≤ place' → (∀ name, peek tokens place' ≠ some (.ident name)) →
      k (names, place') = Reader.run ⟨ss, .terminals names.reverse⟩ (tokens.drop place')) :
    (nameList limit tokens bound names place >>= k) =
      Reader.run ⟨ss, .terminals names.reverse⟩ (tokens.drop place) := by
  induction bound generalizing names place with
  | zero => exact absurd hbound (Nat.not_lt_zero _)
  | succ bound ih =>
    by_cases hname : ∃ name, peek tokens place = some (.ident name)
    · obtain ⟨name, hpeek⟩ := hname
      obtain ⟨⟨x, start, stop⟩, hl, rfl⟩ := exists_at_of_peek hlimit hpeek
      have hlt := hl.lt
      rw [nameList_of_ident hl rfl, hl.drop,
        Reader.run_cons_ok ⟨ss, .terminals (names ++ [name]).reverse⟩
          (by rw [List.reverse_append]; rfl)]
      exact ih (names ++ [name]) (by omega) fun names place' hle => hk names place' (by omega)
    · have hnot (name : String) : peek tokens place ≠ some (.ident name) :=
        fun h => hname ⟨name, h⟩
      rw [nameList_of_not_ident hnot]
      exact hk names place (Nat.le_refl place) hnot

/-! ## Declarations -/

theorem lt_turns (tokens : List Located) (place : Nat) :
    tokens.length - place < turns tokens := Nat.lt_succ_of_le (Nat.sub_le _ _)

theorem tokenStatement_run (hlimit : tokens.length ≤ limit) (hl : At limit tokens place l)
    (ht : l.token = .tokenKeyword) (hk : GoesOn tokens place ss k) :
    (tokenStatement limit tokens place >>= k) = Reader.run ⟨ss, .idle⟩ (tokens.drop place) := by
  obtain ⟨x, start, stop⟩ := l
  obtain rfl : x = .tokenKeyword := ht
  rw [hl.drop, Reader.run_cons_ok ⟨ss, .terminals []⟩ rfl, tokenStatement, hl.bump_eq]
  show (nameList limit tokens (turns tokens) [] (place + 1) >>= fun x =>
    expect limit tokens .semicolon .semicolon x.2 >>= fun place =>
      .ok (.terminals x.1, place)) >>= k = _
  rw [bind_assoc]
  refine nameList_run hlimit [] (lt_turns tokens _) fun names place' hle hnot => ?_
  rw [bind_assoc]
  refine expect_run hlimit ⟨.terminals names :: ss, .idle⟩ ?_ ?_ rfl
    (hk (.terminals names) (place' + 1) (by omega))
  · rintro ⟨x, start, stop⟩ rfl
    show Except.ok (Reader.complete _ (.terminals names.reverse.reverse)) = _
    rw [List.reverse_reverse]
    rfl
  · rintro ⟨x, start, stop⟩ hl' hne
    cases x with
    | ident name => exact absurd hl'.peek_eq (hnot name)
    | semicolon => exact absurd rfl hne
    | _ => rfl

theorem identifier_run (hlimit : tokens.length ≤ limit)
    {k : String × Nat → Except Halt (List Statement)}
    (hk : ∀ name l, At limit tokens place l → l.token = .ident name →
      k (name, place + 1) = Reader.run ⟨ss, .typeName name l⟩ (tokens.drop (place + 1))) :
    (identifier limit tokens place >>= k) = Reader.run ⟨ss, .type⟩ (tokens.drop place) := by
  rcases at_or_end hlimit place with ⟨l, hl⟩ | ⟨hnone, hdrop⟩
  · by_cases hname : ∃ name, l.token = .ident name
    · obtain ⟨name, hname⟩ := hname
      rw [hl.identifier_eq hname, hl.drop, Reader.run_cons_ok ⟨ss, .typeName name l⟩]
      · exact hk name l hl hname
      · obtain ⟨x, start, stop⟩ := l
        obtain rfl : x = .ident name := hname
        rfl
    · have herror : identifier limit tokens place =
          .error (.source (.unexpected .identifier (some l))) := by
        unfold identifier unexpected
        rw [hl.peek_eq, hl.get]
        split
        · exact absurd ⟨_, Option.some.inj ‹_›⟩ hname
        · rfl
      rw [herror, hl.drop, Reader.run_cons_error (e := .unexpected .identifier (some l))]
      · rfl
      · obtain ⟨x, start, stop⟩ := l
        cases x with
        | ident name => exact absurd ⟨name, rfl⟩ hname
        | _ => rfl
  · rw [identifier, unexpected, peek, hnone, hdrop]
    rfl

/-- Behind the name `found` of a type declaration the cursor steps back onto the wrong token, or
onto the name if there is no token. -/
theorem bracedType_run (hlimit : tokens.length ≤ limit) {found : Located} {name : String}
    (hfound : At limit tokens place found) {k : String × Nat → Except Halt (List Statement)}
    (hk : ∀ code, k (code, place + 2) =
      Reader.run ⟨ss, .typeCode name code⟩ (tokens.drop (place + 2))) :
    (bracedType limit tokens (place + 1) >>= k) =
      Reader.run ⟨ss, .typeName name found⟩ (tokens.drop (place + 1)) := by
  rcases at_or_end hlimit (place + 1) with ⟨⟨x, start, stop⟩, hl⟩ | ⟨hnone, hdrop⟩
  · rw [bracedType, hl.bump_eq, hl.drop]
    cases x with
    | code code =>
      rw [Reader.run_cons_ok ⟨ss, .typeCode name code⟩ rfl]
      exact hk code
    | _ =>
      rw [Reader.run_cons_error rfl, ← hl.get]
      rfl
  · rw [bracedType, bump_end hnone, hdrop, Reader.run_nil]
    show Except.error (unexpected tokens place .bracedType) = _
    rw [unexpected, hfound.get]
    rfl

theorem typeStatement_run (hlimit : tokens.length ≤ limit) (hl : At limit tokens place l)
    (ht : l.token = .typeKeyword) (hk : GoesOn tokens place ss k) :
    (typeStatement limit tokens place >>= k) = Reader.run ⟨ss, .idle⟩ (tokens.drop place) := by
  obtain ⟨x, start, stop⟩ := l
  obtain rfl : x = .typeKeyword := ht
  rw [hl.drop, Reader.run_cons_ok ⟨ss, .type⟩ rfl, typeStatement, hl.bump_eq]
  show (identifier limit tokens (place + 1) >>= fun x => bracedType limit tokens x.2 >>= fun y =>
    expect limit tokens .semicolon .semicolon y.2 >>= fun place =>
      .ok (.type x.1 y.1, place)) >>= k = _
  rw [bind_assoc]
  refine identifier_run hlimit fun name found hfound _ => ?_
  rw [bind_assoc]
  refine bracedType_run hlimit hfound fun code => ?_
  rw [bind_assoc]
  refine expect_run hlimit ⟨.type name code :: ss, .idle⟩ ?_ ?_ rfl
    (hk (.type name code) (place + 4) (by omega))
  · rintro ⟨x, start, stop⟩ rfl
    rfl
  · rintro ⟨x, start, stop⟩ _ hne
    cases x with
    | semicolon => exact absurd rfl hne
    | _ => rfl

/-! ## Rules -/

theorem alternative_of_ident (h : At limit tokens place l) {name : String}
    (hl : l.token = .ident name) (symbols : List String) :
    alternative limit tokens (bound + 1) symbols place =
      alternative limit tokens bound (symbols ++ [name]) (place + 1) := by
  rw [alternative, h.peek_eq, hl]
  show (do alternative limit tokens bound (symbols ++ [name]) (← Source.countUp limit place)) = _
  rw [h.countUp]
  rfl

theorem alternative_of_code (h : At limit tokens place l) {code : String}
    (hl : l.token = .code code) (symbols : List String) :
    alternative limit tokens (bound + 1) symbols place = .ok (⟨symbols, code⟩, place + 1) := by
  rw [alternative, h.peek_eq, hl]
  show (do .ok (Alternative.mk symbols code, ← Source.countUp limit place)) = _
  rw [h.countUp]
  rfl

theorem alternative_of_other (hident : ∀ name, peek tokens place ≠ some (.ident name))
    (hcode : ∀ code, peek tokens place ≠ some (.code code)) (symbols : List String) :
    alternative limit tokens (bound + 1) symbols place = .ok (⟨symbols, ""⟩, place) := by
  unfold alternative
  split
  · exact absurd ‹_› (hident _)
  · exact absurd ‹_› (hcode _)
  · rfl

/-- The cursor that reads an alternative stops behind its block, or in front of the first token that
is neither a name nor a block. -/
theorem alternative_run (hlimit : tokens.length ≤ limit) {left : String} {done : List Alternative}
    (symbols : List String) (hbound : tokens.length - place < bound)
    {k : Alternative × Nat → Except Halt (List Statement)}
    (haction : ∀ a place', place < place' →
      k (a, place') = Reader.run ⟨ss, .ruleAction left done a⟩ (tokens.drop place'))
    (hsymbols : ∀ symbols place', place ≤ place' →
      (∀ name, peek tokens place' ≠ some (.ident name)) →
      (∀ code, peek tokens place' ≠ some (.code code)) →
      k (⟨symbols, ""⟩, place') =
        Reader.run ⟨ss, .ruleSymbols left done symbols.reverse⟩ (tokens.drop place')) :
    (alternative limit tokens bound symbols place >>= k) =
      Reader.run ⟨ss, .ruleSymbols left done symbols.reverse⟩ (tokens.drop place) := by
  induction bound generalizing symbols place with
  | zero => exact absurd hbound (Nat.not_lt_zero _)
  | succ bound ih =>
    by_cases hname : ∃ name, peek tokens place = some (.ident name)
    · obtain ⟨name, hpeek⟩ := hname
      obtain ⟨⟨x, start, stop⟩, hl, rfl⟩ := exists_at_of_peek hlimit hpeek
      have hlt := hl.lt
      rw [alternative_of_ident hl rfl, hl.drop,
        Reader.run_cons_ok ⟨ss, .ruleSymbols left done (symbols ++ [name]).reverse⟩
          (by rw [List.reverse_append]; rfl)]
      exact ih (symbols ++ [name]) (by omega)
        (fun a place' hle => haction a place' (by omega))
        fun symbols place' hle => hsymbols symbols place' (by omega)
    · by_cases hcode : ∃ code, peek tokens place = some (.code code)
      · obtain ⟨code, hpeek⟩ := hcode
        obtain ⟨⟨x, start, stop⟩, hl, rfl⟩ := exists_at_of_peek hlimit hpeek
        rw [alternative_of_code hl rfl, hl.drop,
          Reader.run_cons_ok ⟨ss, .ruleAction left done ⟨symbols.reverse.reverse, code⟩⟩ rfl,
          List.reverse_reverse]
        exact haction ⟨symbols, code⟩ (place + 1) (Nat.lt_succ_self place)
      · have hident (name : String) : peek tokens place ≠ some (.ident name) :=
          fun h => hname ⟨name, h⟩
        have hblock (code : String) : peek tokens place ≠ some (.code code) :=
          fun h => hcode ⟨code, h⟩
        rw [alternative_of_other hident hblock]
        exact hsymbols symbols place (Nat.le_refl place) hident hblock

theorem completeRules_eq (r : Reader) (left : String) (done : List Alternative)
    (last : Alternative) :
    r.completeRules left done last = r.complete (rulesOf left done.reverse last) := by
  unfold Reader.completeRules rulesOf
  cases done.reverse <;> rfl

/-- What can stand behind the alternative `last`, in the reader that has just read it. -/
structure Divides (limit : Nat) (tokens : List Located) (place : Nat) (left : String)
    (done : List Alternative) (last : Alternative) (r : Reader) : Prop where
  bar : ∀ l, l.token = .bar → r.step l = .ok { r with progress := .ruleSymbols left (last :: done) [] }
  semicolon : ∀ l, l.token = .semicolon → r.step l = .ok (r.completeRules left done last)
  other : ∀ l, At limit tokens place l → l.token ≠ .bar → l.token ≠ .semicolon →
    r.step l = .error (.unexpected .barOrSemicolon (some l))
  finish : r.finish = .error (.unexpected .barOrSemicolon none)

theorem divides_ruleAction (left : String) (done : List Alternative) (last : Alternative) :
    Divides limit tokens place left done last ⟨ss, .ruleAction left done last⟩ where
  bar := by
    rintro ⟨x, start, stop⟩ rfl
    rfl
  semicolon := by
    rintro ⟨x, start, stop⟩ rfl
    rfl
  other := by
    rintro ⟨x, start, stop⟩ _ hbar hsemicolon
    cases x with
    | bar => exact absurd rfl hbar
    | semicolon => exact absurd rfl hsemicolon
    | _ => rfl
  finish := rfl

theorem divides_ruleSymbols (left : String) (done : List Alternative) (symbols : List String)
    (hident : ∀ name, peek tokens place ≠ some (.ident name))
    (hcode : ∀ code, peek tokens place ≠ some (.code code)) :
    Divides limit tokens place left done ⟨symbols, ""⟩
      ⟨ss, .ruleSymbols left done symbols.reverse⟩ where
  bar := by
    rintro ⟨x, start, stop⟩ rfl
    show Except.ok (Reader.mk ss (.ruleSymbols left (⟨symbols.reverse.reverse, ""⟩ :: done) [])) = _
    rw [List.reverse_reverse]
  semicolon := by
    rintro ⟨x, start, stop⟩ rfl
    show Except.ok (Reader.completeRules _ left done ⟨symbols.reverse.reverse, ""⟩) = _
    rw [List.reverse_reverse]
  other := by
    rintro ⟨x, start, stop⟩ hl hbar hsemicolon
    cases x with
    | bar => exact absurd rfl hbar
    | semicolon => exact absurd rfl hsemicolon
    | ident name => exact absurd hl.peek_eq (hident name)
    | code code => exact absurd hl.peek_eq (hcode code)
    | _ => rfl
  finish := rfl

theorem another_run (hlimit : tokens.length ≤ limit) {left : String} {done : List Alternative}
    {last : Alternative} {r : Reader} (hr : Divides limit tokens place left done last r)
    {k : Bool × Nat → Except Halt (List Statement)}
    (hmore : place < tokens.length → k (true, place + 1) =
      Reader.run ⟨r.statements, .ruleSymbols left (last :: done) []⟩ (tokens.drop (place + 1)))
    (hlast : k (false, place + 1) =
      Reader.run ⟨rulesOf left done.reverse last :: r.statements, .idle⟩
        (tokens.drop (place + 1))) :
    (another limit tokens place >>= k) = r.run (tokens.drop place) := by
  rcases at_or_end hlimit place with ⟨l, hl⟩ | ⟨hnone, hdrop⟩
  · rw [another, hl.bump_eq, hl.drop]
    by_cases hbar : l.token = .bar
    · rw [Reader.run_cons_ok _ (hr.bar l hbar), hbar]
      exact hmore hl.lt
    · by_cases hsemicolon : l.token = .semicolon
      · rw [Reader.run_cons_ok _ (hr.semicolon l hsemicolon), completeRules_eq, hsemicolon]
        exact hlast
      · rw [Reader.run_cons_error (hr.other l hl hbar hsemicolon), ← hl.get]
        cases htoken : l.token with
        | bar => exact absurd htoken hbar
        | semicolon => exact absurd htoken hsemicolon
        | _ => rfl
  · rw [another, bump_end hnone, hdrop, Reader.run_nil, hr.finish, ← hnone]
    rfl

theorem alternatives_run (hlimit : tokens.length ≤ limit) {left : String}
    (done : List Alternative) (hbound : tokens.length - place < bound)
   
    (hk : GoesOn tokens place ss k) :
    (alternatives limit tokens left bound done place >>= k) =
      Reader.run ⟨ss, .ruleSymbols left done.reverse []⟩ (tokens.drop place) := by
  induction bound generalizing done place with
  | zero => exact absurd hbound (Nat.not_lt_zero _)
  | succ bound ih =>
    show (alternative limit tokens (turns tokens) [] place >>= fun x =>
      another limit tokens x.2 >>= fun y =>
        if y.1 then alternatives limit tokens left bound (done ++ [x.1]) y.2
        else .ok (rulesOf left done x.1, y.2)) >>= k = _
    rw [bind_assoc]
    -- behind the alternative `last` it does not matter how that has ended
    have hrest (last : Alternative) (place' : Nat) (hle : place ≤ place') (p : Progress)
        (hp : Divides limit tokens place' left done.reverse last ⟨ss, p⟩) :
        ((another limit tokens place' >>= fun y =>
          if y.1 then alternatives limit tokens left bound (done ++ [last]) y.2
          else .ok (rulesOf left done last, y.2)) >>= k) =
        Reader.run ⟨ss, p⟩ (tokens.drop place') := by
      rw [bind_assoc]
      refine another_run hlimit hp (fun hlt => ?_) ?_
      · have hmore : (alternatives limit tokens left bound (done ++ [last]) (place' + 1) >>= k) =
            _ := ih (done ++ [last]) (by omega) (hk.mono (by omega))
        rwa [List.reverse_append] at hmore
      · rw [List.reverse_reverse]
        exact hk _ (place' + 1) (by omega)
    refine alternative_run hlimit [] (lt_turns tokens place)
      (fun a place' hlt => ?_) fun symbols place' hle hident hcode => ?_
    · exact hrest a place' (Nat.le_of_lt hlt) _ (divides_ruleAction left done.reverse a)
    · exact hrest ⟨symbols, ""⟩ place' hle _
        (divides_ruleSymbols left done.reverse symbols hident hcode)

theorem ruleStatement_run (hlimit : tokens.length ≤ limit) (hl : At limit tokens place l)
    {left : String} (ht : l.token = .ident left)
   
    (hk : GoesOn tokens place ss k) :
    (ruleStatement limit tokens place >>= k) = Reader.run ⟨ss, .idle⟩ (tokens.drop place) := by
  obtain ⟨x, start, stop⟩ := l
  obtain rfl : x = .ident left := ht
  rw [hl.drop, Reader.run_cons_ok ⟨ss, .ruleName left⟩ rfl, ruleStatement,
    hl.identifier_eq rfl]
  show (expect limit tokens .defines .defines (place + 1) >>= fun place =>
    alternatives limit tokens left (turns tokens) [] place) >>= k = _
  rw [bind_assoc]
  refine expect_run hlimit ⟨ss, .ruleSymbols left [] []⟩ ?_ ?_ rfl ?_
  · rintro ⟨x, start, stop⟩ rfl
    rfl
  · rintro ⟨x, start, stop⟩ _ hne
    cases x with
    | defines => exact absurd rfl hne
    | _ => rfl
  · exact alternatives_run hlimit [] (lt_turns tokens _) (hk.mono (Nat.le_add_right place 2))

/-! ## All statements -/

theorem statement_run (hlimit : tokens.length ≤ limit) (hl : At limit tokens place l)
   
    (hk : GoesOn tokens place ss k) :
    (statement limit tokens l.token place >>= k) =
      Reader.run ⟨ss, .idle⟩ (tokens.drop place) := by
  have hother (h : Reader.step ⟨ss, .idle⟩ l = .error (.unexpected .statement (some l))) :
      (Except.error (unexpected tokens place .statement) : Except Halt (Statement × Nat)) >>= k =
        Reader.run ⟨ss, .idle⟩ (tokens.drop place) := by
    rw [hl.drop, Reader.run_cons_error h, unexpected, hl.get]
    rfl
  obtain ⟨x, start, stop⟩ := l
  cases x with
  | tokenKeyword => exact tokenStatement_run hlimit hl rfl hk
  | typeKeyword => exact typeStatement_run hlimit hl rfl hk
  | ident left => exact ruleStatement_run hlimit hl rfl hk
  | defines => exact hother rfl
  | semicolon => exact hother rfl
  | bar => exact hother rfl
  | code code => exact hother rfl

theorem statements_run (hlimit : tokens.length ≤ limit) (done : List Statement)
    (hbound : tokens.length - place < bound) :
    statements limit tokens bound done place =
      Reader.run ⟨done.reverse, .idle⟩ (tokens.drop place) := by
  induction bound generalizing done place with
  | zero => exact absurd hbound (Nat.not_lt_zero _)
  | succ bound ih =>
    rcases at_or_end hlimit place with ⟨l, hl⟩ | ⟨hnone, hdrop⟩
    · have hlt := hl.lt
      rw [statements, hl.peek_eq]
      show (statement limit tokens l.token place >>= fun x =>
        statements limit tokens bound (done ++ [x.1]) x.2) = _
      refine statement_run hlimit hl fun s place' hlt' => ?_
      have hnext : statements limit tokens bound (done ++ [s]) place' = _ :=
        ih (done ++ [s]) (by omega)
      rwa [List.reverse_append] at hnext
    · rw [statements, peek, hnone, hdrop, Reader.run_nil]
      show Except.ok done = Except.ok done.reverse.reverse
      rw [List.reverse_reverse]

/-- With places and counts up to the length of the source the cursor reads what the reader reads.
Neither leaves its range, and no loop is cut off. -/
theorem parse_eq (cc : CharClass) (source : String) {limit : Nat}
    (h : source.toList.length ≤ limit) :
    parse limit cc source = (Source.parse cc source).mapError .source := by
  have htokens : (lex cc source).tokens.length ≤ limit :=
    Nat.le_trans (length_tokens_lexFrom cc .zero source.toList) h
  unfold parse Source.parse
  rw [countedLexFrom_eq h]
  cases hstopped : (lex cc source).stopped with
  | some p =>
    simp only [lex] at hstopped
    simp only [bind, Except.bind, lex, hstopped]
    rfl
  | none =>
    have hrun := statements_run htokens [] (lt_turns (lex cc source).tokens 0)
    simp only [lex] at hstopped hrun
    simp only [bind, Except.bind, lex, hstopped]
    exact hrun

end Cursor

end ShiftReduce.Source
