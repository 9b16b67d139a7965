import ShiftReduce.Proofs.Lexing
import ShiftReduce.Proofs.Outcome
import ShiftReduce.Source.Reader

/-!
# Tokens and statements

The reader accepts the lists of tokens that statements are written as, and no others. At every point
the tokens read so far are those of the complete statements and of the part of the current one, so
nothing is lost or doubled; and the tokens of a statement take the reader behind that statement.
-/

namespace ShiftReduce.Source

variable {r r' r'' : Reader} {l : Located} {ts : List Located} {x : Token} {w v : List Token}
  {ss : List Statement} {left : String} {done : List Alternative} {last : Alternative}

/-! ## What has been read -/

/-- Alternatives with a bar behind each. -/
def barred (as : List Alternative) : List Token := as.flatMap fun a => a.tokens ++ [.bar]

/-- Bars between alternatives are bars in front of all but the first and behind all but the last. -/
theorem tokens_append_flatMap_bar {first : Alternative} {others : List Alternative}
    (h : done ++ [last] = first :: others) :
    first.tokens ++ others.flatMap (fun a => .bar :: a.tokens) = barred done ++ last.tokens := by
  induction done generalizing first others with
  | nil =>
    cases h
    simp [barred]
  | cons a done ih =>
    obtain ⟨rfl, rfl⟩ := List.cons.inj h
    obtain ⟨b, bs, hb⟩ := List.exists_cons_of_ne_nil
      (List.append_ne_nil_of_right_ne_nil done (List.cons_ne_nil last []))
    rw [List.append_eq, hb, List.flatMap_cons, List.cons_append, ih hb]
    simp [barred]

namespace Progress

/-- The tokens of a part of a statement. -/
def tokens : Progress → List Token
  | idle => []
  | terminals names => .tokenKeyword :: names.reverse.map .ident
  | type => [.typeKeyword]
  | typeName name _ => [.typeKeyword, .ident name]
  | typeCode name code => [.typeKeyword, .ident name, .code code]
  | ruleName left => [.ident left]
  | ruleSymbols left done symbols =>
    .ident left :: .defines :: barred done.reverse ++ symbols.reverse.map .ident
  | ruleAction left done last => .ident left :: .defines :: barred done.reverse ++ last.tokens

end Progress

namespace Reader

/-- The tokens that have been read. -/
def tokens (r : Reader) : List Token :=
  r.statements.reverse.flatMap Statement.tokens ++ r.progress.tokens

theorem tokens_complete {s : Statement} :
    (r.complete s).tokens = r.statements.reverse.flatMap Statement.tokens ++ s.tokens := by
  simp [tokens, complete, Progress.tokens]

theorem exists_completeRules_eq (r : Reader) (left : String) (done : List Alternative)
    (last : Alternative) : ∃ first others, done.reverse ++ [last] = first :: others ∧
    r.completeRules left done last = r.complete (.rules left first others) := by
  rw [completeRules]
  cases done.reverse with
  | nil => exact ⟨last, [], rfl, rfl⟩
  | cons first others => exact ⟨first, others ++ [last], rfl, rfl⟩

theorem tokens_completeRules : (r.completeRules left done last).tokens =
    r.statements.reverse.flatMap Statement.tokens ++
      (.ident left :: .defines :: barred done.reverse ++ last.tokens ++ [.semicolon]) := by
  obtain ⟨first, others, hwhole, hcomplete⟩ := exists_completeRules_eq r left done last
  rw [hcomplete, tokens_complete, Statement.tokens]
  simp only [List.cons_append, ← tokens_append_flatMap_bar hwhole]

/-- A step reads one token. -/
theorem tokens_step (h : r.step l = .ok r') (hl : l.token ≠ .code "") :
    r'.tokens = r.tokens ++ [l.token] := by
  obtain ⟨ss, p⟩ := r
  obtain ⟨x, start, stop⟩ := l
  cases p with
  | idle => cases x <;> cases h <;> simp [tokens, Progress.tokens]
  | terminals names =>
    cases x <;> cases h
    · rw [tokens_complete]
      simp [tokens, Progress.tokens, Statement.tokens]
    · simp [tokens, Progress.tokens]
  | type => cases x <;> cases h; simp [tokens, Progress.tokens]
  | typeName name found => cases x <;> cases h; simp [tokens, Progress.tokens]
  | typeCode name code =>
    cases x <;> cases h
    rw [tokens_complete]
    simp [tokens, Progress.tokens, Statement.tokens]
  | ruleName left => cases x <;> cases h; simp [tokens, Progress.tokens, barred]
  | ruleSymbols left done symbols =>
    cases x with
    | ident name =>
      cases h
      simp [tokens, Progress.tokens]
    | code code =>
      cases h
      have hcode : code ≠ "" := fun he => hl (congrArg Token.code he)
      simp [tokens, Progress.tokens, Alternative.tokens, hcode]
    | bar =>
      cases h
      simp [tokens, Progress.tokens, barred, Alternative.tokens]
    | semicolon =>
      cases h
      rw [tokens_completeRules]
      simp [tokens, Progress.tokens, Alternative.tokens]
    | _ => cases h
  | ruleAction left done last =>
    cases x <;> cases h
    · rw [tokens_completeRules]
      simp [tokens, Progress.tokens]
    · simp [tokens, Progress.tokens, barred]

/-- A run reads its tokens. -/
theorem tokens_foldlM (h : ts.foldlM step r = .ok r') (hcode : ∀ l ∈ ts, l.token ≠ .code "") :
    r'.tokens = r.tokens ++ ts.map Located.token := by
  induction ts generalizing r with
  | nil =>
    cases h
    simp
  | cons l ts ih =>
    obtain ⟨m, hm, hrest⟩ := exists_of_bind_eq_ok h
    rw [ih hrest fun l' hl' => hcode l' (List.mem_cons_of_mem l hl'),
      tokens_step hm (hcode l List.mem_cons_self)]
    simp

theorem tokens_of_finish (h : r.finish = .ok ss) : ss.flatMap Statement.tokens = r.tokens := by
  obtain ⟨complete, p⟩ := r
  cases p <;> cases h
  simp [tokens, Progress.tokens]

/-! ## Reading what is written -/

/-- Tokens that are the ones of `w`, wherever they stand, take the reader from `r` to `r'`. -/
def Takes (r : Reader) (w : List Token) (r' : Reader) : Prop :=
  ∀ ts : List Located, ts.map Located.token = w → ts.foldlM step r = .ok r'

namespace Takes

theorem nil (r : Reader) : Takes r [] r := fun ts hts => by
  rw [List.map_eq_nil_iff.mp hts]
  rfl

theorem append (h : Takes r w r') (h' : Takes r' v r'') : Takes r (w ++ v) r'' := by
  intro ts hts
  obtain ⟨before, behind, rfl, hw, hv⟩ := List.map_eq_append_iff.mp hts
  rw [List.foldlM_append, h before hw]
  exact h' behind hv

theorem cons (r' : Reader) (h : ∀ l : Located, l.token = x → r.step l = .ok r')
    (h' : Takes r' w r'') : Takes r (x :: w) r'' := by
  intro ts hts
  obtain ⟨l, rest, rfl, hx, hw⟩ := List.map_eq_cons_iff.mp hts
  rw [List.foldlM_cons, h l hx]
  exact h' rest hw

/-- Names pile up where the reader collects names. -/
theorem names_onto {p : List String → Progress}
    (h : ∀ l names name, l.token = .ident name →
      step ⟨ss, p names⟩ l = .ok ⟨ss, p (name :: names)⟩)
    (names acc : List String) :
    Takes ⟨ss, p acc⟩ (names.map .ident) ⟨ss, p (names.reverse ++ acc)⟩ := by
  induction names generalizing acc with
  | nil => exact nil _
  | cons name names ih =>
    rw [List.reverse_cons, List.append_assoc]
    exact cons _ (fun l hl => h l acc name hl) (ih (name :: acc))

theorem names {p : List String → Progress}
    (h : ∀ l names name, l.token = .ident name →
      step ⟨ss, p names⟩ l = .ok ⟨ss, p (name :: names)⟩) (names : List String) :
    Takes ⟨ss, p []⟩ (names.map .ident) ⟨ss, p names.reverse⟩ := by
  rw [← List.append_nil names.reverse]
  exact names_onto h names []

theorem typeDeclaration (name code : String) :
    Takes ⟨ss, .idle⟩ (Statement.tokens (.type name code)) ⟨.type name code :: ss, .idle⟩ := by
  refine cons ⟨ss, .type⟩ (fun l hl => ?_) ?_
  · simp [step, hl]
  -- the reader remembers where the name stands, and only up to the block
  intro ts hts
  obtain ⟨l, rest, rfl, hname, hrest⟩ := List.map_eq_cons_iff.mp hts
  obtain ⟨l', rest', rfl, hcode, hrest'⟩ := List.map_eq_cons_iff.mp hrest
  obtain ⟨l'', rest'', rfl, hsemicolon, hnil⟩ := List.map_eq_cons_iff.mp hrest'
  rw [List.map_eq_nil_iff.mp hnil]
  simp [step, hname, hcode, hsemicolon, complete, bind, Except.bind, pure, Except.pure]

/-- An alternative with the token behind it, where that token does the same with and without a block
before it. -/
theorem alternative (next : Alternative → Reader)
    (hplain : ∀ l symbols, l.token = x →
      step ⟨ss, .ruleSymbols left done symbols⟩ l = .ok (next ⟨symbols.reverse, ""⟩))
    (haction : ∀ l last, l.token = x →
      step ⟨ss, .ruleAction left done last⟩ l = .ok (next last)) (a : Alternative) :
    Takes ⟨ss, .ruleSymbols left done []⟩ (a.tokens ++ [x]) (next a) := by
  obtain ⟨symbols, action⟩ := a
  have hsymbols : Takes ⟨ss, .ruleSymbols left done []⟩ (symbols.map .ident)
      ⟨ss, .ruleSymbols left done symbols.reverse⟩ :=
    names (fun l names name hl => by simp [step, hl]) symbols
  rw [Alternative.tokens, List.append_assoc]
  refine hsymbols.append ?_
  split
  · next hempty =>
    refine cons _ (fun l hl => ?_) (nil _)
    obtain rfl : action = "" := hempty
    rw [hplain l _ hl, List.reverse_reverse]
  · refine cons ⟨ss, .ruleAction left done ⟨symbols, action⟩⟩ (fun l hl => ?_)
      (cons _ (fun l hl => haction l _ hl) (nil _))
    simp [step, hl]

/-- The last alternatives of a rule, after `done`. -/
theorem alternatives {first first' : Alternative} {others others' : List Alternative}
    (h : done.reverse ++ first :: others = first' :: others') :
    Takes ⟨ss, .ruleSymbols left done []⟩
      (first.tokens ++ others.flatMap (fun a => .bar :: a.tokens) ++ [.semicolon])
      ⟨.rules left first' others' :: ss, .idle⟩ := by
  induction others generalizing done first with
  | nil =>
    obtain ⟨f, o, hwhole, hcomplete⟩ := exists_completeRules_eq ⟨ss, .idle⟩ left done first
    obtain ⟨rfl, rfl⟩ := List.cons.inj (hwhole.symm.trans h)
    rw [List.flatMap_nil, List.append_nil]
    rw [complete] at hcomplete
    rw [← hcomplete]
    exact alternative (completeRules ⟨ss, .idle⟩ left done)
      (fun l symbols hl => by simp [step, hl, completeRules, complete])
      (fun l last hl => by simp [step, hl, completeRules, complete]) first
  | cons b others ih =>
    have hbar : Takes ⟨ss, .ruleSymbols left done []⟩ (first.tokens ++ [.bar])
        ⟨ss, .ruleSymbols left (first :: done) []⟩ :=
      alternative (fun a => ⟨ss, .ruleSymbols left (a :: done) []⟩)
        (fun l symbols hl => by simp [step, hl]) (fun l last hl => by simp [step, hl]) first
    have hrest : Takes ⟨ss, .ruleSymbols left (first :: done) []⟩
        (b.tokens ++ others.flatMap (fun a => .bar :: a.tokens) ++ [.semicolon])
        ⟨.rules left first' others' :: ss, .idle⟩ :=
      ih (by simpa using h)
    simpa using hbar.append hrest

theorem statement (s : Statement) : Takes ⟨ss, .idle⟩ s.tokens ⟨s :: ss, .idle⟩ := by
  cases s with
  | terminals declared =>
    have hnames : Takes ⟨ss, .terminals []⟩ (declared.map .ident)
        ⟨ss, .terminals declared.reverse⟩ :=
      names (fun l names name hl => by simp [step, hl]) declared
    refine cons _ (fun l hl => by simp [step, hl]) (hnames.append (cons _ (fun l hl => ?_) (nil _)))
    simp [step, hl, complete]
  | type name code => exact typeDeclaration name code
  | rules left first others =>
    refine cons ⟨ss, .ruleName left⟩ (fun l hl => by simp [step, hl]) ?_
    refine cons ⟨ss, .ruleSymbols left [] []⟩ (fun l hl => by simp [step, hl]) ?_
    exact alternatives rfl

theorem statements (all : List Statement) :
    Takes ⟨ss, .idle⟩ (all.flatMap Statement.tokens) ⟨all.reverse ++ ss, .idle⟩ := by
  induction all generalizing ss with
  | nil => exact nil _
  | cons s all ih =>
    rw [List.flatMap_cons, List.reverse_cons, List.append_assoc]
    exact (statement s).append ih

end Takes

end Reader

/-! ## The statements of a list of tokens -/

/-- The tokens are those that the statements are written as. -/
def Written (ss : List Statement) (ts : List Located) : Prop :=
  ts.map Located.token = ss.flatMap Statement.tokens

theorem written_of_readStatements (h : readStatements ts = .ok ss)
    (hcode : ∀ l ∈ ts, l.token ≠ .code "") : Written ss ts := by
  obtain ⟨r, hr, hfinish⟩ := exists_of_bind_eq_ok h
  rw [Written, Reader.tokens_of_finish hfinish, Reader.tokens_foldlM hr hcode]
  rfl

theorem readStatements_of_written (h : Written ss ts) : readStatements ts = .ok ss := by
  rw [readStatements, Reader.initial, Reader.Takes.statements ss ts h]
  simp [Reader.finish, bind, Except.bind]

/-- The reader accepts the tokens of statements and rejects all other lists of tokens. What it
accepts is written in one way only. -/
theorem readStatements_exact (ts : List Located) (hcode : ∀ l ∈ ts, l.token ≠ .code "") :
    (∀ ss, readStatements ts = .ok ss ↔ Written ss ts) ∧
      ((∃ e, readStatements ts = .error e) ↔ ∀ ss, ¬Written ss ts) ∧
      ∀ ss ss', Written ss ts → Written ss' ts → ss = ss' := by
  have hiff (ss : List Statement) : readStatements ts = .ok ss ↔ Written ss ts :=
    ⟨fun h => written_of_readStatements h hcode, readStatements_of_written⟩
  refine ⟨hiff, ⟨?_, fun hnone => ?_⟩, fun ss ss' h h' => ?_⟩
  · rintro ⟨e, he⟩ ss hss
    rw [readStatements_of_written hss] at he
    cases he
  · cases hread : readStatements ts with
    | error e => exact ⟨e, rfl⟩
    | ok ss => exact absurd ((hiff ss).mp hread) (hnone ss)
  · exact Except.ok.inj ((readStatements_of_written h).symm.trans (readStatements_of_written h'))

/-- The tokens of `S ::= a {x} | ;`. -/
def sampleTokens : List Located :=
  [.ident "S", .defines, .ident "a", .code "\x7bx\x7d", .bar, .semicolon].map (⟨·, .zero, .zero⟩)

theorem readStatements_exact_sample :
    readStatements sampleTokens = .ok [.rules "S" ⟨["a"], "\x7bx\x7d"⟩ [⟨[], ""⟩]] ∧
      ∀ ss, Written ss sampleTokens → ss = [.rules "S" ⟨["a"], "\x7bx\x7d"⟩ [⟨[], ""⟩]] := by
  obtain ⟨hiff, -, hunique⟩ := readStatements_exact sampleTokens (by decide +kernel)
  have hwritten : Written [.rules "S" ⟨["a"], "\x7bx\x7d"⟩ [⟨[], ""⟩]] sampleTokens := by
    rw [Written]
    decide +kernel
  exact ⟨(hiff _).mpr hwritten, fun ss hss => hunique ss _ hss hwritten⟩

/-! ## The statements of a source -/

/-- A block has its braces at least. -/
theorem code_ne_empty_of_mem_lex {cc : CharClass} {source : String}
    (hl : l ∈ (lex cc source).tokens) : l.token ≠ .code "" := by
  intro hempty
  have hpartition := Partition.of_lexFrom (.zero cc source.toList)
  obtain ⟨behind, -, -, hcomplete⟩ := hpartition.tokens l hl
  rw [hempty] at hcomplete
  cases hcomplete.opens

theorem parse_eq_ok_iff {cc : CharClass} {source : String} : parse cc source = .ok ss ↔
    (lex cc source).stopped = none ∧ Written ss (lex cc source).tokens := by
  rw [parse]
  cases hstopped : (lex cc source).stopped with
  | some p => simp
  | none =>
    rw [eq_self, true_and]
    exact ⟨fun h => written_of_readStatements h fun l => code_ne_empty_of_mem_lex,
      readStatements_of_written⟩

end ShiftReduce.Source
