import Mathlib.Data.List.Induction
import Mathlib.Order.Bounds.Basic
import ShiftReduce.Proofs.Cursor

/-!
# Where an error points

A sentence is a list of statements, token by token. Of the tokens that have been read only the stage
of the current statement matters for those that can come next, and every stage can go on to a
sentence. So reading fails at the first token with which no sentence goes on, or at the end. There
it names the end, but for one stage: behind the name of a type declaration it goes one token back
even if there is none, and names the name.
-/

namespace ShiftReduce.Source

variable {w v : List Token} {x : Token} {ts : List Located} {l : Located} {e : SourceError}
  {r r' : Reader}

/-! ## Sentences -/

/-- A right side: names, and a block behind them or none. -/
structure Branch where
  names : List String
  block : Option String

def Branch.tokens (b : Branch) : List Token := b.names.map .ident ++ b.block.toList.map .code

/-- Right sides with a bar behind each. -/
def barredBranches (bs : List Branch) : List Token := bs.flatMap fun b => b.tokens ++ [.bar]

inductive IsStatement : List Token → Prop
  | terminals (names : List String) :
    IsStatement (.tokenKeyword :: names.map .ident ++ [.semicolon])
  | type (name code : String) : IsStatement [.typeKeyword, .ident name, .code code, .semicolon]
  | rules (left : String) (front : List Branch) (last : Branch) :
    IsStatement (.ident left :: .defines :: barredBranches front ++ last.tokens ++ [.semicolon])

inductive Sentence : List Token → Prop
  | nil : Sentence []
  | cons {w v : List Token} (h : IsStatement w) (h' : Sentence v) : Sentence (w ++ v)

/-- A sentence can begin with the tokens. -/
def Viable (w : List Token) : Prop := ∃ behind, Sentence (w ++ behind)

theorem Sentence.append (h : Sentence w) (h' : Sentence v) : Sentence (w ++ v) := by
  induction h with
  | nil => exact h'
  | cons hs _ ih =>
    rw [List.append_assoc]
    exact .cons hs ih

theorem IsStatement.sentence (h : IsStatement w) : Sentence w := by
  rw [← List.append_nil w]
  exact .cons h .nil

/-! ## Stages -/

/-- How far the current statement has been read, apart from the names in it. -/
inductive Stage where
  | idle
  | terminals
  | type
  | typeName
  | typeCode
  | ruleName
  | symbols
  | action
  deriving DecidableEq, Repr

namespace Stage

variable {s s' : Stage}

/-- The stage behind one more token, if the token can come next. -/
def next? : Stage → Token → Option Stage
  | idle, .tokenKeyword => some terminals
  | idle, .typeKeyword => some type
  | idle, .ident _ => some ruleName
  | terminals, .ident _ => some terminals
  | terminals, .semicolon => some idle
  | type, .ident _ => some typeName
  | typeName, .code _ => some typeCode
  | typeCode, .semicolon => some idle
  | ruleName, .defines => some symbols
  | symbols, .ident _ => some symbols
  | symbols, .code _ => some action
  | symbols, .bar => some symbols
  | symbols, .semicolon => some idle
  | action, .bar => some symbols
  | action, .semicolon => some idle
  | _, _ => none

/-- The stage behind more tokens, if they can all come next. -/
def run (s : Stage) (w : List Token) : Option Stage := w.foldlM next? s

theorem run_append : s.run (w ++ v) = (s.run w).bind (·.run v) := List.foldlM_append

theorem run_append_of_eq (h : s.run w = some s') : s.run (w ++ v) = s'.run v := by
  rw [run_append, h, Option.bind_some]

theorem run_singleton : s.run [x] = s.next? x := by
  show (s.next? x).bind some = s.next? x
  exact Option.bind_fun_some _

/-- Behind a token that cannot come next nothing is read. -/
theorem run_append_cons_of_eq (h : s.run w = some s') (hx : s'.next? x = none) :
    s.run (w ++ x :: v) = none := by
  rw [run_append_of_eq h]
  show (s'.next? x).bind _ = none
  rw [hx]
  rfl

theorem run_names (hs : ∀ name, s.next? (.ident name) = some s) (names : List String) :
    s.run (names.map .ident) = some s := by
  induction names with
  | nil => rfl
  | cons name names ih =>
    show (s.next? (.ident name)).bind _ = some s
    rw [hs name]
    exact ih

/-! ### Sentences are read -/

theorem run_branch (b : Branch) : symbols.run b.tokens = some symbols ∨
    symbols.run b.tokens = some action := by
  obtain ⟨names, block⟩ := b
  have hnames : symbols.run (names.map .ident) = some symbols := run_names (fun _ => rfl) names
  rw [Branch.tokens, run_append_of_eq hnames]
  cases block with
  | none => exact .inl rfl
  | some code => exact .inr rfl

/-- A bar or a semicolon can stand behind a right side with a block and without one. -/
theorem run_branch_append (b : Branch) (x : Token) (h : symbols.next? x = action.next? x) :
    symbols.run (b.tokens ++ [x]) = symbols.next? x := by
  rcases run_branch b with hb | hb <;> rw [run_append_of_eq hb, run_singleton]
  exact h.symm

theorem run_barredBranches (bs : List Branch) :
    symbols.run (barredBranches bs) = some symbols := by
  induction bs with
  | nil => rfl
  | cons b bs ih =>
    rw [barredBranches, List.flatMap_cons, run_append_of_eq (run_branch_append b .bar rfl)]
    exact ih

theorem run_of_isStatement (h : IsStatement w) : idle.run w = some idle := by
  cases h with
  | terminals names =>
    have hnames : terminals.run (names.map .ident) = some terminals :=
      run_names (fun _ => rfl) names
    show terminals.run (names.map .ident ++ [.semicolon]) = some idle
    rw [run_append_of_eq hnames]
    rfl
  | type name code => rfl
  | rules left front last =>
    show symbols.run (barredBranches front ++ last.tokens ++ [.semicolon]) = some idle
    rw [List.append_assoc, run_append_of_eq (run_barredBranches front),
      run_branch_append last .semicolon rfl]
    rfl

theorem run_of_sentence (h : Sentence w) : idle.run w = some idle := by
  induction h with
  | nil => rfl
  | cons hs _ ih => rw [run_append_of_eq (run_of_isStatement hs), ih]

/-! ### What is read is a sentence, or goes on to one -/

/-- The part of the current statement that has been read at a stage. -/
inductive Part : Stage → List Token → Prop
  | idle : Part idle []
  | terminals (names : List String) : Part terminals (.tokenKeyword :: names.map .ident)
  | type : Part type [.typeKeyword]
  | typeName (name : String) : Part typeName [.typeKeyword, .ident name]
  | typeCode (name code : String) : Part typeCode [.typeKeyword, .ident name, .code code]
  | ruleName (left : String) : Part ruleName [.ident left]
  | symbols (left : String) (front : List Branch) (names : List String) :
    Part symbols (.ident left :: .defines :: barredBranches front ++ (Branch.mk names none).tokens)
  | action (left : String) (front : List Branch) (names : List String) (code : String) :
    Part action
      (.ident left :: .defines :: barredBranches front ++ (Branch.mk names (some code)).tokens)

/-- Behind a right side and a bar the next right side begins. -/
theorem Part.bar (left : String) (front : List Branch) (b : Branch) :
    Part .symbols (.ident left :: .defines :: barredBranches front ++ b.tokens ++ [.bar]) := by
  have hfront : barredBranches front ++ (b.tokens ++ [.bar]) = barredBranches (front ++ [b]) := by
    simp [barredBranches]
  rw [List.append_assoc, List.cons_append, List.cons_append, hfront,
    ← List.append_nil (_ :: _ :: barredBranches _)]
  exact .symbols left (front ++ [b]) []

/-- One more token goes on with the part, or completes the statement. -/
theorem Part.next (h : Part s w) (hx : s.next? x = some s') :
    Part s' (w ++ [x]) ∨ s' = .idle ∧ IsStatement (w ++ [x]) := by
  cases h with
  | idle =>
    cases x <;> cases hx
    · exact .inl (.terminals [])
    · exact .inl .type
    · exact .inl (.ruleName _)
  | terminals names =>
    cases x with
    | ident name =>
      cases hx
      have hnames : names.map Token.ident ++ [.ident name] = (names ++ [name]).map .ident := by simp
      rw [List.cons_append, hnames]
      exact .inl (.terminals (names ++ [name]))
    | semicolon =>
      cases hx
      exact .inr ⟨rfl, .terminals names⟩
    | _ => cases hx
  | type =>
    cases x <;> cases hx
    exact .inl (.typeName _)
  | typeName name =>
    cases x <;> cases hx
    exact .inl (.typeCode name _)
  | typeCode name code =>
    cases x <;> cases hx
    exact .inr ⟨rfl, .type name code⟩
  | ruleName left =>
    cases x <;> cases hx
    exact .inl (.symbols left [] [])
  | symbols left front names =>
    cases x with
    | ident name =>
      cases hx
      have hnames : (Branch.mk names none).tokens ++ [.ident name] =
          (Branch.mk (names ++ [name]) none).tokens := by simp [Branch.tokens]
      rw [List.append_assoc, hnames]
      exact .inl (.symbols left front (names ++ [name]))
    | code code =>
      cases hx
      have hblock : (Branch.mk names none).tokens ++ [.code code] =
          (Branch.mk names (some code)).tokens := by simp [Branch.tokens]
      rw [List.append_assoc, hblock]
      exact .inl (.action left front names code)
    | bar =>
      cases hx
      exact .inl (.bar left front ⟨names, none⟩)
    | semicolon =>
      cases hx
      exact .inr ⟨rfl, .rules left front ⟨names, none⟩⟩
    | _ => cases hx
  | action left front names code =>
    cases x with
    | bar =>
      cases hx
      exact .inl (.bar left front ⟨names, some code⟩)
    | semicolon =>
      cases hx
      exact .inr ⟨rfl, .rules left front ⟨names, some code⟩⟩
    | _ => cases hx

/-- What has been read: complete statements, and a part of the current one. -/
theorem exists_part (h : idle.run w = some s) :
    ∃ front part, w = front ++ part ∧ Sentence front ∧ Part s part := by
  induction w using List.reverseRecOn generalizing s with
  | nil =>
    cases h
    exact ⟨[], [], rfl, .nil, .idle⟩
  | append_singleton w x ih =>
    rw [run_append, Option.bind_eq_some_iff] at h
    obtain ⟨s₀, hw, hx⟩ := h
    rw [run_singleton] at hx
    obtain ⟨front, part, rfl, hfront, hpart⟩ := ih hw
    rcases hpart.next hx with hpart | ⟨rfl, hstatement⟩
    · exact ⟨front, part ++ [x], List.append_assoc .., hfront, hpart⟩
    · refine ⟨front ++ (part ++ [x]), [], ?_, hfront.append hstatement.sentence, .idle⟩
      rw [List.append_nil, List.append_assoc]

/-- Every part of a statement can be completed. -/
theorem Part.exists_isStatement (h : Part s w) (hs : s ≠ .idle) :
    ∃ behind, IsStatement (w ++ behind) := by
  cases h with
  | idle => exact absurd rfl hs
  | terminals names => exact ⟨[.semicolon], .terminals names⟩
  | type => exact ⟨[.ident "", .code "", .semicolon], .type "" ""⟩
  | typeName name => exact ⟨[.code "", .semicolon], .type name ""⟩
  | typeCode name code => exact ⟨[.semicolon], .type name code⟩
  | ruleName left => exact ⟨[.defines, .semicolon], .rules left [] ⟨[], none⟩⟩
  | symbols left front names => exact ⟨[.semicolon], .rules left front ⟨names, none⟩⟩
  | action left front names code => exact ⟨[.semicolon], .rules left front ⟨names, some code⟩⟩

theorem sentence_iff : Sentence w ↔ idle.run w = some idle := by
  refine ⟨run_of_sentence, fun h => ?_⟩
  obtain ⟨front, part, rfl, hfront, hpart⟩ := exists_part h
  cases hpart
  rwa [List.append_nil]

/-- The tokens that can all come next are those with which a sentence can begin. -/
theorem viable_iff : Viable w ↔ (idle.run w).isSome := by
  refine ⟨fun ⟨behind, h⟩ => ?_, fun h => ?_⟩
  · have hrun := run_of_sentence h
    rw [run_append] at hrun
    cases hw : idle.run w with
    | none => rw [hw] at hrun; cases hrun
    | some s => rfl
  · obtain ⟨s, hs⟩ := Option.isSome_iff_exists.mp h
    obtain ⟨front, part, rfl, hfront, hpart⟩ := exists_part hs
    by_cases hidle : s = idle
    · subst hidle
      exact ⟨[], by rwa [List.append_nil, sentence_iff]⟩
    · obtain ⟨behind, hbehind⟩ := hpart.exists_isStatement hidle
      exact ⟨behind, by rw [List.append_assoc]; exact hfront.append hbehind.sentence⟩

/-- What is expected at a stage. -/
def expected : Stage → Expected
  | idle => .statement
  | terminals => .semicolon
  | type => .identifier
  | typeName => .bracedType
  | typeCode => .semicolon
  | ruleName => .defines
  | symbols => .barOrSemicolon
  | action => .barOrSemicolon

end Stage

/-! ## The reader -/

/-- The stage of the current statement. -/
def Progress.stage : Progress → Stage
  | idle => .idle
  | terminals _ => .terminals
  | type => .type
  | typeName _ _ => .typeName
  | typeCode _ _ => .typeCode
  | ruleName _ => .ruleName
  | ruleSymbols _ _ _ => .symbols
  | ruleAction _ _ _ => .action

namespace Reader

def stage (r : Reader) : Stage := r.progress.stage

theorem stage_completeRules (left : String) (front : List Alternative) (last : Alternative) :
    (r.completeRules left front last).stage = .idle := by
  obtain ⟨first, others, -, hcomplete⟩ := exists_completeRules_eq r left front last
  rw [hcomplete]
  rfl

/-- The reader goes on where the stage does, and else it says what the stage expects. -/
theorem step_cases (r : Reader) (l : Located) :
    (∃ r', r.step l = .ok r' ∧ r.stage.next? l.token = some r'.stage) ∨
      r.step l = .error (.unexpected r.stage.expected (some l)) ∧ r.stage.next? l.token = none := by
  obtain ⟨ss, p⟩ := r
  obtain ⟨x, start, stop⟩ := l
  cases p with
  | ruleSymbols left front symbols =>
    cases x with
    | semicolon => exact .inl ⟨_, rfl, congrArg some (stage_completeRules _ _ _).symm⟩
    | _ => first | exact .inl ⟨_, rfl, rfl⟩ | exact .inr ⟨rfl, rfl⟩
  | ruleAction left front last =>
    cases x with
    | semicolon => exact .inl ⟨_, rfl, congrArg some (stage_completeRules _ _ _).symm⟩
    | _ => first | exact .inl ⟨_, rfl, rfl⟩ | exact .inr ⟨rfl, rfl⟩
  | _ => cases x <;> first | exact .inl ⟨_, rfl, rfl⟩ | exact .inr ⟨rfl, rfl⟩

/-- The reader goes on up to a token that cannot come next. -/
theorem foldlM_cases (r : Reader) (ts : List Located) :
    (∃ r', ts.foldlM step r = .ok r' ∧ r.stage.run (ts.map Located.token) = some r'.stage) ∨
      ∃ front l behind s, ts = front ++ l :: behind ∧
        r.stage.run (front.map Located.token) = some s ∧ s.next? l.token = none ∧
          ts.foldlM step r = .error (.unexpected s.expected (some l)) := by
  induction ts generalizing r with
  | nil => exact .inl ⟨r, rfl, rfl⟩
  | cons l ts ih =>
    rw [List.foldlM_cons]
    rcases step_cases r l with ⟨m, hm, hnext⟩ | ⟨hfail, hnone⟩
    · rw [hm]
      have hrun (w : List Token) : r.stage.run (l.token :: w) = m.stage.run w := by
        show (r.stage.next? l.token).bind _ = _
        rw [hnext]
        rfl
      rcases ih m with ⟨r', hr', hstage⟩ | ⟨front, l', behind, s, rfl, hs, hnone, hfail⟩
      · exact .inl ⟨r', hr', (hrun _).trans hstage⟩
      · exact .inr ⟨l :: front, l', behind, s, rfl, (hrun _).trans hs, hnone, hfail⟩
    · rw [hfail]
      exact .inr ⟨[], l, ts, r.stage, rfl, rfl, hnone, rfl⟩

theorem finish_cases (r : Reader) : (r.stage = .idle ∧ ∃ ss, r.finish = .ok ss) ∨
    (∃ name found, r.progress = .typeName name found ∧
      r.finish = .error (.unexpected .bracedType (some found))) ∨
    r.stage ≠ .idle ∧ r.stage ≠ .typeName ∧
      r.finish = .error (.unexpected r.stage.expected none) := by
  obtain ⟨ss, p⟩ := r
  cases p with
  | idle => exact .inl ⟨rfl, _, rfl⟩
  | typeName name found => exact .inr (.inl ⟨name, found, rfl, rfl⟩)
  | _ => exact .inr (.inr ⟨nofun, nofun, rfl⟩)

theorem eq_of_step_typeName {name : String} {found : Located} (h : r.step l = .ok r')
    (hp : r'.progress = .typeName name found) : found = l := by
  have hnext : r.stage.next? l.token = some .typeName := by
    have hstage : r'.stage = .typeName := congrArg Progress.stage hp
    rcases step_cases r l with ⟨r'', h'', hnext⟩ | ⟨hfail, -⟩
    · rw [hnext, ← Except.ok.inj (h.symm.trans h''), hstage]
    · rw [hfail] at h
      cases h
  obtain ⟨ss, p⟩ := r
  obtain ⟨x, start, stop⟩ := l
  cases p with
  | type =>
    cases x <;> cases hnext
    cases h
    cases hp
    rfl
  | _ => cases x <;> cases hnext

/-- The name that the reader remembers is the last token that it has read. -/
theorem getLast?_of_typeName {name : String} {found : Located}
    (h : ts.foldlM step initial = .ok r) (hp : r.progress = .typeName name found) :
    ts.getLast? = some found := by
  cases ts using List.reverseRecOn with
  | nil =>
    cases h
    cases hp
  | append_singleton ts l =>
    rw [List.foldlM_append] at h
    obtain ⟨m, -, hlast⟩ := exists_of_bind_eq_ok h
    obtain ⟨r', hstep, hend⟩ := exists_of_bind_eq_ok hlast
    obtain rfl := Except.ok.inj hend
    rw [List.getLast?_concat, eq_of_step_typeName hstep hp]

end Reader

/-! ## Errors -/

/-- Either all tokens are read and the reader finishes, or one of them cannot come next. -/
theorem readStatements_cases (ts : List Located) :
    (∃ r, ts.foldlM Reader.step .initial = .ok r ∧
      Stage.idle.run (ts.map Located.token) = some r.stage ∧ readStatements ts = r.finish) ∨
    ∃ front l behind s, ts = front ++ l :: behind ∧
      Stage.idle.run (front.map Located.token) = some s ∧ s.next? l.token = none ∧
        readStatements ts = .error (.unexpected s.expected (some l)) := by
  rcases Reader.foldlM_cases .initial ts with
    ⟨r, hr, hrun⟩ | ⟨front, l, behind, s, hts, hs, hnone, hfail⟩
  · refine .inl ⟨r, hr, hrun, ?_⟩
    rw [readStatements, hr]
    rfl
  · refine .inr ⟨front, l, behind, s, hts, hs, hnone, ?_⟩
    rw [readStatements, hfail]
    rfl

/-- The reader accepts the sentences. -/
theorem exists_readStatements_iff :
    (∃ ss, readStatements ts = .ok ss) ↔ Sentence (ts.map Located.token) := by
  rw [Stage.sentence_iff]
  rcases readStatements_cases ts with
    ⟨r, -, hrun, hread⟩ | ⟨front, l, behind, s, rfl, hs, hx, hread⟩
  · rw [hrun, hread]
    rcases r.finish_cases with ⟨hidle, ss, hss⟩ | ⟨name, found, hp, hfinish⟩ | ⟨hidle, -, hfinish⟩
    · simp [hidle, hss]
    · have hstage : r.stage = .typeName := congrArg Progress.stage hp
      simp [hstage, hfinish]
    · simp [hidle, hfinish]
  · rw [hread, List.map_append, List.map_cons, Stage.run_append_cons_of_eq hs hx]
    simp

/-- The tokens end behind the name of a type declaration. -/
def EndsInTypeName (w : List Token) : Prop :=
  ∃ front name, Sentence front ∧ w = front ++ [.typeKeyword, .ident name]

theorem endsInTypeName_iff : EndsInTypeName w ↔ Stage.idle.run w = some .typeName := by
  constructor
  · rintro ⟨front, name, hfront, rfl⟩
    rw [Stage.run_append_of_eq (Stage.run_of_sentence hfront)]
    rfl
  · intro h
    obtain ⟨front, part, rfl, hfront, hpart⟩ := Stage.exists_part h
    cases hpart with
    | typeName name => exact ⟨front, name, hfront, rfl⟩

/-- The message shows where the token stands and what it is, or names the end if there is none. -/
def Blames (e : SourceError) (found : Option Located) : Prop :=
  ∃ expected : Expected, e = .unexpected expected found ∧
    e.message = (found.elim "" fun l => l.start.text ++ ": ") ++ "expected " ++ expected.text ++
      ", found " ++ found.elim "end of input" fun l => l.token.describe

theorem blames_unexpected (expected : Expected) (found : Option Located) :
    Blames (.unexpected expected found) found := by
  refine ⟨expected, rfl, ?_⟩
  cases found with
  | none =>
    have hend : ", found end of input" = ", found " ++ "end of input" := by decide
    simp [SourceError.message, hend, String.append_assoc]
  | some l => simp [SourceError.message, String.append_assoc]

/-- Where an error points, if `k` is the number of the tokens that a sentence can begin with. -/
structure PointsAt (ts : List Located) (e : SourceError) (k : Nat) : Prop where
  furthest : IsGreatest {n | n ≤ ts.length ∧ Viable ((ts.take n).map Located.token)} k
  offender : ¬EndsInTypeName (ts.map Located.token) → Blames e ts[k]?
  typeName : EndsInTypeName (ts.map Located.token) → k = ts.length ∧ ts ≠ [] ∧ Blames e ts.getLast?
  /-- A cursor that goes back and forth in the tokens ends with the same error. -/
  cursor : ∀ limit, ts.length ≤ limit →
    Cursor.statements limit ts (Cursor.turns ts) [] 0 = .error (.source e)

/-- All tokens can be the beginning of a sentence. -/
theorem isGreatest_length (h : Viable (ts.map Located.token)) :
    IsGreatest {n | n ≤ ts.length ∧ Viable ((ts.take n).map Located.token)} ts.length :=
  ⟨⟨Nat.le_refl _, by rwa [List.take_length]⟩, fun _ hn => hn.1⟩

/-- The tokens before one that cannot come next can be, and no more of them. -/
theorem isGreatest_offender {front behind : List Located} {s : Stage}
    (hs : Stage.idle.run (front.map Located.token) = some s) (hx : s.next? l.token = none) :
    IsGreatest {n | n ≤ (front ++ l :: behind).length ∧
      Viable (((front ++ l :: behind).take n).map Located.token)} front.length := by
  refine ⟨⟨by simp, ?_⟩, fun n hn => Nat.not_lt.mp fun hlt => ?_⟩
  · rw [List.take_left, Stage.viable_iff, hs]
    rfl
  · obtain ⟨m, rfl⟩ := Nat.exists_eq_add_of_lt hlt
    have htake : (front ++ l :: behind).take (front.length + m + 1) =
        front ++ l :: behind.take m := by
      rw [Nat.add_assoc, List.take_length_add_append, List.take_succ_cons]
    have hviable := hn.2
    rw [htake, List.map_append, List.map_cons, Stage.viable_iff,
      Stage.run_append_cons_of_eq hs hx] at hviable
    cases hviable

theorem readStatements_pointsAt (h : readStatements ts = .error e) : ∃ k, PointsAt ts e k := by
  have hcursor (limit : Nat) (hlimit : ts.length ≤ limit) :
      Cursor.statements limit ts (Cursor.turns ts) [] 0 = .error (.source e) := by
    rw [Cursor.statements_run hlimit [] (Cursor.lt_turns ts 0)]
    show (readStatements ts).mapError Halt.source = _
    rw [h]
    rfl
  rcases readStatements_cases ts with
    ⟨r, hr, hrun, hread⟩ | ⟨front, l, behind, s, rfl, hs, hx, hread⟩
  · have hfurthest := isGreatest_length (Stage.viable_iff.mpr (by rw [hrun]; rfl))
    rw [hread] at h
    rcases r.finish_cases with ⟨-, ss, hss⟩ | ⟨name, found, hp, hfinish⟩ | ⟨-, hname, hfinish⟩
    · rw [hss] at h
      cases h
    · have hends : EndsInTypeName (ts.map Located.token) := by
        rw [endsInTypeName_iff, hrun]
        exact congrArg (some ∘ Progress.stage) hp
      have hlast := Reader.getLast?_of_typeName hr hp
      obtain rfl := Except.error.inj (hfinish.symm.trans h)
      refine ⟨ts.length, hfurthest, absurd hends, fun _ => ⟨rfl, ?_, ?_⟩, hcursor⟩
      · rintro rfl
        cases hlast
      · rw [hlast]
        exact blames_unexpected _ _
    · have hends : ¬EndsInTypeName (ts.map Located.token) := by
        rw [endsInTypeName_iff, hrun]
        exact fun hstage => hname (Option.some.inj hstage)
      obtain rfl := Except.error.inj (hfinish.symm.trans h)
      refine ⟨ts.length, hfurthest, fun _ => ?_, fun h => absurd h hends, hcursor⟩
      rw [List.getElem?_eq_none (Nat.le_refl _)]
      exact blames_unexpected _ _
  · have hends : ¬EndsInTypeName ((front ++ l :: behind).map Located.token) := by
      rw [endsInTypeName_iff, List.map_append, List.map_cons, Stage.run_append_cons_of_eq hs hx]
      nofun
    obtain rfl := Except.error.inj (hread.symm.trans h)
    refine ⟨front.length, isGreatest_offender hs hx, fun _ => ?_, fun h => absurd h hends, hcursor⟩
    rw [List.getElem?_append_right (Nat.le_refl _), Nat.sub_self, List.getElem?_cons_zero]
    exact blames_unexpected _ _

/-- The tokens of `%type S`, and those of `S a ;`, one character each. -/
def typeNameTokens : List Located :=
  [⟨.typeKeyword, ⟨0, 0, 0⟩, ⟨0, 5, 5⟩⟩, ⟨.ident "S", ⟨0, 6, 6⟩, ⟨0, 7, 7⟩⟩]

def strayTokens : List Located :=
  [⟨.ident "S", ⟨0, 0, 0⟩, ⟨0, 1, 1⟩⟩, ⟨.ident "a", ⟨0, 2, 2⟩, ⟨0, 3, 3⟩⟩,
    ⟨.semicolon, ⟨0, 3, 3⟩, ⟨0, 4, 4⟩⟩]

theorem pointsAt_stray : ∃ e k, readStatements strayTokens = .error e ∧ PointsAt strayTokens e k ∧
    e.message = "1:3: expected `::=', found Ident(\"a\")" := by
  have hread : readStatements strayTokens =
      .error (.unexpected .defines (some ⟨.ident "a", ⟨0, 2, 2⟩, ⟨0, 3, 3⟩⟩)) := by decide +kernel
  obtain ⟨k, hk⟩ := readStatements_pointsAt hread
  exact ⟨_, k, hread, hk, by decide +kernel⟩

/-- Every error points at the first token with which no sentence goes on, or at the end. -/
def PointsAtOffender (ts : List Located) : Prop :=
  ∀ e k, readStatements ts = .error e →
    IsGreatest {n | n ≤ ts.length ∧ Viable ((ts.take n).map Located.token)} k → Blames e ts[k]?

/-- Behind the name of a type declaration the end is missed, and the name is blamed. -/
theorem not_pointsAtOffender : ¬PointsAtOffender typeNameTokens := by
  intro hpoints
  have hread : readStatements typeNameTokens = .error
      (.unexpected .bracedType (some ⟨.ident "S", ⟨0, 6, 6⟩, ⟨0, 7, 7⟩⟩)) := by decide +kernel
  have hviable : Viable (typeNameTokens.map Located.token) :=
    ⟨[.code "", .semicolon], (IsStatement.type "S" "").sentence⟩
  obtain ⟨expected, heq, -⟩ := hpoints _ _ hread (isGreatest_length hviable)
  cases heq

end ShiftReduce.Source
