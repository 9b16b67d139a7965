import Mathlib.Data.List.Infix
import ShiftReduce.CommandLine
import ShiftReduce.Proofs.Ledger
import ShiftReduce.Proofs.Loading
import ShiftReduce.Proofs.Tables

/-!
# Reports

What the program says about a source that can be loaded. If a table is built, every diagnostic of
the grammar and of the table stands on a line of its own, in the order in which they are found, and
the program succeeds if there is none. If no table is built, the program says why, and what the
check of the grammar has found is not reported.
-/

namespace ShiftReduce

/-! ## Lines -/

/-- Between line ends `text` has the text `entry`. -/
def HoldsLine (text entry : String) : Prop :=
  ∃ before after, text = before ++ entry ++ "\n" ++ after ∧
    (before = "" ∨ ∃ start, before = start ++ "\n")

theorem HoldsLine.append {text entry : String} (h : HoldsLine text entry) (rest : String) :
    HoldsLine (text ++ rest) entry := by
  obtain ⟨before, after, rfl, hbefore⟩ := h
  exact ⟨before, after ++ rest, String.append_assoc, hbefore⟩

theorem HoldsLine.isInfix {text entry : String} (h : HoldsLine text entry) :
    entry.toList <:+: text.toList := by
  obtain ⟨before, after, rfl, -⟩ := h
  refine ⟨before.toList, "\n".toList ++ after.toList, ?_⟩
  simp only [String.toList_append, List.append_assoc]

namespace Diagnostic

/-- The line that reports a diagnostic. -/
def line (d : Diagnostic) : String := "error: " ++ d.message

theorem report_append (ds es : List Diagnostic) : report (ds ++ es) = report ds ++ report es := by
  rw [report, List.map_append, String.join_append]
  rfl

theorem report_cons (d : Diagnostic) (ds : List Diagnostic) :
    report (d :: ds) = d.line ++ "\n" ++ report ds := by
  rw [report, List.map_cons, String.join_cons]
  rfl

/-- A report is empty or ends with a line end. -/
theorem report_closed (ds : List Diagnostic) :
    report ds = "" ∨ ∃ start, report ds = start ++ "\n" := by
  rcases List.eq_nil_or_concat' ds with rfl | ⟨front, d, rfl⟩
  · exact .inl rfl
  · refine .inr ⟨report front ++ d.line, ?_⟩
    rw [report_append, report_cons, ← String.append_assoc, ← String.append_assoc]
    exact String.append_empty

theorem holdsLine_report {d : Diagnostic} {ds : List Diagnostic} (h : d ∈ ds) :
    HoldsLine (report ds) d.line := by
  obtain ⟨front, rest, rfl⟩ := List.append_of_mem h
  refine ⟨report front, report rest, ?_, report_closed front⟩
  rw [report_append, report_cons]
  simp only [String.append_assoc]

end Diagnostic

namespace CommandLine

/-! ## What is reported -/

/-- Every problem that is found is reported: those of the grammar, and behind them those of the
table if there is one. -/
structure ReportsAll (o : Options) (g : Grammar) (out : Outcome) : Prop where
  grammar : ∀ d ∈ g.check, HoldsLine out.stderr d.line
  table : ∀ t, Table.build g o.config = .ok t → (∀ d ∈ t.check, HoldsLine out.stderr d.line) ∧
    ∃ rest, out.stderr = Diagnostic.report (g.check ++ t.check) ++ rest
  exit : out.exit = 0 ↔
    ∃ t, Table.build g o.config = .ok t ∧ g.check = [] ∧ t.check = []

/-- What the program does with a grammar. -/
structure Reports (o : Options) (g : Grammar) (out : Outcome) : Prop where
  built : ∀ t, Table.build g o.config = .ok t →
    ReportsAll o g out ∧ out.stdout = t.dump ++ "\n"
  exit : out.exit = 0 ↔
    ∃ t, Table.build g o.config = .ok t ∧ g.check = [] ∧ t.check = []
  /-- Without rule 1 there is something to report, but nothing except the failure is. -/
  startless : g.start? = none → .missingStartRule startName ∈ g.check ∧
    out = failed o.path "" "" [(BuildError.missingStartRule startName).message]
  /-- With rule 1 the table is built, unless there are too many states. -/
  crowded : g.start?.isSome → (∀ t, Table.build g o.config ≠ .ok t) →
    (Setup.new g o.config).Crowded ∧ out = aborted .tooManyStates

variable {o : Options} {source : String} {g : Grammar} {t : Table}

theorem process_of_build (h : Grammar.load .unicode source = .ok g)
    (ht : Table.build g o.config = .ok t) : process o (.ok source) = present o.path t := by
  simp only [process, h, ht]

theorem process_of_error (h : Grammar.load .unicode source = .ok g) {e : BuildError}
    (he : Table.build g o.config = .error e) :
    process o (.ok source) =
      match e with
      | .fault f => aborted f
      | .missingStartRule _ => failed o.path "" "" [e.message] := by
  cases e <;> simp only [process, h, he]

theorem exit_ne_zero_of_error (h : Grammar.load .unicode source = .ok g) {e : BuildError}
    (he : Table.build g o.config = .error e) : (process o (.ok source)).exit ≠ 0 := by
  rw [process_of_error h he]
  cases e with
  | fault f => exact Nat.succ_ne_zero 100
  | missingStartRule name => exact Nat.succ_ne_zero 0

/-- What is wrong with a grammar and its table is printed first, each in its line. -/
theorem present_eq (path : String) (t : Table) : ∃ rest,
    present path t = ⟨if t.grammar.check ++ t.check = [] then 0 else 1, t.dump ++ "\n",
      Diagnostic.report (t.grammar.check ++ t.check) ++ rest⟩ := by
  unfold present
  by_cases hnone : t.grammar.check ++ t.check = []
  · rw [if_pos hnone, if_pos hnone, hnone]
    exact ⟨"", rfl⟩
  · rw [if_neg hnone, if_neg hnone]
    exact ⟨_, rfl⟩

/-- With a table everything is reported. -/
theorem reportsAll_of_build (h : Grammar.load .unicode source = .ok g)
    (ht : Table.build g o.config = .ok t) :
    ReportsAll o g (process o (.ok source)) ∧
      (process o (.ok source)).stdout = t.dump ++ "\n" := by
  have hg : t.grammar = g := Table.grammar_of_build ht
  obtain ⟨rest, hout⟩ := present_eq o.path t
  rw [process_of_build h ht, hout, hg]
  have hline (d : Diagnostic) (hd : d ∈ g.check ++ t.check) :
      HoldsLine (Diagnostic.report (g.check ++ t.check) ++ rest) d.line :=
    (Diagnostic.holdsLine_report hd).append rest
  have honly {t' : Table} (ht' : Table.build g o.config = .ok t') : t = t' :=
    Except.ok.inj (ht.symm.trans ht')
  refine ⟨⟨fun d hd => hline d (List.mem_append_left _ hd), ?_, ?_⟩, rfl⟩
  · intro t' ht'
    obtain rfl := honly ht'
    exact ⟨fun d hd => hline d (List.mem_append_right _ hd), rest, rfl⟩
  · show (if g.check ++ t.check = [] then 0 else 1) = 0 ↔ _
    constructor
    · intro hexit
      by_cases hnone : g.check ++ t.check = []
      · exact ⟨t, ht, List.append_eq_nil_iff.mp hnone⟩
      · rw [if_neg hnone] at hexit
        cases hexit
    · rintro ⟨t', ht', hnone⟩
      obtain rfl := honly ht'
      rw [if_pos (List.append_eq_nil_iff.mpr hnone)]

/-- A source without a rule for the start symbol has a problem. -/
theorem missingStartRule_mem_check (h : Grammar.load .unicode source = .ok g)
    (hg : g.start? = none) : .missingStartRule startName ∈ g.check := by
  obtain ⟨edits, rfl⟩ := Grammar.exists_edits_of_load h
  have hnone := (Ledger.agrees_ofEdits edits).begins hg
  refine List.mem_append_left _ ?_
  unfold Grammar.startDiagnostics
  rw [hnone]
  exact List.mem_singleton_self _

theorem process_reports (h : Grammar.load .unicode source = .ok g) (o : Options) :
    Reports o g (process o (.ok source)) := by
  constructor
  case built => exact fun t ht => reportsAll_of_build h ht
  case exit =>
    cases ht : Table.build g o.config with
    | error e =>
      constructor
      · exact fun hexit => absurd hexit (exit_ne_zero_of_error h ht)
      · rintro ⟨t, ht', -⟩
        cases ht'
    | ok t =>
      rw [← ht]
      exact (reportsAll_of_build h ht).1.exit
  case startless =>
    intro hg
    exact ⟨missingStartRule_mem_check h hg, process_of_error h (Table.build_of_startless hg o.config)⟩
  case crowded =>
    intro hsome hnot
    obtain ⟨p, hp⟩ := Option.isSome_iff_exists.mp hsome
    have hstart : g.startRule = .ok ⟨p, startId⟩ := by
      unfold Grammar.startRule
      rw [hp]
    rcases Table.build_cases hstart o.config with ⟨herror, hcrowded⟩ | ⟨t, ht⟩
    · exact ⟨hcrowded, process_of_error h herror⟩
    · exact absurd ht (hnot t)

/-- `START ::= | ;` is reported to have two rules, and no type. -/
theorem reports_two_rules : ∃ g, Grammar.load .unicode "START ::= | ;" = .ok g ∧
    Reports ⟨.default, "grammar.lrg"⟩ g (process ⟨.default, "grammar.lrg"⟩ (.ok "START ::= | ;")) ∧
    g.check = [.duplicateStartRule startName 2, .missingType startName] := by
  obtain ⟨g, hg, hcheck⟩ := exists_of_map_eq_ok (x := Grammar.load .unicode "START ::= | ;")
    (f := Grammar.check) (b := [.duplicateStartRule startName 2, .missingType startName])
    (by decide +kernel)
  exact ⟨g, hg, process_reports hg _, hcheck⟩

/-- Nothing says that the start rule is missing and that `S` has no type but the failure. -/
theorem not_reportsAll_startless : ∃ g, Grammar.load .unicode "S ::= ;" = .ok g ∧
    g.check = [.missingStartRule startName, .missingType "S"] ∧
    (process ⟨.default, "grammar.lrg"⟩ (.ok "S ::= ;")).stderr =
      failureText "grammar.lrg" ["the grammar has no start rule `START'"] ∧
    ¬ReportsAll ⟨.default, "grammar.lrg"⟩ g
      (process ⟨.default, "grammar.lrg"⟩ (.ok "S ::= ;")) := by
  obtain ⟨g, hg, hcheck⟩ := exists_of_map_eq_ok (x := Grammar.load .unicode "S ::= ;")
    (f := Grammar.check) (b := [.missingStartRule startName, .missingType "S"]) (by decide +kernel)
  have hstderr : (process ⟨.default, "grammar.lrg"⟩ (.ok "S ::= ;")).stderr =
      failureText "grammar.lrg" ["the grammar has no start rule `START'"] := by decide +kernel
  refine ⟨g, hg, hcheck, hstderr, fun hall => ?_⟩
  have hline := (hall.grammar (.missingType "S") (by simp [hcheck])).isInfix
  rw [hstderr] at hline
  exact absurd hline (by decide +kernel)

end CommandLine

end ShiftReduce
