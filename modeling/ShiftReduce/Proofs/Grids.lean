import ShiftReduce.Proofs.Columns
import ShiftReduce.Proofs.NameKinds
import ShiftReduce.Proofs.Reading
import ShiftReduce.Proofs.Tables

/-!
# The grid of a table is faithful

The names of a source are identifiers, so they hold no fillers, and neither do the actions and the
numbers of states. Therefore the grid of a table is read again, and what it shows can be told from
it: the names of the columns, the actions and the successors.
-/

namespace ShiftReduce

/-! ## Identifiers -/

namespace Text

/-- The code points of a list of ranges. -/
def points (ranges : List (Nat × Nat)) : List Nat :=
  ranges.flatMap fun r => List.range' r.1 (r.2 + 1 - r.1)

theorem mem_points_of_inRanges {n : Nat} {ranges : List (Nat × Nat)}
    (h : inRanges n ranges = true) : n ∈ points ranges := by
  induction ranges with
  | nil => cases h
  | cons r ranges ih =>
    rw [points, List.flatMap_cons, List.mem_append]
    unfold inRanges at h
    by_cases hlow : n < r.1
    · rw [if_pos hlow] at h
      cases h
    · rw [if_neg hlow, Bool.or_eq_true, decide_eq_true_eq] at h
      refine h.imp (fun hhigh => ?_) ih
      rw [List.mem_range'_1]
      omega

/-- No blank goes on with an identifier. -/
theorem isIdentifierContinue_of_isBlank {c : Char} (h : isBlank c = true) :
    isIdentifierContinue c = false := by
  have hall : (points blankRanges).all (fun n => !(inRanges n identifierStartRanges ||
      inRanges n identifierExtendRanges)) = true := by decide +kernel
  have hc := List.all_eq_true.mp hall _ (mem_points_of_inRanges h)
  rwa [Bool.not_eq_true'] at hc

end Text

namespace Source

variable {cc : CharClass} {ss : List Statement} {source name : String} {cs : List Char}

theorem IsIdentifier.ne_nil (h : IsIdentifier cc cs) : cs ≠ [] := by
  rintro rfl
  exact h

theorem isFiller_eq_false {c : Char} (h : Text.isIdentifierContinue c = true) :
    Grid.isFiller c = false := by
  have hblank : Text.isBlank c = false := by
    by_contra hblank
    rw [Text.isIdentifierContinue_of_isBlank (Bool.eq_true_of_not_eq_false hblank)] at h
    cases h
  have hbar : c ≠ '|' := by
    rintro rfl
    exact absurd h (by decide +kernel)
  simp [Grid.isFiller, hblank, hbar]

theorem IsIdentifier.solid (h : IsIdentifier .unicode cs) : Grid.Solid cs := by
  cases cs with
  | nil => exact h.elim
  | cons c run =>
    obtain ⟨hstart, hrun⟩ := h
    have hc : Text.isIdentifierContinue c = true := by
      rw [Text.isIdentifierContinue, Bool.or_eq_true]
      exact .inl hstart
    exact List.forall_mem_cons.mpr ⟨isFiller_eq_false hc,
      fun d hd => isFiller_eq_false (List.all_eq_true.mp hrun d hd)⟩

/-- The identifiers among the tokens of a source are identifiers. -/
theorem isIdentifier_of_mem_tokens (h : parse cc source = .ok ss) {s : Statement} (hs : s ∈ ss)
    (hname : .ident name ∈ s.tokens) : IsIdentifier cc name.toList := by
  obtain ⟨-, hwritten⟩ := parse_eq_ok_iff.mp h
  have hmem : .ident name ∈ (lex cc source).tokens.map Located.token := by
    rw [hwritten]
    exact List.mem_flatMap.mpr ⟨s, hs, hname⟩
  obtain ⟨l, hl, htoken⟩ := List.mem_map.mp hmem
  obtain ⟨behind, -, -, hcomplete⟩ := (lex_partition cc source).tokens l hl
  rw [htoken] at hcomplete
  obtain ⟨c, run, heq, hstart, hrun⟩ := hcomplete.letters
  rw [heq]
  exact ⟨hstart, List.all_eq_true.mpr hrun⟩

theorem isIdentifier_of_declares (h : parse cc source = .ok ss) (hname : Declares ss name) :
    IsIdentifier cc name.toList := by
  obtain ⟨names, hs, hmem⟩ := hname
  refine isIdentifier_of_mem_tokens h hs ?_
  simp [Statement.tokens, hmem]

theorem isIdentifier_of_types (h : parse cc source = .ok ss) (hname : Types ss name) :
    IsIdentifier cc name.toList := by
  obtain ⟨code, hs⟩ := hname
  exact isIdentifier_of_mem_tokens h hs (by simp [Statement.tokens])

theorem isIdentifier_of_defines (h : parse cc source = .ok ss) (hname : Defines ss name) :
    IsIdentifier cc name.toList := by
  obtain ⟨first, others, hs⟩ := hname
  exact isIdentifier_of_mem_tokens h hs (by simp [Statement.tokens])

theorem isIdentifier_of_uses (h : parse cc source = .ok ss) (hname : Uses ss name) :
    IsIdentifier cc name.toList := by
  obtain ⟨left, first, others, hs, a, ha, hmem⟩ := hname
  refine isIdentifier_of_mem_tokens h hs ?_
  have htoken : .ident name ∈ a.tokens := by simp [Alternative.tokens, hmem]
  rcases List.mem_cons.mp ha with rfl | ha
  · simp [Statement.tokens, htoken]
  · have hothers : .ident name ∈ others.flatMap fun a => .bar :: a.tokens :=
      List.mem_flatMap.mpr ⟨a, ha, List.mem_cons_of_mem _ htoken⟩
    simp [Statement.tokens, hothers]

end Source

namespace Grammar

open Source

/-- The names of a source are identifiers, of whichever kind they are. -/
theorem isIdentifier_of_load {cc : CharClass} {source name : String} {g : Grammar}
    (h : load cc source = .ok g) (hname : name ∈ g.terminals ∨ name ∈ g.intermediates) :
    IsIdentifier cc name.toList := by
  obtain ⟨ss, hss⟩ := exists_parse_of_load h
  have harranged := arranged_ofStatements (ofStatements_of_load hss h)
  rcases hname with hname | hname
  · exact isIdentifier_of_declares hss (harranged.mem_terminals.mp hname)
  · rcases harranged.mem_intermediates.mp hname with htyped | hdefined | ⟨hused, -⟩
    · exact isIdentifier_of_types hss htyped
    · exact isIdentifier_of_defines hss hdefined
    · exact isIdentifier_of_uses hss hused

end Grammar

/-! ## Cells -/

theorem toDigits_injective : Function.Injective (Nat.toDigits 10) := by
  intro m n h
  have hvalue := congrArg (Nat.ofDigitChars 10 · 0) h
  simpa using hvalue

theorem solid_toString (n : Nat) : Grid.Solid (toString n).toList := by
  intro c hc
  have hdigit : c.isDigit = true := by
    rw [Nat.toString_eq_repr, Nat.toList_repr] at hc
    exact Nat.isDigit_of_mem_toDigits (by decide) (by decide) hc
  obtain ⟨hlow, hhigh⟩ := Char.isDigit_iff_toNat.mp hdigit
  have hblank : Text.isBlank c = false := by
    have hlow' : 48 ≤ c.toNat := hlow
    have hhigh' : c.toNat ≤ 57 := hhigh
    simp [Text.isBlank, Text.blankRanges, Text.inRanges]
    omega
  have hbar : c ≠ '|' := by
    rintro rfl
    exact absurd hhigh (by decide)
  simp [Grid.isFiller, hblank, hbar]

namespace Action

theorem solid_cell (a : Action) : Grid.Solid a.cell.toList := by
  cases a with
  | shift id =>
    rw [cell, String.toList_append]
    exact .append (by decide) (solid_toString id)
  | reduce r =>
    rw [cell, String.toList_append]
    exact .append (by decide) (solid_toString r)
  | accept => decide
  | error => decide

theorem cell_injective : Function.Injective cell := by
  intro a b h
  have hlist := congrArg String.toList h
  cases a <;> cases b <;> simp [cell] at hlist ⊢
  all_goals exact toDigits_injective hlist

end Action

namespace Table

variable {t t' : Table} {g : Grammar} {config : Config} {source : String} {i : StateId}
  {s : State}

/-- What a cell says of a successor. -/
theorem gotoCell_eq (s : State) (name : String) :
    gotoCell s name = (s.goto? name).elim "" toString := by
  unfold gotoCell
  cases s.goto? name <;> rfl

theorem solid_elim (next : Option StateId) : Grid.Solid (next.elim "" toString).toList := by
  cases next with
  | none => decide
  | some id => exact solid_toString id

theorem elim_injective : Function.Injective fun next : Option StateId => next.elim "" toString := by
  intro a b h
  have hlist := congrArg String.toList h
  cases a <;> cases b <;> simp at hlist ⊢
  exact toDigits_injective hlist

/-! ## The rows of a table -/

/-- The names of the columns are identifiers. -/
def Named (t : Table) : Prop :=
  ∀ name ∈ t.terminalColumns ++ t.intermediateColumns,
    Source.IsIdentifier .unicode name.toList

theorem mem_terminalColumns {name : String} :
    name ∈ t.terminalColumns ↔ name ∈ t.grammar.terminals ∨ name = t.config.endOfInput := by
  rw [terminalColumns, State.inputs, OrderedSet.mem_toList, OrderedSet.mem_insert]

theorem named_of_load (h : Grammar.load .unicode source = .ok t.grammar)
    (he : Source.IsIdentifier .unicode t.config.endOfInput.toList) : t.Named := by
  intro name hname
  rcases List.mem_append.mp hname with hname | hname
  · rcases mem_terminalColumns.mp hname with hname | rfl
    · exact Grammar.isIdentifier_of_load h (.inl hname)
    · exact he
  · exact Grammar.isIdentifier_of_load h (.inr (List.mem_filter.mp hname).1)

/-- The rows below the header. -/
def rows (t : Table) : List (List String) := t.states.toList.mapIdx t.row

theorem getElem?_rows (i : StateId) : t.rows[i]? = t.states[i]?.map (t.row i) := by
  rw [rows, List.getElem?_mapIdx, Array.getElem?_toList]

theorem length_rows (t : Table) : t.rows.length = t.size := List.length_mapIdx

theorem Named.tabular (h : t.Named) :
    Grid.Tabular (t.terminalColumns ++ t.intermediateColumns) t.rows where
  named name hname hempty := (h name hname).ne_nil (by rw [hempty]; rfl)
  solidNames name hname := (h name hname).solid
  solid row hrow := by
    obtain ⟨i, hi⟩ := List.getElem?_of_mem hrow
    rw [getElem?_rows] at hi
    obtain ⟨s, -, rfl⟩ := Option.map_eq_some_iff.mp hi
    intro cell hcell
    rw [row, List.cons_append, List.mem_cons, List.mem_append, List.mem_map, List.mem_map] at hcell
    rcases hcell with rfl | ⟨x, -, rfl⟩ | ⟨x, -, rfl⟩
    · exact solid_toString i
    · exact Action.solid_cell _
    · rw [gotoCell_eq]
      exact solid_elim _
  length row hrow := by
    obtain ⟨i, hi⟩ := List.getElem?_of_mem hrow
    rw [getElem?_rows] at hi
    obtain ⟨s, -, rfl⟩ := Option.map_eq_some_iff.mp hi
    simp [Table.row]

theorem Named.read_grid (h : t.Named) : Grid.read t.grid = t.header :: t.rows :=
  h.tabular.read_render (Nat.succ_ne_zero _)

/-- The header of the grid. -/
def headerLine (t : Table) : String :=
  Grid.rowText (t.terminalColumns.length + 1)
    (Grid.columnWidths ((t.header :: t.rows).map (·.map String.toList)))
    (t.header.map String.toList)

theorem Named.columnsBeforeBar (h : t.Named) :
    Grid.columnsBeforeBar t.headerLine.toList = t.terminalColumns.length + 1 := by
  have hfits : Grid.Fits (Grid.columnWidths ((t.header :: t.rows).map (·.map String.toList)))
      ([] :: t.terminalColumns.map String.toList ++ t.intermediateColumns.map String.toList) := by
    simpa [header] using h.tabular.fits List.mem_cons_self
  have hnames (name : String) (hname : name ∈ t.terminalColumns) :=
    h name (List.mem_append_left _ hname)
  have hcount := Grid.columnsBeforeBar_rowText hfits
    (List.forall_mem_map.mpr fun name hname => (hnames name hname).solid)
    (List.forall_mem_map.mpr fun name hname => (hnames name hname).ne_nil)
  rw [List.length_map] at hcount
  rw [headerLine, header, List.map_append]
  exact hcount

/-! ## What the grid shows -/

/-- A table that has been built for a source, with an identifier as the end of input. -/
structure OfSource (t : Table) : Prop where
  loaded : ∃ source, Grammar.load .unicode source = .ok t.grammar
  endOfInput : Source.IsIdentifier .unicode t.config.endOfInput.toList
  built : build t.grammar t.config = .ok t

/-- Two tables have the same columns, and the same actions and successors in them. -/
structure SameEntries (t t' : Table) : Prop where
  terminals : t'.terminalColumns = t.terminalColumns
  intermediates : t'.intermediateColumns = t.intermediateColumns
  size : t'.size = t.size
  action : ∀ i < t.size, ∀ x ∈ t.terminalColumns, t'.action i x = t.action i x
  goto : ∀ i < t.size, ∀ x ∈ t.intermediateColumns, t'.goto? i x = t.goto? i x

/-- The line shows the state `i`, if it is cut at the given places. -/
def Shows (t : Table) (places : List Nat) (i : StateId) (line : String) : Prop :=
  ∃ actions nexts, t.terminalColumns.mapM (t.action i) = .ok actions ∧
    t.intermediateColumns.mapM (t.goto? i) = .ok nexts ∧
    Grid.cells places line.toList =
      toString i :: actions.map Action.cell ++ nexts.map fun next => next.elim "" toString

/-- The grid of a table gives back the columns, the actions and the successors. -/
structure Faithful (t : Table) : Prop where
  terminals : t.terminalColumns = t.grammar.terminals.toList ++
    if t.config.endOfInput ∈ t.grammar.terminals then [] else [t.config.endOfInput]
  intermediates : t.intermediateColumns = t.grammar.intermediates.toList.filter (· ≠ startName)
  /-- The grid is the part of the dump between its headline and an empty line. -/
  dump : ∃ before after, t.dump = Text.lines
    (before ++ ("## " ++ t.config.method.text ++ " table") :: t.grid ++ "" :: "## states" :: after)
  unbroken : ∀ line ∈ t.grid, '\n' ∉ line.toList
  /-- All lines are cut at the places where the words of the header begin. -/
  cut : ∃ header lines, t.grid = header :: lines ∧ lines.length = t.size ∧
    Grid.cells (Grid.offsets header.toList) header.toList =
      "" :: t.terminalColumns ++ t.intermediateColumns ∧
    ∀ i < t.size, ∃ line, lines[i]? = some line ∧ t.Shows (Grid.offsets header.toList) i line
  determines : ∀ t', t'.OfSource → t'.grid = t.grid → SameEntries t t'

theorem terminalColumns_eq (t : Table) : t.terminalColumns = t.grammar.terminals.toList ++
    if t.config.endOfInput ∈ t.grammar.terminals then [] else [t.config.endOfInput] := by
  rw [terminalColumns, State.inputs]
  split
  case isTrue hmem => rw [OrderedSet.insert_of_mem hmem, List.append_nil]
  case isFalse hnot => rw [OrderedSet.toList_insert_of_not_mem hnot]

theorem action_eq (hs : t.states[i]? = some s) (x : String) :
    t.action i x = .ok (s.action x t.config.endOfInput) := by
  simp only [action, state, hs]
  rfl

theorem goto?_eq (hs : t.states[i]? = some s) (x : String) : t.goto? i x = .ok (s.goto? x) := by
  simp only [goto?, state, hs]
  rfl

/-- The lines of the grid, with the cells that they have when they are cut. -/
theorem Named.exists_grid (h : t.Named) : ∃ lines, t.grid = t.headerLine :: lines ∧
    Grid.cells (Grid.offsets t.headerLine.toList) t.headerLine.toList = t.header ∧
    lines.map (fun line => Grid.cells (Grid.offsets t.headerLine.toList) line.toList) = t.rows := by
  have hgrid : ∃ lines, t.grid = t.headerLine :: lines := ⟨_, Grid.render_eq _ _⟩
  obtain ⟨lines, hlines⟩ := hgrid
  have hread := h.read_grid
  rw [hlines, Grid.read, List.map_cons] at hread
  obtain ⟨hheader, hrows⟩ := List.cons.inj hread
  exact ⟨lines, hlines, hheader, hrows⟩

theorem row_eq (t : Table) (i : StateId) (s : State) :
    t.row i s = toString i ::
      (t.terminalColumns.map fun x => s.action x t.config.endOfInput).map Action.cell ++
      (t.intermediateColumns.map s.goto?).map fun next => next.elim "" toString := by
  rw [row, List.map_map, List.map_map]
  congr 2
  exact funext fun name => gotoCell_eq s name

theorem shows_of_cells {places : List Nat} {line : String} (hs : t.states[i]? = some s)
    (hline : Grid.cells places line.toList = t.row i s) : t.Shows places i line := by
  refine ⟨_, _, ?_, ?_, hline.trans (t.row_eq i s)⟩
  · rw [funext (action_eq hs)]
    exact List.mapM_pure
  · rw [funext (goto?_eq hs)]
    exact List.mapM_pure

theorem exists_shows {lines : List String}
    (hrows : lines.map (fun line => Grid.cells (Grid.offsets t.headerLine.toList) line.toList) =
      t.rows) (hi : i < t.size) :
    ∃ line, lines[i]? = some line ∧ t.Shows (Grid.offsets t.headerLine.toList) i line := by
  have hs : t.states[i]? = some t.states[i] := Array.getElem?_eq_getElem hi
  have hrow : t.rows[i]? = some (t.row i t.states[i]) := by rw [getElem?_rows, hs, Option.map_some]
  rw [← hrows, List.getElem?_map, Option.map_eq_some_iff] at hrow
  obtain ⟨line, hline, hcells⟩ := hrow
  exact ⟨line, hline, shows_of_cells hs hcells⟩

/-- Rows that are the same come from the same actions and successors. -/
theorem row_inj {s' : State} (hterminals : t'.terminalColumns = t.terminalColumns)
    (hintermediates : t'.intermediateColumns = t.intermediateColumns)
    (h : t'.row i s' = t.row i s) :
    (∀ x ∈ t.terminalColumns,
      s'.action x t'.config.endOfInput = s.action x t.config.endOfInput) ∧
    ∀ x ∈ t.intermediateColumns, s'.goto? x = s.goto? x := by
  rw [row_eq, row_eq, hterminals, hintermediates, List.cons_append, List.cons_append] at h
  obtain ⟨hactions, hnexts⟩ := List.append_inj (List.cons.inj h).2 (by simp)
  exact ⟨List.map_inj_left.mp (List.map_injective_iff.mpr Action.cell_injective hactions),
    List.map_inj_left.mp (List.map_injective_iff.mpr elim_injective hnexts)⟩

/-- Tables with the same grid have the same entries. -/
theorem Named.sameEntries (h : t.Named) (h' : t'.Named) (hgrid : t'.grid = t.grid) :
    SameEntries t t' := by
  obtain ⟨lines, hlines, hheader, hrows⟩ := h.exists_grid
  obtain ⟨lines', hlines', hheader', hrows'⟩ := h'.exists_grid
  rw [hlines, hlines'] at hgrid
  obtain ⟨hline, rfl⟩ := List.cons.inj hgrid
  rw [hline] at hheader' hrows'
  have hcount : t'.terminalColumns.length = t.terminalColumns.length := by
    have hbar := h'.columnsBeforeBar
    rw [hline, h.columnsBeforeBar] at hbar
    exact (Nat.succ.inj hbar).symm
  obtain ⟨hterminals, hintermediates⟩ :=
    List.append_inj (List.cons.inj (hheader'.symm.trans hheader)).2 hcount
  have hrows : t'.rows = t.rows := hrows'.symm.trans hrows
  have hsize : t'.size = t.size := by rw [← length_rows, hrows, length_rows]
  have hentries (i : StateId) (hi : i < t.size) :
      (∀ x ∈ t.terminalColumns, t'.action i x = t.action i x) ∧
        ∀ x ∈ t.intermediateColumns, t'.goto? i x = t.goto? i x := by
    have hi' : i < t'.size := hsize ▸ hi
    have hs : t.states[i]? = some t.states[i] := Array.getElem?_eq_getElem hi
    have hs' : t'.states[i]? = some t'.states[i] := Array.getElem?_eq_getElem hi'
    have hrow : t'.row i t'.states[i] = t.row i t.states[i] := by
      have heq : t'.rows[i]? = t.rows[i]? := by rw [hrows]
      rw [getElem?_rows, getElem?_rows, hs, hs'] at heq
      exact Option.some.inj heq
    obtain ⟨hactions, hnexts⟩ := row_inj hterminals hintermediates hrow
    refine ⟨fun x hx => ?_, fun x hx => ?_⟩
    · rw [action_eq hs, action_eq hs', hactions x hx]
    · rw [goto?_eq hs, goto?_eq hs', hnexts x hx]
  exact ⟨hterminals, hintermediates, hsize, fun i hi => (hentries i hi).1,
    fun i hi => (hentries i hi).2⟩

theorem OfSource.named (h : t.OfSource) : t.Named := by
  obtain ⟨source, hsource⟩ := h.loaded
  exact named_of_load hsource h.endOfInput

/-- The grid of a table that is built for a source is faithful, in every method. -/
theorem faithful_of_build {method : Method} {endOfInput : String}
    (h : Grammar.load .unicode source = .ok g)
    (he : Source.IsIdentifier .unicode endOfInput.toList)
    (ht : build g ⟨method, endOfInput⟩ = .ok t) : t.Faithful := by
  obtain rfl := grammar_of_build ht
  have hconfig := config_of_build ht
  have hnamed : t.Named := named_of_load h (by rw [hconfig]; exact he)
  obtain ⟨lines, hlines, hheader, hrows⟩ := hnamed.exists_grid
  constructor
  case terminals => exact t.terminalColumns_eq
  case intermediates => rfl
  case dump =>
    refine ⟨"## rules" :: t.grammar.rules.map ruleLine ++ [""],
      (t.states.toList.mapIdx stateLines).flatten, ?_⟩
    simp [dump]
  case unbroken =>
    intro line hline
    rw [grid, Grid.render_eq] at hline
    obtain ⟨row, hrow, rfl⟩ := List.mem_map.mp hline
    exact Grid.lineFeed_not_mem_rowText (hnamed.tabular.solid_row hrow)
  case cut =>
    refine ⟨t.headerLine, lines, hlines, ?_, hheader, fun i hi => exists_shows hrows hi⟩
    rw [← length_rows, ← hrows, List.length_map]
  case determines => exact fun t' h' hgrid => hnamed.sameEntries h'.named hgrid

/-- A source with a name of a letter that takes two bytes. -/
def sampleSource : String := "START ::= é1 | ; é1 ::= a é1 | ; %token a;"

theorem faithful_sample : ∃ g t, Grammar.load .unicode sampleSource = .ok g ∧
    Source.IsIdentifier .unicode "end".toList ∧ build g ⟨.lalr1, "end"⟩ = .ok t ∧
    t.grid = ["  a  end | é1", "0 S2 R4  | 1", "1    ACC |", "2 S2 R4  | 3", "3    R3  |"] ∧
    t.Faithful := by
  obtain ⟨g, hg, hbuilt⟩ := exists_of_map_eq_ok (x := Grammar.load .unicode sampleSource)
    (f := fun g => (build g ⟨.lalr1, "end"⟩).map grid)
    (b := .ok ["  a  end | é1", "0 S2 R4  | 1", "1    ACC |", "2 S2 R4  | 3", "3    R3  |"])
    (by decide +kernel)
  obtain ⟨t, ht, hgrid⟩ := exists_of_map_eq_ok hbuilt
  have he : Source.IsIdentifier .unicode "end".toList := by decide +kernel
  exact ⟨g, t, hg, he, ht, hgrid, faithful_of_build hg he ht⟩

end Table

end ShiftReduce
