import Mathlib.Data.List.Forall2
import ShiftReduce.Table.Columns

/-!
# Grids are read again

A column is as wide as its widest cell, so every line has its cells at the same places, and there
stand the words of the first line. Cells hold no fillers, so what fills a piece up to the next cell
can be told from the cell; and what is trimmed from a line are fillers too.
-/

namespace ShiftReduce.Grid

variable {cs ds fill cell before front piece behind : List Char} {row : List (List Char)}
  {widths : List Nat} {place start stop bar column w : Nat}

/-! ## Fillers -/

/-- A text without fillers. -/
def Solid (cs : List Char) : Prop := ∀ c ∈ cs, isFiller c = false

instance (cs : List Char) : Decidable (Solid cs) :=
  decidable_of_iff (cs.all (!isFiller ·) = true) (by simp [Solid])

/-- A text of fillers. -/
def Filling (cs : List Char) : Prop := ∀ c ∈ cs, isFiller c = true

theorem isFiller_of_isBlank {c : Char} (h : Text.isBlank c = true) : isFiller c = true := by
  simp [isFiller, h]

theorem Solid.append (h : Solid cs) (h' : Solid ds) : Solid (cs ++ ds) :=
  fun c hc => (List.mem_append.mp hc).elim (h c) (h' c)

theorem Filling.append (h : Filling cs) (h' : Filling ds) : Filling (cs ++ ds) :=
  fun c hc => (List.mem_append.mp hc).elim (h c) (h' c)

theorem filling_replicate (n : Nat) : Filling (List.replicate n ' ') := by
  intro c hc
  obtain rfl := List.eq_of_mem_replicate hc
  decide

theorem mem_separator {c : Char} (h : c ∈ separator bar column) : c = ' ' ∨ c = '|' := by
  rcases List.mem_append.mp h with h | h
  · split at h <;> simp_all
  · split at h <;> simp_all

theorem filling_separator (bar column : Nat) : Filling (separator bar column) := by
  intro c hc
  rcases mem_separator hc with rfl | rfl <;> decide

theorem separator_ne_nil (h : column ≠ 0) : separator bar column ≠ [] := by
  simp [separator, h]

/-- What is trimmed from a line is filling. -/
theorem exists_trimEnd (cs : List Char) : ∃ fill, Filling fill ∧ cs = Text.trimEnd cs ++ fill :=
  ⟨cs.rtakeWhile Text.isBlank, fun _ hc => isFiller_of_isBlank (List.mem_rtakeWhile_imp hc),
    List.rdropWhile_append_rtakeWhile.symm⟩

/-! ## Where words begin -/

theorem startsFrom_filling (h : Filling fill) (hne : fill ≠ []) (place : Nat) (inside : Bool)
    (cs : List Char) :
    startsFrom place inside (fill ++ cs) = startsFrom (place + fill.length) false cs := by
  induction fill generalizing place inside with
  | nil => exact absurd rfl hne
  | cons c fill ih =>
    have hc : isFiller c = true := h c List.mem_cons_self
    rw [List.cons_append, startsFrom, if_pos hc]
    by_cases hfill : fill = []
    · rw [hfill]
      rfl
    · rw [ih (fun d hd => h d (List.mem_cons_of_mem c hd)) hfill, List.length_cons]
      congr 1
      omega

/-- Behind fillers words begin anew, and behind nothing a word may go on. -/
theorem exists_startsFrom_filling (h : Filling fill) (place : Nat) (inside : Bool)
    (cs : List Char) : ∃ inside',
      startsFrom place inside (fill ++ cs) = startsFrom (place + fill.length) inside' cs := by
  by_cases hfill : fill = []
  · exact ⟨inside, by simp [hfill]⟩
  · exact ⟨false, startsFrom_filling h hfill place inside cs⟩

theorem startsFrom_solid (h : Solid cell) (place : Nat) (cs : List Char) :
    startsFrom place true (cell ++ cs) = startsFrom (place + cell.length) true cs := by
  induction cell generalizing place with
  | nil => rfl
  | cons c cell ih =>
    have hc : isFiller c = false := h c List.mem_cons_self
    rw [List.cons_append, startsFrom, hc, ih fun d hd => h d (List.mem_cons_of_mem c hd),
      List.length_cons]
    simp only [Bool.false_eq_true, if_false, if_true]
    congr 1
    omega

theorem startsFrom_word (h : Solid cell) (hne : cell ≠ []) (place : Nat) (cs : List Char) :
    startsFrom place false (cell ++ cs) =
      place :: startsFrom (place + cell.length) true cs := by
  obtain ⟨c, rest, rfl⟩ := List.exists_cons_of_ne_nil hne
  have hc : isFiller c = false := h c List.mem_cons_self
  rw [List.cons_append, startsFrom, hc,
    startsFrom_solid fun d hd => h d (List.mem_cons_of_mem c hd), List.length_cons]
  simp only [Bool.false_eq_true, if_false]
  congr 2
  omega

/-- Fillers at the end of a text do not matter. -/
theorem startsFrom_append_filling (h : Filling fill) (place : Nat) (inside : Bool)
    (cs : List Char) : startsFrom place inside (cs ++ fill) = startsFrom place inside cs := by
  induction cs generalizing place inside with
  | nil =>
    obtain ⟨inside', heq⟩ := exists_startsFrom_filling h place inside []
    rw [List.append_nil] at heq
    exact heq
  | cons c cs ih =>
    rw [List.cons_append, startsFrom, startsFrom]
    simp only [ih]

/-! ## Cutting -/

theorem content_append_filling (h : Filling fill) : content (cs ++ fill) = content cs := by
  have hdrop : (cs ++ fill).rdropWhile isFiller = cs.rdropWhile isFiller := by
    induction fill using List.reverseRecOn with
    | nil => rw [List.append_nil]
    | append_singleton fill c ih =>
      rw [← List.append_assoc, List.rdropWhile_concat_pos _ _ _ (h c (by simp)),
        ih fun d hd => h d (List.mem_append_left _ hd)]
  rw [content, hdrop, content]

theorem content_solid (h : Solid cell) : content cell = .ofList cell := by
  have hself : cell.rdropWhile isFiller = cell := by
    rw [List.rdropWhile_eq_self_iff]
    intro hne
    simp [h _ (List.getLast_mem hne)]
  rw [content, hself]

theorem content_eq (h : Solid cell) (hfill : Filling fill) :
    content (cell ++ fill) = .ofList cell := by
  rw [content_append_filling hfill, content_solid h]

/-- Fillers at the end of a line do not matter. -/
theorem cells_append_filling (h : Filling fill) (places : List Nat) (line : List Char) :
    cells places (line ++ fill) = cells places line := by
  have hdrop (start : Nat) (cs : List Char) {fill : List Char} (h : Filling fill) :
      content ((cs ++ fill).drop start) = content (cs.drop start) := by
    rw [List.drop_append]
    exact content_append_filling fun c hc => h c (List.mem_of_mem_drop hc)
  induction places with
  | nil => rfl
  | cons start places ih =>
    cases places with
    | nil => rw [cells, cells, hdrop start line h]
    | cons stop places =>
      rw [cells, cells, ih, List.take_append]
      congr 1
      exact hdrop start _ fun c hc => h c (List.mem_of_mem_take hc)

/-! ## Widths -/

/-- Each cell of the row fits into its column. -/
def Fits (widths : List Nat) (row : List (List Char)) : Prop :=
  List.Forall₂ (fun w cell => cell.length ≤ w) widths row

theorem fits_widen (h : widths.length = row.length) : Fits (widen widths row) row := by
  induction widths generalizing row with
  | nil =>
    obtain rfl := List.length_eq_zero_iff.mp h.symm
    exact .nil
  | cons w widths ih =>
    cases row with
    | nil => cases h
    | cons cell row => exact .cons (Nat.le_max_right w _) (ih (Nat.succ.inj h))

theorem length_widen (h : widths.length = row.length) :
    (widen widths row).length = widths.length :=
  (fits_widen h).length_eq.trans h.symm

theorem Fits.widen (h : Fits widths row) {other : List (List Char)}
    (hother : widths.length = other.length) : Fits (widen widths other) row := by
  induction h generalizing other with
  | nil =>
    obtain rfl := List.length_eq_zero_iff.mp hother.symm
    exact .nil
  | cons hw h ih =>
    cases other with
    | nil => cases hother
    | cons cell other => exact .cons (hw.trans (Nat.le_max_left _ _)) (ih (Nat.succ.inj hother))

theorem Fits.foldl {rows : List (List (List Char))} (h : Fits widths row)
    (hrows : ∀ other ∈ rows, widths.length = other.length) :
    Fits (rows.foldl Grid.widen widths) row := by
  induction rows generalizing widths with
  | nil => exact h
  | cons other rows ih =>
    have hother := hrows other List.mem_cons_self
    refine ih (h.widen hother) fun another hanother => ?_
    rw [length_widen hother]
    exact hrows another (List.mem_cons_of_mem other hanother)

theorem fits_foldl {rows : List (List (List Char))}
    (hrows : ∀ other ∈ rows, widths.length = other.length) (hrow : row ∈ rows) :
    Fits (rows.foldl widen widths) row := by
  induction rows generalizing widths with
  | nil => cases hrow
  | cons other rows ih =>
    have hother := hrows other List.mem_cons_self
    have hrest (another) (hanother : another ∈ rows) :
        (widen widths other).length = another.length := by
      rw [length_widen hother]
      exact hrows another (List.mem_cons_of_mem other hanother)
    rcases List.mem_cons.mp hrow with rfl | hrow
    · exact (fits_widen hother).foldl hrest
    · exact ih hrest hrow

/-- In rows of the same length every cell fits into its column. -/
theorem fits_columnWidths {first : List (List Char)} {rows : List (List (List Char))}
    (hrows : ∀ other ∈ rows, first.length = other.length) (hrow : row ∈ first :: rows) :
    Fits (columnWidths (first :: rows)) row := by
  have hwidths : widen [] first = first.map List.length := by
    cases first <;> rfl
  have hrows' (other) (hother : other ∈ rows) : (widen [] first).length = other.length := by
    rw [hwidths, List.length_map]
    exact hrows other hother
  rcases List.mem_cons.mp hrow with rfl | hrow
  · have hfits : Fits (widen [] row) row := by
      rw [hwidths, Fits, List.forall₂_map_left_iff]
      exact List.forall₂_same.mpr fun _ _ => Nat.le_refl _
    show Fits (rows.foldl widen (widen [] row)) row
    exact hfits.foldl hrows'
  · show Fits (rows.foldl widen (widen [] first)) row
    exact fits_foldl hrows' hrow

/-! ## Lines -/

theorem render_eq (bar : Nat) (rows : List (List String)) :
    render bar rows = rows.map fun row =>
      rowText bar (columnWidths (rows.map (·.map String.toList))) (row.map String.toList) := by
  rw [render, List.map_map]
  rfl

/-- Where the columns begin from the column `column` on, which is reached at `place`. -/
def placesFrom (bar : Nat) : Nat → Nat → List Nat → List Nat
  | _, _, [] => []
  | column, place, w :: widths =>
    let start := place + (separator bar column).length
    start :: placesFrom bar (column + 1) (start + w) widths

theorem length_placesFrom (bar column place : Nat) (widths : List Nat) :
    (placesFrom bar column place widths).length = widths.length := by
  induction widths generalizing column place with
  | nil => rfl
  | cons w widths ih => rw [placesFrom, List.length_cons, ih, List.length_cons]

theorem length_pad (h : cell.length ≤ w) : (pad w cell).length = w := by
  rw [pad, List.length_append, List.length_replicate]
  omega

/-- The words of a row without empty cells stand where the columns begin. -/
theorem startsFrom_rowFrom (hfits : Fits widths row) (hsolid : ∀ cell ∈ row, Solid cell)
    (hne : ∀ cell ∈ row, cell ≠ []) (hcolumn : column ≠ 0) (place : Nat) (inside : Bool) :
    startsFrom place inside (rowFrom bar column widths row) =
      placesFrom bar column place widths := by
  induction hfits generalizing column place inside with
  | nil => rfl
  | @cons w cell widths row hw hfits ih =>
    have hcell := hsolid cell List.mem_cons_self
    obtain ⟨inside', hpadding⟩ := exists_startsFrom_filling (filling_replicate (w - cell.length))
      (place + (separator bar column).length + cell.length) true
      (rowFrom bar (column + 1) widths row)
    rw [rowFrom, pad, List.append_assoc, List.append_assoc,
      startsFrom_filling (filling_separator bar column) (separator_ne_nil hcolumn),
      startsFrom_word hcell (hne cell List.mem_cons_self), hpadding, List.length_replicate,
      ih (fun c hc => hsolid c (List.mem_cons_of_mem _ hc))
        (fun c hc => hne c (List.mem_cons_of_mem _ hc)) (Nat.succ_ne_zero column), placesFrom]
    congr 2
    omega

theorem content_drop_last (hcell : Solid cell) (hfront : front.length = start) :
    content ((front ++ pad w cell).drop start) = .ofList cell := by
  rw [List.drop_left' hfront, pad, content_eq hcell (filling_replicate _)]

/-- A piece that ends where the next column begins has what stands before that column at its end. -/
theorem content_drop_take (hcell : Solid cell) (hw : cell.length ≤ w) (hfill : Filling fill)
    (hfront : front.length = start) (behind : List Char) :
    content (((front ++ (pad w cell ++ (fill ++ behind))).take (start + w + fill.length)).drop
      start) = .ofList cell := by
  have hstop : (front ++ (pad w cell ++ fill)).length = start + w + fill.length := by
    rw [List.length_append, List.length_append, hfront, length_pad hw, Nat.add_assoc]
  rw [← List.append_assoc (pad w cell), ← List.append_assoc front, List.take_left' hstop,
    List.drop_left' hfront, pad, List.append_assoc,
    content_eq hcell ((filling_replicate _).append hfill)]

/-- A line that is cut where the columns begin has the cells of its row. -/
theorem cells_rowFrom (hfits : Fits widths row) (hsolid : ∀ cell ∈ row, Solid cell)
    (hbefore : before.length = place) :
    cells (placesFrom bar column place widths) (before ++ rowFrom bar column widths row) =
      row.map .ofList := by
  induction hfits generalizing column place before with
  | nil => rfl
  | @cons w cell widths row hw hfits ih =>
    have hcell := hsolid cell List.mem_cons_self
    have hfront : (before ++ separator bar column).length =
        place + (separator bar column).length := by
      rw [List.length_append, hbefore]
    have hrest : cells
        (placesFrom bar (column + 1) (place + (separator bar column).length + w) widths)
        (before ++ separator bar column ++ pad w cell ++ rowFrom bar (column + 1) widths row) =
          row.map .ofList :=
      ih (fun c hc => hsolid c (List.mem_cons_of_mem _ hc))
        (by rw [List.length_append, hfront, length_pad hw])
    have hline : before ++ rowFrom bar column (w :: widths) (cell :: row) =
        before ++ separator bar column ++ pad w cell ++ rowFrom bar (column + 1) widths row := by
      simp only [rowFrom, List.append_assoc]
    rw [hline, List.map_cons, placesFrom]
    cases hfits with
    | nil =>
      have hnil : rowFrom bar (column + 1) [] [] = [] := rfl
      rw [hnil, List.append_nil, placesFrom, cells, content_drop_last hcell hfront, List.map_nil]
    | @cons w' cell' widths row hw' hfits =>
      rw [rowFrom, placesFrom, List.append_assoc (separator bar (column + 1)),
        List.append_assoc (_ ++ _)] at hrest ⊢
      rw [cells, hrest, content_drop_take hcell hw (filling_separator bar (column + 1)) hfront]

theorem toList_rowText (bar : Nat) (widths : List Nat) (row : List (List Char)) :
    ∃ fill, Filling fill ∧
      rowFrom bar 0 widths row = (rowText bar widths row).toList ++ fill := by
  obtain ⟨fill, hfill, heq⟩ := exists_trimEnd (rowFrom bar 0 widths row)
  exact ⟨fill, hfill, by rw [rowText, String.toList_ofList]; exact heq⟩

/-- What stands in a line. -/
theorem mem_rowFrom {c : Char} (h : c ∈ rowFrom bar column widths row) :
    c = ' ' ∨ c = '|' ∨ ∃ cell ∈ row, c ∈ cell := by
  induction row generalizing column widths with
  | nil => cases widths <;> simp [rowFrom] at h
  | cons cell row ih =>
    cases widths with
    | nil => simp [rowFrom] at h
    | cons w widths =>
      rw [rowFrom, List.mem_append, List.mem_append, pad, List.mem_append] at h
      rcases h with (h | h | h) | h
      · exact (mem_separator h).imp_right .inl
      · exact .inr (.inr ⟨cell, List.mem_cons_self, h⟩)
      · exact .inl (List.eq_of_mem_replicate h)
      · rcases ih h with rfl | rfl | ⟨other, hother, hc⟩
        · exact .inl rfl
        · exact .inr (.inl rfl)
        · exact .inr (.inr ⟨other, List.mem_cons_of_mem cell hother, hc⟩)

/-- A line is one line. -/
theorem lineFeed_not_mem_rowText (hsolid : ∀ cell ∈ row, Solid cell) :
    '\n' ∉ (rowText bar widths row).toList := by
  intro hmem
  obtain ⟨fill, -, hline⟩ := toList_rowText bar widths row
  have hrow : '\n' ∈ rowFrom bar 0 widths row := by
    rw [hline]
    exact List.mem_append_left fill hmem
  rcases mem_rowFrom hrow with hspace | hbar | ⟨cell, hcell, hc⟩
  · exact absurd hspace (by decide)
  · exact absurd hbar (by decide)
  · exact absurd (hsolid cell hcell '\n' hc) (by decide)

/-! ## Grids -/

/-- Rows of the same length, whose cells hold no fillers, below a row of names. -/
structure Tabular (names : List String) (rows : List (List String)) : Prop where
  named : ∀ name ∈ names, name ≠ ""
  solidNames : ∀ name ∈ names, Solid name.toList
  solid : ∀ row ∈ rows, ∀ cell ∈ row, Solid cell.toList
  length : ∀ row ∈ rows, row.length = names.length + 1

/-- The columns of the first line begin where its words do. -/
theorem offsets_header {names : List (List Char)} (hfits : Fits (w :: widths) ([] :: names))
    (hsolid : ∀ name ∈ names, Solid name) (hne : ∀ name ∈ names, name ≠ []) (hbar : bar ≠ 0) :
    offsets (rowFrom bar 0 (w :: widths) ([] :: names)) = placesFrom bar 0 0 (w :: widths) := by
  obtain ⟨inside, hpadding⟩ := exists_startsFrom_filling (filling_replicate w) 0 false
    (rowFrom bar 1 widths names)
  have hfirst : separator bar 0 = [] := by simp [separator, Ne.symm hbar]
  obtain ⟨-, hfits⟩ := List.forall₂_cons.mp hfits
  have hrest : startsFrom w inside (rowFrom bar 1 widths names) = placesFrom bar 1 w widths :=
    startsFrom_rowFrom hfits hsolid hne Nat.one_ne_zero w inside
  rw [offsets, rowFrom, placesFrom, hfirst, pad]
  simp only [List.nil_append, List.length_nil, Nat.sub_zero, Nat.zero_add]
  rw [hpadding, List.length_replicate, Nat.zero_add, hrest]

theorem offsets_append_filling (h : Filling fill) (header : List Char) :
    offsets (header ++ fill) = offsets header := by
  rw [offsets, startsFrom_append_filling h, offsets]

section

variable {names : List String} {rows : List (List String)}

/-- The rows as lists of characters, with the widths of their columns. -/
theorem Tabular.fits (h : Tabular names rows) {row : List String}
    (hrow : row ∈ ("" :: names) :: rows) :
    Fits (columnWidths ((("" :: names) :: rows).map (·.map String.toList)))
      (row.map String.toList) := by
  rw [List.map_cons]
  refine fits_columnWidths (fun other hother => ?_) ?_
  · obtain ⟨row, hrow, rfl⟩ := List.mem_map.mp hother
    simp [h.length row hrow]
  · rw [← List.map_cons]
    exact List.mem_map_of_mem hrow

theorem Tabular.solid_row (h : Tabular names rows) {row : List String}
    (hrow : row ∈ ("" :: names) :: rows) : ∀ cell ∈ row.map String.toList, Solid cell := by
  rw [List.forall_mem_map]
  rcases List.mem_cons.mp hrow with rfl | hrow
  · refine List.forall_mem_cons.mpr ⟨?_, h.solidNames⟩
    simp [Solid]
  · exact h.solid row hrow

theorem Tabular.offsets_eq (h : Tabular names rows) (hbar : bar ≠ 0) {widths : List Nat}
    (hfits : Fits widths (("" :: names).map String.toList)) :
    offsets (rowText bar widths (("" :: names).map String.toList)).toList =
      placesFrom bar 0 0 widths := by
  obtain ⟨fill, hfill, hrow⟩ := toList_rowText bar widths (("" :: names).map String.toList)
  cases widths with
  | nil => cases hfits
  | cons w widths =>
    rw [← offsets_append_filling hfill, ← hrow]
    refine offsets_header hfits ?_ ?_ hbar
    · exact List.forall_mem_map.mpr h.solidNames
    · exact List.forall_mem_map.mpr fun name hname => by simpa using h.named name hname

/-- The rows of a grid are read again. -/
theorem Tabular.read_render (h : Tabular names rows) (hbar : bar ≠ 0) :
    read (render bar (("" :: names) :: rows)) = ("" :: names) :: rows := by
  have hfits {row : List String} (hrow : row ∈ ("" :: names) :: rows) := h.fits hrow
  rw [render_eq]
  generalize columnWidths ((("" :: names) :: rows).map (·.map String.toList)) = widths at hfits ⊢
  have hcells (row : List String) (hrow : row ∈ ("" :: names) :: rows) :
      cells (placesFrom bar 0 0 widths) (rowText bar widths (row.map String.toList)).toList =
        row := by
    obtain ⟨fill, hfill, hline⟩ := toList_rowText bar widths (row.map String.toList)
    have hcut : cells (placesFrom bar 0 0 widths)
        ([] ++ rowFrom bar 0 widths (row.map String.toList)) =
          (row.map String.toList).map .ofList :=
      cells_rowFrom (hfits hrow) (h.solid_row hrow) rfl
    rw [List.nil_append, hline, cells_append_filling hfill, List.map_map] at hcut
    rw [hcut]
    exact (List.map_congr_left fun cell _ => String.ofList_toList).trans (List.map_id row)
  rw [List.map_cons, read, h.offsets_eq hbar (hfits List.mem_cons_self), List.map_cons,
    hcells _ List.mem_cons_self, List.map_map]
  congr 1
  exact (List.map_congr_left fun row hrow => hcells row (List.mem_cons_of_mem _ hrow)).trans
    (List.map_id rows)

-- the second line ends with an empty cell, and the third one with two
example : render 3 [["", "end", "é1"], ["0", "ACC", ""], ["1", "", ""]] =
      ["  end é1", "0 ACC", "1"] ∧
    read ["  end é1", "0 ACC", "1"] = [["", "end", "é1"], ["0", "ACC", ""], ["1", "", ""]] := by
  decide +kernel

/-! ## The bar -/

theorem rowFrom_append (bar column : Nat) (widths' : List Nat) (row' : List (List Char))
    (h : widths.length = row.length) : rowFrom bar column (widths ++ widths') (row ++ row') =
      rowFrom bar column widths row ++ rowFrom bar (column + row.length) widths' row' := by
  induction row generalizing column widths with
  | nil =>
    obtain rfl := List.length_eq_zero_iff.mp h
    cases widths' <;> cases row' <;> rfl
  | cons cell row ih =>
    cases widths with
    | nil => cases h
    | cons w widths =>
      rw [List.cons_append, List.cons_append, rowFrom, rowFrom, ih _ (Nat.succ.inj h),
        List.length_cons, Nat.add_right_comm, Nat.add_assoc column]
      simp only [List.append_assoc]

theorem Solid.bar_not_mem (h : Solid cell) : '|' ∉ cell :=
  fun hmem => absurd (h '|' hmem) (by decide)

/-- There is no bar before the column of the bar. -/
theorem bar_not_mem_rowFrom (hsolid : ∀ cell ∈ row, Solid cell) (h : column + row.length ≤ bar) :
    '|' ∉ rowFrom bar column widths row := by
  induction row generalizing column widths with
  | nil => cases widths <;> simp [rowFrom]
  | cons cell row ih =>
    cases widths with
    | nil => simp [rowFrom]
    | cons w widths =>
      have hcolumn : column ≠ bar := by
        rw [List.length_cons] at h
        omega
      have hseparator : '|' ∉ separator bar column := by
        unfold separator
        rw [if_neg hcolumn]
        split <;> decide
      have hpad : '|' ∉ pad w cell := by
        rw [pad, List.mem_append, not_or]
        exact ⟨(hsolid cell List.mem_cons_self).bar_not_mem, by simp [List.mem_replicate]⟩
      have hrest : '|' ∉ rowFrom bar (column + 1) widths row :=
        ih (fun c hc => hsolid c (List.mem_cons_of_mem cell hc))
          (by rw [List.length_cons] at h; omega)
      rw [rowFrom, List.mem_append, List.mem_append, not_or, not_or]
      exact ⟨⟨hseparator, hpad⟩, hrest⟩

/-- Nothing but fillers stands between a row up to its bar and the bar. -/
theorem filling_takeWhile_bar (bar : Nat) (widths : List Nat) (row : List (List Char)) :
    Filling ((rowFrom bar bar widths row).takeWhile (· ≠ '|')) := by
  have hspace : isFiller ' ' = true := by decide
  cases row with
  | nil => cases widths <;> simp [rowFrom, Filling]
  | cons cell row =>
    cases widths with
    | nil => simp [rowFrom, Filling]
    | cons w widths => simp [rowFrom, separator, Filling, hspace]

theorem exists_takeWhile_append (h : Filling fill) (p : Char → Bool) (cs : List Char) :
    ∃ fill', Filling fill' ∧ (cs ++ fill).takeWhile p = cs.takeWhile p ++ fill' := by
  rw [List.takeWhile_append]
  split
  case isTrue hall =>
    have hself : cs.takeWhile p = cs := (List.takeWhile_prefix p).eq_of_length hall
    exact ⟨fill.takeWhile p, fun c hc => h c (List.takeWhile_subset p hc), by rw [hself]⟩
  case isFalse => exact ⟨[], by simp [Filling], (List.append_nil _).symm⟩

/-- Up to the bar stand the names of the columns before it, whether there are more or not. -/
theorem columnsBeforeBar_rowText {names others : List (List Char)}
    (hfits : Fits widths ([] :: names ++ others)) (hsolid : ∀ name ∈ names, Solid name)
    (hne : ∀ name ∈ names, name ≠ []) :
    columnsBeforeBar (rowText (names.length + 1) widths ([] :: names ++ others)).toList =
      names.length + 1 := by
  obtain ⟨fill, hfill, hline⟩ := toList_rowText (names.length + 1) widths ([] :: names ++ others)
  have hfront : Fits (widths.take (names.length + 1)) ([] :: names) :=
    List.forall₂_take_append widths ([] :: names) others hfits
  have hlength : (widths.take (names.length + 1)).length = ([] :: names).length :=
    hfront.length_eq
  have hsplit : rowFrom (names.length + 1) 0 widths ([] :: names ++ others) =
      rowFrom (names.length + 1) 0 (widths.take (names.length + 1)) ([] :: names) ++
        rowFrom (names.length + 1) (names.length + 1) (widths.drop (names.length + 1)) others := by
    have happend := rowFrom_append (names.length + 1) 0 (widths.drop (names.length + 1)) others
      hlength
    rwa [List.take_append_drop, List.length_cons, Nat.zero_add] at happend
  have hbar : ∀ c ∈ rowFrom (names.length + 1) 0 (widths.take (names.length + 1)) ([] :: names),
      c ≠ '|' := by
    rintro c hc rfl
    refine bar_not_mem_rowFrom (List.forall_mem_cons.mpr ⟨?_, hsolid⟩) ?_ hc
    · simp [Solid]
    · rw [List.length_cons, Nat.zero_add]
  obtain ⟨fill', hfill', htake⟩ := exists_takeWhile_append hfill (· ≠ '|')
    (rowText (names.length + 1) widths ([] :: names ++ others)).toList
  rw [← hline, hsplit, List.takeWhile_append_of_pos (by simpa using hbar)] at htake
  rw [columnsBeforeBar, ← offsets_append_filling hfill', ← htake,
    offsets_append_filling (filling_takeWhile_bar _ _ _)]
  cases hwidths : widths.take (names.length + 1) with
  | nil =>
    rw [hwidths] at hlength
    cases hlength
  | cons w front =>
    rw [hwidths] at hfront hlength
    rw [offsets_header hfront hsolid hne (Nat.succ_ne_zero _), length_placesFrom, hlength,
      List.length_cons]

end

end ShiftReduce.Grid
