import ShiftReduce.Source.Partition

/-!
# Reading is a partition

Each piece is a gap or a complete token at the beginning of what is left of the source, and where
there is no piece nothing begins. So the tokens that are read and the gaps between them are the
source, up to the place where reading stops.
-/

namespace ShiftReduce.Source

variable {cc : CharClass} {cs text behind front source rest : List Char} {c : Char}

/-! ## Openings -/

section Openings

variable {a b o best : Opening} {os : List Opening}

theorem better_eq (cc : CharClass) (cs : List Char) (a b : Opening) :
    better cc cs a b = a ∨ better cc cs a b = b := by
  rw [better]
  split
  · exact .inr rfl
  · exact .inl rfl

theorem length_extent_le_better (cc : CharClass) (cs : List Char) (a b : Opening) :
    (a.extent cc cs).length ≤ ((better cc cs a b).extent cc cs).length ∧
      (b.extent cc cs).length ≤ ((better cc cs a b).extent cc cs).length := by
  rw [better]
  split <;> omega

/-- The opening that is found is one of those looked at, and none of them matches more. -/
theorem mem_foldl_better (cc : CharClass) (cs : List Char) (os : List Opening) (a : Opening) :
    os.foldl (better cc cs) a ∈ a :: os ∧ ∀ o ∈ a :: os,
      (o.extent cc cs).length ≤ ((os.foldl (better cc cs) a).extent cc cs).length := by
  induction os generalizing a with
  | nil => simp
  | cons b os ih =>
    obtain ⟨hmem, hlongest⟩ := ih (better cc cs a b)
    have hbetter := hlongest _ List.mem_cons_self
    obtain ⟨ha, hb⟩ := length_extent_le_better cc cs a b
    refine ⟨?_, fun o ho => ?_⟩
    · rcases List.mem_cons.mp hmem with he | hos
      · rw [List.foldl_cons, he]
        rcases better_eq cc cs a b with h | h <;> simp [h]
      · exact List.mem_cons_of_mem _ (List.mem_cons_of_mem _ hos)
    · rcases List.mem_cons.mp ho with rfl | ho
      · exact Nat.le_trans ha hbetter
      · rcases List.mem_cons.mp ho with rfl | ho
        · exact Nat.le_trans hb hbetter
        · exact hlongest o (List.mem_cons_of_mem _ ho)

theorem mem_openings_of_opening? (h : opening? cc cs = some o) :
    o ∈ openings ∧ o.extent cc cs ≠ [] := by
  obtain ⟨hmem, -⟩ := mem_foldl_better cc cs openings .blank
  rw [opening?] at h
  split at h
  · cases h
  · next hne =>
    rw [Option.some.inj h] at hmem hne
    refine ⟨?_, hne⟩
    rcases List.mem_cons.mp hmem with rfl | hmem
    · exact List.mem_cons_self
    · exact hmem

theorem extent_eq_nil_of_opening? (h : opening? cc cs = none) (ho : o ∈ openings) :
    o.extent cc cs = [] := by
  obtain ⟨-, hlongest⟩ := mem_foldl_better cc cs openings .blank
  rw [opening?] at h
  split at h
  · next hnil =>
    have hle := hlongest o (List.mem_cons_of_mem _ ho)
    rw [hnil] at hle
    exact List.length_eq_zero_iff.mp (Nat.le_zero.mp hle)
  · cases h

theorem prefix_of_given (h : given text cs ≠ []) : text <+: cs := by
  rw [given] at h
  split at h
  · next hp => exact List.isPrefixOf_iff_prefix.mp hp
  · exact absurd rfl h

theorem exists_eq_cons_of_given (h : given [c] cs ≠ []) : ∃ rest, cs = c :: rest := by
  obtain ⟨rest, hrest⟩ := prefix_of_given h
  exact ⟨rest, hrest.symm⟩

theorem not_prefix_of_given (htext : text ≠ []) (h : given text cs = []) : ¬text <+: cs := by
  intro hp
  rw [given, if_pos (List.isPrefixOf_iff_prefix.mpr hp)] at h
  exact htext h

end Openings

/-! ## Gaps -/

namespace IsGap

theorem append {gap : List Char} (h : IsGap text (gap ++ behind)) (hgap : IsGap gap behind) :
    IsGap (text ++ gap) behind := by
  -- what comes behind `text` has to be a variable for the induction
  generalize hb : gap ++ behind = b at h
  induction h with
  | nil => exact hgap
  | blank hc _ ih => exact .blank hc (ih hb)
  | comment hline hend _ ih =>
    subst hb
    rw [List.append_assoc]
    exact .comment hline (by rwa [List.append_assoc]) (ih rfl)

theorem of_blanks (h : ∀ c ∈ text, isSpace c = true) : IsGap text behind := by
  induction text with
  | nil => exact .nil
  | cons c text ih =>
    exact .blank (h c List.mem_cons_self) (ih fun d hd => h d (List.mem_cons_of_mem c hd))

end IsGap

theorem isSpace_of_isLineEnd (h : isLineEnd c = true) : isSpace c = true := by
  rw [isLineEnd, Bool.or_eq_true] at h
  rcases h with h | h <;> simp [isSpace, h]

/-- A predicate fails where the longest run that satisfies it ends. -/
theorem eq_false_of_mem_head?_dropWhile {p : Char → Bool} (h : c ∈ (cs.dropWhile p).head?) :
    p c = false := by
  have hnot := List.head?_dropWhile_not p cs
  rw [Option.mem_def.mp h] at hnot
  exact hnot

/-- A line break is made of line ends, and the source begins with it. -/
theorem exists_eq_lineBreak_append (cs : List Char) :
    ∃ behind, cs = lineBreak cs ++ behind ∧ ∀ c ∈ lineBreak cs, isLineEnd c = true := by
  have hwhole : cs.takeWhile (· = '\r') ++ cs.dropWhile (· = '\r') = cs :=
    List.takeWhile_append_dropWhile
  have hreturn (c : Char) (hc : c ∈ cs.takeWhile (· = '\r')) : isLineEnd c = true := by
    have := List.all_eq_true.mp List.all_takeWhile c hc
    simp_all [isLineEnd]
  rw [lineBreak]
  split
  · next rest hrest =>
    refine ⟨rest, ?_, fun c hc => ?_⟩
    · rw [List.append_assoc, List.singleton_append, ← hrest, hwhole]
    · rcases List.mem_append.mp hc with hc | hc
      · exact hreturn c hc
      · rw [List.mem_singleton.mp hc]
        rfl
  · refine ⟨(cs.takeWhile (· = '\r')).drop 1 ++ cs.dropWhile (· = '\r'), ?_, fun c hc => ?_⟩
    · rw [← List.append_assoc, List.take_append_drop, hwhole]
    · exact hreturn c (List.mem_of_mem_take hc)

theorem exists_eq_commentLine_append (h : ['/', '/'] <+: cs) :
    ∃ behind, cs = commentLine cs ++ behind ∧ IsGap (commentLine cs) behind := by
  obtain ⟨line, rfl⟩ := h
  obtain ⟨behind, hbehind, hends⟩ :=
    exists_eq_lineBreak_append (line.dropWhile (!isLineEnd ·))
  have hcomment : commentLine ('/' :: '/' :: line) = '/' :: '/' :: line.takeWhile (!isLineEnd ·) ++
      lineBreak (line.dropWhile (!isLineEnd ·)) := by
    simp [commentLine, isLineEnd]
  refine ⟨behind, ?_, ?_⟩
  · rw [List.cons_append, List.cons_append, List.nil_append, hcomment, List.append_assoc,
      ← hbehind, List.cons_append, List.cons_append, List.takeWhile_append_dropWhile]
  · rw [List.cons_append, List.cons_append, List.nil_append, hcomment]
    refine .comment (fun c hc => ?_) (fun c hc => ?_)
      (.of_blanks fun c hc => isSpace_of_isLineEnd (hends c hc))
    · have := List.all_eq_true.mp List.all_takeWhile c hc
      simpa using this
    · rw [← hbehind] at hc
      simpa using eq_false_of_mem_head?_dropWhile hc

/-! ## Words -/

theorem isWord_word (h : word cc cs ≠ []) :
    ∃ behind, cs = word cc cs ++ behind ∧ IsWord cc (word cc cs) behind := by
  cases cs with
  | nil => exact absurd rfl h
  | cons c rest =>
    by_cases hc : cc.isStart c = true
    · have hword : word cc (c :: rest) = c :: rest.takeWhile cc.isContinue := by simp [word, hc]
      refine ⟨rest.dropWhile cc.isContinue, ?_, ?_, fun d => eq_false_of_mem_head?_dropWhile⟩
      · rw [hword, List.cons_append, List.takeWhile_append_dropWhile]
      · exact ⟨c, _, hword, hc, List.all_eq_true.mp List.all_takeWhile⟩
    · exact absurd (by simp [word, hc]) h

theorem not_isWord_of_word_eq_nil (h : word cc (text ++ behind) = []) :
    ¬IsWord cc text behind := by
  rintro ⟨⟨c, run, rfl, hc, -⟩, -⟩
  simp [word, hc] at h

/-! ## Blocks -/

/-- Behind `depth` open braces, `front` closes them all. -/
def Closing (depth : Nat) (front : List Char) : Prop :=
  depth + front.count '\x7b' = front.count '\x7d'

/-- The number of open braces behind one more character. -/
def nesting (depth : Nat) (c : Char) : Nat :=
  if c = '\x7b' then depth + 1 else if c = '\x7d' then depth - 1 else depth

theorem closing_cons {depth : Nat} (hd : 0 < depth) :
    Closing depth (c :: front) ↔ Closing (nesting depth c) front := by
  rw [Closing, Closing, nesting, List.count_cons, List.count_cons]
  by_cases hopen : c = '\x7b'
  · subst hopen
    simp
    omega
  · by_cases hclose : c = '\x7d'
    · subst hclose
      simp
      omega
    · simp [hopen, hclose]

theorem not_closing_nil {depth : Nat} (hd : 0 < depth) : ¬Closing depth [] := by
  simp [Closing]
  omega

theorem block?_cons {depth : Nat} (hd : 0 < depth) : block? depth (c :: rest) =
    if nesting depth c = 0 then some [c] else (c :: ·) <$> block? (nesting depth c) rest := by
  rw [block?, nesting]
  by_cases hopen : c = '\x7b'
  · simp [hopen]
  · by_cases hclose : c = '\x7d'
    · have hzero : depth - 1 = 0 ↔ depth ≤ 1 := by omega
      simp [hclose, hzero]
    · have hzero : depth ≠ 0 := by omega
      simp [hopen, hclose, hzero]

/-- The text that is found is the shortest one that closes all open braces. -/
theorem shortest_of_block? {depth : Nat} (hd : 0 < depth) (h : block? depth cs = some text) :
    text <+: cs ∧ Closing depth text ∧ ∀ front, front <+: text → Closing depth front →
      front = text := by
  -- some brace stays open up to the end of the text, so that no character before it closes the last
  induction cs generalizing depth text with
  | nil => cases h
  | cons c rest ih =>
    rw [block?_cons hd] at h
    split at h
    · next hzero =>
      obtain rfl := Option.some.inj h
      refine ⟨⟨rest, rfl⟩, (closing_cons hd).mpr (by rw [hzero]; rfl), fun front hfront hclose => ?_⟩
      rcases List.prefix_cons_iff.mp hfront with rfl | ⟨front', rfl, hfront'⟩
      · exact absurd hclose (not_closing_nil hd)
      · rw [List.prefix_nil.mp hfront']
    · next hne =>
      obtain ⟨text', htext', rfl⟩ := Option.map_eq_some_iff.mp h
      obtain ⟨hbegins, hclosing, hshortest⟩ := ih (Nat.pos_of_ne_zero hne) htext'
      refine ⟨List.cons_prefix_cons.mpr ⟨rfl, hbegins⟩, (closing_cons hd).mpr hclosing,
        fun front hfront hclose => ?_⟩
      rcases List.prefix_cons_iff.mp hfront with rfl | ⟨front', rfl, hfront'⟩
      · exact absurd hclose (not_closing_nil hd)
      · rw [hshortest front' hfront' ((closing_cons hd).mp hclose)]

theorem not_closing_of_block? {depth : Nat} (hd : 0 < depth) (h : block? depth cs = none)
    (hfront : front <+: cs) : ¬Closing depth front := by
  induction cs generalizing depth front with
  | nil =>
    rw [List.prefix_nil.mp hfront]
    exact not_closing_nil hd
  | cons c rest ih =>
    rw [block?_cons hd] at h
    split at h
    · cases h
    · next hne =>
      rcases List.prefix_cons_iff.mp hfront with rfl | ⟨front', rfl, hfront'⟩
      · exact not_closing_nil hd
      · rw [closing_cons hd]
        exact ih (Nat.pos_of_ne_zero hne) (Option.map_eq_none_iff.mp h) hfront'

theorem balanced_cons : Balanced ('\x7b' :: front) ↔ Closing 1 front := by
  rw [Balanced, Closing, List.count_cons, List.count_cons]
  simp
  omega

theorem block?_zero_cons : block? 0 ('\x7b' :: rest) = ('\x7b' :: ·) <$> block? 1 rest := rfl

theorem isBlock_of_block? (h : block? 0 ('\x7b' :: rest) = some text) :
    text <+: '\x7b' :: rest ∧ IsBlock text := by
  rw [block?_zero_cons] at h
  obtain ⟨inner, hinner, rfl⟩ := Option.map_eq_some_iff.mp h
  obtain ⟨hbegins, hclosing, hshortest⟩ := shortest_of_block? Nat.one_pos hinner
  refine ⟨List.cons_prefix_cons.mpr ⟨rfl, hbegins⟩, rfl, balanced_cons.mpr hclosing,
    fun front hfront hne hbalanced => ?_⟩
  rcases List.prefix_cons_iff.mp hfront with rfl | ⟨front', rfl, hfront'⟩
  · exact absurd rfl hne
  · rw [hshortest front' hfront' (balanced_cons.mp hbalanced)]

theorem unclosed_of_block? (h : block? 0 ('\x7b' :: rest) = none) : Unclosed ('\x7b' :: rest) := by
  refine ⟨rfl, fun front hfront hne hbalanced => ?_⟩
  rcases List.prefix_cons_iff.mp hfront with rfl | ⟨front', rfl, hfront'⟩
  · exact hne rfl
  · rw [block?_zero_cons] at h
    exact not_closing_of_block? Nat.one_pos (Option.map_eq_none_iff.mp h) hfront'
      (balanced_cons.mp hbalanced)

/-! ## Pieces -/

/-- The piece is a gap or a complete token, if `behind` comes next. -/
def Piece.Fits (cc : CharClass) (behind : List Char) (piece : Piece) : Prop :=
  match piece.token with
  | none => IsGap piece.text behind
  | some t => t.text.toList = piece.text ∧ t.Complete cc behind

theorem eq_of_fixed_mem_openings {t : Token} (h : .fixed t ∈ openings) :
    t = .defines ∨ t = .semicolon ∨ t = .bar ∨ t = .tokenKeyword ∨ t = .typeKeyword := by
  simpa [openings] using h

theorem text_ne_nil_of_mem_openings {t : Token} (h : .fixed t ∈ openings) :
    t.text.toList ≠ [] := by
  rcases eq_of_fixed_mem_openings h with rfl | rfl | rfl | rfl | rfl <;> decide

/-- The fixed tokens are complete whatever comes next. -/
theorem complete_of_mem_openings {t : Token} (h : .fixed t ∈ openings) : t.Complete cc behind := by
  rcases eq_of_fixed_mem_openings h with rfl | rfl | rfl | rfl | rfl <;> trivial

/-- A piece stands at the beginning of the source. -/
theorem exists_eq_append_of_piece? {piece : Piece} (h : piece? cc cs = some piece) :
    piece.text ≠ [] ∧ ∃ behind, cs = piece.text ++ behind ∧ piece.Fits cc behind := by
  cases ho : opening? cc cs with
  | none => simp [piece?, ho] at h
  | some o =>
    obtain ⟨hmem, hextent⟩ := mem_openings_of_opening? ho
    cases o with
    | blank =>
      obtain rfl : ⟨cs.takeWhile isSpace, none⟩ = piece := by simpa [piece?, ho] using h
      exact ⟨hextent, _, List.takeWhile_append_dropWhile.symm,
        .of_blanks (List.all_eq_true.mp List.all_takeWhile)⟩
    | comment =>
      obtain rfl : ⟨commentLine cs, none⟩ = piece := by simpa [piece?, ho] using h
      have hbegins := prefix_of_given hextent
      refine ⟨?_, exists_eq_commentLine_append hbegins⟩
      obtain ⟨line, rfl⟩ := hbegins
      simp [commentLine, isLineEnd]
    | block =>
      obtain ⟨rest, rfl⟩ := exists_eq_cons_of_given hextent
      obtain ⟨text, htext, rfl⟩ : ∃ text, block? 0 ('\x7b' :: rest) = some text ∧
          (⟨text, some (.code (.ofList text))⟩ : Piece) = piece := by
        simpa [piece?, ho] using h
      obtain ⟨⟨behind, hbehind⟩, hblock⟩ := isBlock_of_block? htext
      refine ⟨?_, behind, hbehind.symm, String.toList_ofList, ?_⟩
      · rintro rfl
        cases hblock.opens
      · rw [Token.Complete, String.toList_ofList]
        exact hblock
    | fixed t =>
      obtain rfl : ⟨t.text.toList, some t⟩ = piece := by simpa [piece?, ho] using h
      obtain ⟨behind, hbehind⟩ := prefix_of_given hextent
      exact ⟨text_ne_nil_of_mem_openings hmem, behind, hbehind.symm, rfl,
        complete_of_mem_openings hmem⟩
    | word =>
      obtain rfl : ⟨word cc cs, some (.ident (.ofList (word cc cs)))⟩ = piece := by
        simpa [piece?, ho] using h
      obtain ⟨behind, hbehind, hword⟩ := isWord_word hextent
      refine ⟨hextent, behind, hbehind, String.toList_ofList, ?_⟩
      rw [Token.Complete, String.toList_ofList]
      exact hword

/-- Where no opening matches, nothing begins. -/
theorem barren_of_opening? (h : opening? cc cs = none) : Barren cc cs where
  blank c hc := by
    have hblank : cs.takeWhile isSpace = [] :=
      extent_eq_nil_of_opening? h (o := .blank) (by decide)
    cases cs with
    | nil => cases hc
    | cons d rest =>
      obtain rfl : d = c := Option.some.inj hc
      rw [Bool.eq_false_iff]
      intro hspace
      simp [hspace] at hblank
  comment := not_prefix_of_given (by decide)
    (extent_eq_nil_of_opening? h (o := .comment) (by decide))
  token t behind hcs hcomplete := by
    have hfixed (ht : .fixed t ∈ openings) : False := by
      have hgiven : given t.text.toList cs = [] := extent_eq_nil_of_opening? h ht
      exact not_prefix_of_given (text_ne_nil_of_mem_openings ht) hgiven ⟨behind, hcs.symm⟩
    cases t with
    | ident name =>
      have hword : word cc cs = [] := extent_eq_nil_of_opening? h (o := .word) (by decide)
      rw [hcs] at hword
      exact not_isWord_of_word_eq_nil hword hcomplete
    | code text =>
      refine not_prefix_of_given (by decide)
        (extent_eq_nil_of_opening? h (o := .block) (by decide)) ?_
      obtain ⟨inner, hinner⟩ := List.head?_eq_some_iff.mp hcomplete.opens
      exact ⟨inner ++ behind, by rw [hcs, Token.text, hinner]; rfl⟩
    | _ => exact hfixed (by decide)

theorem Unclosed.barren (h : Unclosed cs) (hc : cc.isStart '\x7b' = false) : Barren cc cs := by
  obtain ⟨rest, rfl⟩ := List.head?_eq_some_iff.mp h.opens
  refine ⟨by simp [isSpace], by simp, fun t behind hcs hcomplete => ?_⟩
  cases t with
  | ident name =>
    obtain ⟨c, run, hname, hstart, -⟩ := hcomplete.letters
    rw [Token.text, hname] at hcs
    obtain ⟨rfl, -⟩ := List.cons.inj hcs
    rw [hc] at hstart
    cases hstart
  | code text =>
    refine h.unbalanced text.toList ⟨behind, hcs.symm⟩ (fun hnil => ?_) hcomplete.balanced
    have hopens := hcomplete.opens
    rw [hnil] at hopens
    cases hopens
  | _ => simp [Token.text] at hcs

theorem stuck_of_piece? (hcs : cs ≠ []) (h : piece? cc cs = none) : Stuck cc cs := by
  cases ho : opening? cc cs with
  | none =>
    have hbarren := barren_of_opening? ho
    exact ⟨hcs, .inl hbarren, fun _ => hbarren⟩
  | some o =>
    obtain ⟨-, hextent⟩ := mem_openings_of_opening? ho
    cases o with
    | block =>
      obtain ⟨rest, rfl⟩ := exists_eq_cons_of_given hextent
      have hunclosed : Unclosed ('\x7b' :: rest) :=
        unclosed_of_block? (by simpa [piece?, ho] using h)
      exact ⟨hcs, .inr hunclosed, hunclosed.barren⟩
    | _ => simp [piece?, ho] at h

/-! ## Positions -/

namespace Position

theorem offset_after (p : Position) (text : List Char) :
    (p.after cc text).offset = p.offset + (String.ofList text).utf8ByteSize := by
  induction text generalizing p with
  | nil => rfl
  | cons c text ih =>
    have hstep : (p.step cc c).offset = p.offset + c.utf8Size := by
      rw [step]
      split
      · rfl
      · split <;> rfl
    rw [after, List.foldl_cons, ← after, ih, hstep, String.ofList_cons, String.utf8ByteSize_append,
      String.utf8ByteSize_singleton, Nat.add_assoc]

theorem offset_lt_after (p : Position) (hne : text ≠ []) : p.offset < (p.after cc text).offset := by
  obtain ⟨c, text', rfl⟩ := List.exists_cons_of_ne_nil hne
  rw [offset_after, String.ofList_cons, String.utf8ByteSize_append,
    String.utf8ByteSize_singleton]
  have := c.utf8Size_pos
  omega

theorem after_append (p : Position) (text text' : List Char) :
    p.after cc (text ++ text') = (p.after cc text).after cc text' :=
  List.foldl_append

end Position

namespace Ahead

variable {p q : Position}

theorem zero (cc : CharClass) (source : List Char) : Ahead cc source .zero source :=
  ⟨[], rfl, rfl, rfl⟩

/-- Behind a text comes what follows it. -/
theorem after (h : Ahead cc source p (text ++ behind)) :
    Ahead cc source (p.after cc text) behind := by
  obtain ⟨before, hsource, rfl, hoffset⟩ := h
  refine ⟨before ++ text, ?_, (Position.after_append _ _ _).symm, ?_⟩
  · rw [hsource, List.append_assoc]
  · rw [Position.offset_after, hoffset, String.ofList_append, String.utf8ByteSize_append]

/-- What is left at a position is determined by its offset. -/
theorem unique (h : Ahead cc source p rest) (h' : Ahead cc source p behind) : rest = behind := by
  obtain ⟨before, hsource, -, hoffset⟩ := h
  obtain ⟨before', hsource', -, hoffset'⟩ := h'
  have hbytes := hoffset.symm.trans hoffset'
  rcases List.append_eq_append_iff.mp (hsource.symm.trans hsource') with
    ⟨between, rfl, hrest⟩ | ⟨between, rfl, hbehind⟩
  · rw [String.ofList_append, String.utf8ByteSize_append, Nat.left_eq_add,
      String.utf8ByteSize_eq_zero_iff, String.ofList_eq_empty_iff] at hbytes
    rw [hrest, hbytes, List.nil_append]
  · rw [String.ofList_append, String.utf8ByteSize_append, Nat.add_eq_left,
      String.utf8ByteSize_eq_zero_iff, String.ofList_eq_empty_iff] at hbytes
    rw [hbehind, hbytes, List.nil_append]

theorem eq_finish (h : Ahead cc source p []) : p = Position.zero.after cc source := by
  obtain ⟨before, hsource, hp, -⟩ := h
  rw [hp, hsource, List.append_nil]

end Ahead

theorem Vacant.extend {p q : Position} (hp : Ahead cc source p (text ++ behind))
    (hgap : IsGap text behind) (h : Vacant cc source (p.after cc text) q) :
    Vacant cc source p q := by
  obtain ⟨gap, behind', hstart, hq, hrest⟩ := h
  obtain rfl := hp.after.unique hstart
  exact ⟨text ++ gap, behind', by rwa [List.append_assoc], hq, hgap.append hrest⟩

/-! ## Partitions -/

namespace Partition

variable {p stop : Position} {lexed : Lexed} {t : Token}

/-- Reading ends here. -/
theorem last {stopped : Option Position} (hp : Ahead cc source p rest)
    (hfinish : Lexed.finish cc source ⟨[], stopped⟩ = p)
    (hstopped : ∀ q, stopped = some q → q = p ∧ Stuck cc rest) :
    Partition cc source p ⟨[], stopped⟩ where
  tokens := by simp
  gaps := by
    rw [gapsFrom, List.forall_mem_singleton, hfinish]
    exact ⟨[], rest, hp, hp, .nil⟩
  nonempty := by simp
  inside := by simp
  increasing := .nil
  stopped q hq := by
    obtain ⟨rfl, hstuck⟩ := hstopped q hq
    exact ⟨rest, hp, hstuck⟩

/-- A gap comes first. -/
theorem skip (hp : Ahead cc source p (text ++ behind)) (hgap : IsGap text behind)
    (h : Partition cc source (p.after cc text) lexed) : Partition cc source p lexed where
  tokens := h.tokens
  gaps := by
    -- only the first place starts earlier
    have hgaps := h.gaps
    cases htokens : lexed.tokens with
    | nil =>
      rw [htokens, gapsFrom, List.forall_mem_singleton] at hgaps
      rw [gapsFrom, List.forall_mem_singleton]
      exact Vacant.extend hp hgap hgaps
    | cons l ls =>
      rw [htokens, gapsFrom, List.forall_mem_cons] at hgaps
      rw [gapsFrom, List.forall_mem_cons]
      exact ⟨Vacant.extend hp hgap hgaps.1, hgaps.2⟩
  nonempty := h.nonempty
  inside l hl := by
    have := h.inside l hl
    rw [Position.offset_after] at this
    omega
  increasing := h.increasing
  stopped := h.stopped

/-- A token comes first. -/
theorem token (hp : Ahead cc source p (t.text.toList ++ behind)) (hne : t.text.toList ≠ [])
    (ht : t.Complete cc behind) (h : Partition cc source (p.after cc t.text.toList) lexed) :
    Partition cc source p
      { lexed with tokens := ⟨t, p, p.after cc t.text.toList⟩ :: lexed.tokens } where
  tokens := List.forall_mem_cons.mpr ⟨⟨behind, hp, hp.after, ht⟩, h.tokens⟩
  gaps := List.forall_mem_cons.mpr ⟨⟨[], _, hp, hp, .nil⟩, h.gaps⟩
  nonempty := List.forall_mem_cons.mpr ⟨p.offset_lt_after hne, h.nonempty⟩
  inside := by
    refine List.forall_mem_cons.mpr ⟨Nat.le_refl _, fun l hl => ?_⟩
    exact Nat.le_trans (Nat.le_of_lt (p.offset_lt_after hne)) (h.inside l hl)
  increasing := List.pairwise_cons.mpr ⟨h.inside, h.increasing⟩
  stopped := h.stopped

/-- The rest of a source behind its first piece. -/
theorem drop_eq (hne : text ≠ []) (h : c :: rest = text ++ behind) :
    rest.drop (text.length - 1) = behind := by
  obtain ⟨d, text', rfl⟩ := List.exists_cons_of_ne_nil hne
  obtain ⟨-, rfl⟩ := List.cons.inj h
  simp

/-- Reading from a position on gives a partition from there on. -/
theorem of_lexFrom (hp : Ahead cc source p cs) : Partition cc source p (lexFrom cc p cs) := by
  induction p, cs using lexFrom.induct cc with
  | case1 p =>
    rw [lexFrom]
    exact last hp hp.eq_finish.symm (by simp)
  | case2 p c rest hpiece =>
    rw [lexFrom, hpiece]
    exact last hp rfl fun q hq =>
      ⟨(Option.some.inj hq).symm, stuck_of_piece? (List.cons_ne_nil c rest) hpiece⟩
  | case3 p c rest piece hpiece stop htoken ih =>
    obtain ⟨hne, behind, hbehind, hfits⟩ := exists_eq_append_of_piece? hpiece
    rw [Piece.Fits, htoken] at hfits
    rw [hbehind] at hp
    rw [drop_eq hne hbehind] at ih
    rw [lexFrom, hpiece]
    dsimp only
    rw [htoken, drop_eq hne hbehind]
    exact skip hp hfits (ih hp.after)
  | case4 p c rest piece hpiece stop t htoken ih =>
    obtain ⟨hne, behind, hbehind, hfits⟩ := exists_eq_append_of_piece? hpiece
    rw [Piece.Fits, htoken] at hfits
    obtain ⟨htext, hcomplete⟩ := hfits
    have hstop : stop = p.after cc t.text.toList := by rw [htext]
    rw [hbehind, ← htext] at hp
    rw [drop_eq hne hbehind, hstop] at ih
    rw [lexFrom, hpiece]
    dsimp only
    rw [htoken, drop_eq hne hbehind, ← htext]
    exact token hp (htext ▸ hne) hcomplete (ih hp.after)

end Partition

/-- The tokens of a source and the gaps between them are the source, up to the place where reading
stops, if it does. -/
theorem lex_partition (cc : CharClass) (source : String) :
    Partition cc source.toList .zero (lex cc source) :=
  .of_lexFrom (.zero cc source.toList)

example : (lex .unicode "a // b\n;\t?").tokens.map (fun l => (l.start.offset, l.stop.offset)) =
      [(0, 1), (7, 8)] ∧
    (lex .unicode "a // b\n;\t?").stopped.map Position.offset = some 9 := by
  decide +kernel

end ShiftReduce.Source
