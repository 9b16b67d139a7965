import ShiftReduce.Source.Layout
import ShiftReduce.Proofs.Lexing

/-!
# Reading what was written

A gap is skipped, and a token that is complete is read where it stands. So tokens that are written
with a separator behind each of them are read as the same tokens. No separator has to be chosen for
the tokens around it: a blank goes on with no identifier, and what stands in a comment or in a block
ends with it.
-/

namespace ShiftReduce.Source

variable {cc : CharClass} {cs text behind gap line rest : List Char} {c : Char} {p : Position}
  {t : Token} {ts : List Token} {o : Opening}

/-! ## Plain classes -/

/-- Blanks and signs are apart from the letters of identifiers. -/
structure CharClass.Plain (cc : CharClass) : Prop where
  signs : ∀ c ∈ ['/', '\x7b', ':', ';', '|', '%'], cc.isStart c = false
  blanks : ∀ c, isSpace c = true → cc.isStart c = false ∧ cc.isContinue c = false

theorem isSpace_iff : isSpace c = true ↔ c ∈ [' ', '\t', '\n', '\r'] := by
  simp [isSpace, or_assoc]

theorem CharClass.plain_unicode : unicode.Plain where
  signs c hc := by
    have hall : ['/', '\x7b', ':', ';', '|', '%'].all (!unicode.isStart ·) = true := by
      decide +kernel
    simpa using List.all_eq_true.mp hall c hc
  blanks c hc := by
    have hall : [' ', '\t', '\n', '\r'].all (fun c => !unicode.isStart c && !unicode.isContinue c) =
        true := by decide +kernel
    simpa using List.all_eq_true.mp hall c (isSpace_iff.mp hc)

/-! ## Openings -/

/-- Whether a piece with the opening can begin with a character. -/
def Opening.admits (cc : CharClass) (c : Char) : Opening → Bool
  | blank => isSpace c
  | comment => c = '/'
  | block => c = '\x7b'
  | fixed t => t.text.toList.head? = some c
  | word => cc.isStart c

theorem head?_of_given (h : given text (c :: rest) ≠ []) : text.head? = some c := by
  have hprefix := prefix_of_given h
  cases text with
  | nil => exact absurd (by simp [given]) h
  | cons d text =>
    obtain ⟨behind, hbehind⟩ := hprefix
    rw [(List.cons.inj hbehind).1]
    rfl

theorem Opening.admits_of_extent (h : o.extent cc (c :: rest) ≠ []) : o.admits cc c = true := by
  cases o with
  | blank =>
    cases hspace : isSpace c with
    | true => exact hspace
    | false => exact absurd (by simp [extent, hspace]) h
  | comment => exact decide_eq_true (Option.some.inj (head?_of_given h)).symm
  | block => exact decide_eq_true (Option.some.inj (head?_of_given h)).symm
  | fixed t => exact decide_eq_true (head?_of_given h)
  | word =>
    cases hstart : cc.isStart c with
    | true => exact hstart
    | false => exact absurd (by simp [extent, Source.word, hstart]) h

/-- The opening that begins with a character, where no keyword does. -/
def beginning (c : Char) : Opening :=
  if isSpace c then .blank
  else if c = '/' then .comment
  else if c = '\x7b' then .block
  else if c = ':' then .fixed .defines
  else if c = ';' then .fixed .semicolon
  else if c = '|' then .fixed .bar
  else .word

theorem CharClass.Plain.eq_beginning (hcc : cc.Plain) (hc : c ≠ '%') (ho : o ∈ openings)
    (h : o.admits cc c = true) : o = beginning c := by
  cases o with
  | blank => exact (if_pos h).symm
  | comment => rw [of_decide_eq_true h]; rfl
  | block => rw [of_decide_eq_true h]; rfl
  | word =>
    have hspace : isSpace c = false := by
      rw [Bool.eq_false_iff]
      intro hspace
      rw [Opening.admits, (hcc.blanks c hspace).1] at h
      cases h
    have hsign : ∀ d ∈ ['/', '\x7b', ':', ';', '|', '%'], c ≠ d := by
      rintro d hd rfl
      rw [Opening.admits, hcc.signs c hd] at h
      cases h
    simp_all [beginning]
  | fixed t =>
    have hhead : t.text.toList.head? = some c := of_decide_eq_true h
    rcases eq_of_fixed_mem_openings ho with rfl | rfl | rfl | rfl | rfl
    · obtain rfl : ':' = c := Option.some.inj hhead
      rfl
    · obtain rfl : ';' = c := Option.some.inj hhead
      rfl
    · obtain rfl : '|' = c := Option.some.inj hhead
      rfl
    · exact absurd (Option.some.inj hhead).symm hc
    · exact absurd (Option.some.inj hhead).symm hc

/-- An opening decides if it is the only one that matches. -/
theorem opening?_eq_some (hne : o.extent cc cs ≠ []) (ho : o ∈ openings)
    (honly : ∀ o' ∈ openings, o'.extent cc cs ≠ [] → o' = o) : opening? cc cs = some o := by
  cases h : opening? cc cs with
  | none => exact absurd (extent_eq_nil_of_opening? h ho) hne
  | some o' =>
    obtain ⟨ho', hne'⟩ := mem_openings_of_opening? h
    rw [honly o' ho' hne']

/-- Other than at a keyword, an opening decides where it matches. -/
theorem CharClass.Plain.opening?_cons (hcc : cc.Plain) (hc : c ≠ '%') (ho : o ∈ openings)
    (hne : o.extent cc (c :: rest) ≠ []) : opening? cc (c :: rest) = some o := by
  refine opening?_eq_some hne ho fun o' ho' hne' => ?_
  rw [hcc.eq_beginning hc ho (Opening.admits_of_extent hne),
    hcc.eq_beginning hc ho' (Opening.admits_of_extent hne')]

theorem given_append (text behind : List Char) : given text (text ++ behind) = text :=
  if_pos (List.isPrefixOf_iff_prefix.mpr (List.prefix_append _ _))

/-- None of the fixed tokens begins with another one. -/
theorem eq_of_fixed_begins {t' : Token} (ht : .fixed t ∈ openings) (ht' : .fixed t' ∈ openings)
    (h : t'.text.toList <+: t.text.toList ++ behind) : t' = t := by
  rcases eq_of_fixed_mem_openings ht with rfl | rfl | rfl | rfl | rfl <;>
    rcases eq_of_fixed_mem_openings ht' with rfl | rfl | rfl | rfl | rfl <;>
      simp [Token.text] at h ⊢

/-- A fixed token begins with a sign of its own. -/
theorem exists_sign (ht : .fixed t ∈ openings) : ∃ c rest, t.text.toList = c :: rest ∧
    c ∈ [':', ';', '|', '%'] ∧ isSpace c = false ∧ c ≠ '/' ∧ c ≠ '\x7b' := by
  rcases eq_of_fixed_mem_openings ht with rfl | rfl | rfl | rfl | rfl
  · exact ⟨':', _, rfl, by decide⟩
  · exact ⟨';', _, rfl, by decide⟩
  · exact ⟨'|', _, rfl, by decide⟩
  · exact ⟨'%', _, rfl, by decide⟩
  · exact ⟨'%', _, rfl, by decide⟩

theorem CharClass.Plain.opening?_fixed (hcc : cc.Plain) (ht : .fixed t ∈ openings) :
    opening? cc (t.text.toList ++ behind) = some (.fixed t) := by
  obtain ⟨c, rest, htext, hsign, hspace, hslash, hbrace⟩ := exists_sign ht
  refine opening?_eq_some ?_ ht fun o ho hne => ?_
  · rw [Opening.extent, given_append]
    exact text_ne_nil_of_mem_openings ht
  · have hadmits : o.admits cc c = true := by
      rw [htext] at hne
      exact Opening.admits_of_extent hne
    cases o with
    | blank => exact absurd hadmits (Bool.eq_false_iff.mp hspace)
    | comment => exact absurd (of_decide_eq_true hadmits) hslash
    | block => exact absurd (of_decide_eq_true hadmits) hbrace
    | fixed t' => rw [eq_of_fixed_begins ht ho (prefix_of_given hne)]
    | word =>
      have hstart := hcc.signs c (List.mem_cons_of_mem _ (List.mem_cons_of_mem _ hsign))
      exact absurd hadmits (Bool.eq_false_iff.mp hstart)

/-! ## Pieces -/

theorem CharClass.Plain.piece?_blank (hcc : cc.Plain) (hc : isSpace c = true) :
    piece? cc (c :: rest) = some ⟨c :: rest.takeWhile isSpace, none⟩ := by
  have htake : (c :: rest).takeWhile isSpace = c :: rest.takeWhile isSpace := by simp [hc]
  have hopening : opening? cc (c :: rest) = some .blank := by
    refine hcc.opening?_cons ?_ (by decide) ?_
    · rintro rfl
      cases hc
    · rw [Opening.extent, htake]
      exact List.cons_ne_nil _ _
  simp only [piece?, hopening, htake]

theorem CharClass.Plain.piece?_comment (hcc : cc.Plain) :
    piece? cc ('/' :: '/' :: rest) = some ⟨commentLine ('/' :: '/' :: rest), none⟩ := by
  have hopening : opening? cc ('/' :: '/' :: rest) = some .comment := by
    refine hcc.opening?_cons (by decide) (by decide) ?_
    show given ['/', '/'] (['/', '/'] ++ rest) ≠ []
    rw [given_append]
    exact List.cons_ne_nil _ _
  simp only [piece?, hopening]

/-- What is found in a text that goes on behind a block is the block. -/
theorem block?_of_isBlock (h : IsBlock text) : block? 0 (text ++ behind) = some text := by
  obtain ⟨inner, rfl⟩ := List.head?_eq_some_iff.mp h.opens
  have hclosing := balanced_cons.mp h.balanced
  rw [List.cons_append, block?_zero_cons]
  cases hfound : block? 1 (inner ++ behind) with
  | none =>
    exact absurd hclosing
      (not_closing_of_block? Nat.one_pos hfound (List.prefix_append inner behind))
  | some found =>
    obtain ⟨hbegins, hcloses, hshortest⟩ := shortest_of_block? Nat.one_pos hfound
    have hinner : found <+: inner := by
      rcases List.prefix_or_prefix_of_prefix hbegins (List.prefix_append inner behind) with hp | hp
      · exact hp
      · exact hshortest inner hp hclosing ▸ List.prefix_rfl
    have hwhole := h.shortest ('\x7b' :: found) (List.cons_prefix_cons.mpr ⟨rfl, hinner⟩)
      (List.cons_ne_nil _ _) (balanced_cons.mpr hcloses)
    rw [Option.map_eq_map, Option.map_some, hwhole]

theorem takeWhile_append_eq {q : Char → Bool} (htext : ∀ d ∈ text, q d = true)
    (hbehind : ∀ d ∈ behind.head?, q d = false) : (text ++ behind).takeWhile q = text := by
  have hnil : behind.takeWhile q = [] := by
    cases behind with
    | nil => rfl
    | cons d behind => simp [hbehind d rfl]
  rw [List.takeWhile_append_of_pos htext, hnil, List.append_nil]

theorem word_of_isWord (h : IsWord cc text behind) : word cc (text ++ behind) = text := by
  obtain ⟨⟨c, run, rfl, hc, hrun⟩, hmaximal⟩ := h
  rw [List.cons_append, word, if_pos hc, takeWhile_append_eq hrun hmaximal]

theorem CharClass.Plain.piece?_token (hcc : cc.Plain) (h : t.Complete cc behind) :
    piece? cc (t.text.toList ++ behind) = some ⟨t.text.toList, some t⟩ := by
  have hfixed (ht : .fixed t ∈ openings) :
      piece? cc (t.text.toList ++ behind) = some ⟨t.text.toList, some t⟩ := by
    simp only [piece?, hcc.opening?_fixed ht]
  cases t with
  | ident name =>
    have hword : word cc (name.toList ++ behind) = name.toList := word_of_isWord h
    obtain ⟨c, run, hname, hc, -⟩ := h.letters
    have hopening : opening? cc (name.toList ++ behind) = some .word := by
      have hne : Opening.word.extent cc (name.toList ++ behind) ≠ [] := by
        rw [Opening.extent, hword, hname]
        exact List.cons_ne_nil _ _
      rw [hname] at hne ⊢
      refine hcc.opening?_cons ?_ (by decide) hne
      rintro rfl
      rw [hcc.signs '%' (by decide)] at hc
      cases hc
    simp only [Token.text, piece?, hopening, hword, String.ofList_toList]
  | code text =>
    have hblock : block? 0 (text.toList ++ behind) = some text.toList := block?_of_isBlock h
    have hopening : opening? cc (text.toList ++ behind) = some .block := by
      obtain ⟨inner, hinner⟩ := List.head?_eq_some_iff.mp h.opens
      rw [hinner]
      refine hcc.opening?_cons (by decide) (by decide) ?_
      show given ['\x7b'] (['\x7b'] ++ (inner ++ behind)) ≠ []
      rw [given_append]
      exact List.cons_ne_nil _ _
    simp only [Token.text, piece?, hopening, hblock, Option.map_some, String.ofList_toList]
  | _ => exact hfixed (by decide)

/-! ## Gaps -/

theorem lexFrom_skip (hcs : cs = text ++ behind) (hne : text ≠ [])
    (h : piece? cc cs = some ⟨text, none⟩) :
    lexFrom cc p cs = lexFrom cc (p.after cc text) behind := by
  obtain ⟨c, rest, rfl⟩ := List.exists_cons_of_ne_nil hne
  subst hcs
  have hdrop : (rest ++ behind).drop ((c :: rest).length - 1) = behind := by simp
  rw [List.cons_append] at h ⊢
  rw [lexFrom, h]
  simp only [hdrop]

theorem lexFrom_read (hne : text ≠ []) (h : piece? cc (text ++ behind) = some ⟨text, some t⟩) :
    lexFrom cc p (text ++ behind) = { lexFrom cc (p.after cc text) behind with
      tokens := ⟨t, p, p.after cc text⟩ :: (lexFrom cc (p.after cc text) behind).tokens } := by
  obtain ⟨c, rest, rfl⟩ := List.exists_cons_of_ne_nil hne
  have hdrop : (rest ++ behind).drop ((c :: rest).length - 1) = behind := by simp
  rw [List.cons_append] at h ⊢
  rw [lexFrom, h]
  simp only [hdrop]

namespace CharClass.Plain

theorem lexFrom_run (hcc : cc.Plain) (hc : isSpace c = true) : lexFrom cc p (c :: rest) =
    lexFrom cc (p.after cc (c :: rest.takeWhile isSpace)) (rest.dropWhile isSpace) := by
  refine lexFrom_skip ?_ (List.cons_ne_nil _ _) (hcc.piece?_blank hc)
  rw [List.cons_append, List.takeWhile_append_dropWhile]

/-- A run of blanks is skipped, and so is the first of them. -/
theorem lexFrom_space (hcc : cc.Plain) (hc : isSpace c = true) :
    lexFrom cc p (c :: rest) = lexFrom cc (p.step cc c) rest := by
  rw [hcc.lexFrom_run hc]
  cases rest with
  | nil => rfl
  | cons d rest =>
    by_cases hd : isSpace d = true
    · rw [hcc.lexFrom_run hd, List.takeWhile_cons_of_pos hd, List.dropWhile_cons_of_pos hd]
      rfl
    · rw [List.takeWhile_cons_of_neg hd, List.dropWhile_cons_of_neg hd]
      rfl

theorem lexFrom_spaces (hcc : cc.Plain) (h : ∀ d ∈ text, isSpace d = true) :
    lexFrom cc p (text ++ behind) = lexFrom cc (p.after cc text) behind := by
  induction text generalizing p with
  | nil => rfl
  | cons d text ih =>
    rw [List.cons_append, hcc.lexFrom_space (h d List.mem_cons_self),
      ih fun e he => h e (List.mem_cons_of_mem d he)]
    rfl

/-- A comment is skipped with the line break behind it, and so it is without. -/
theorem lexFrom_comment (hcc : cc.Plain) (hline : ∀ d ∈ line, isLineEnd d = false)
    (hend : ∀ d ∈ behind.head?, isLineEnd d = true) :
    lexFrom cc p ('/' :: '/' :: line ++ behind) =
      lexFrom cc (p.after cc ('/' :: '/' :: line)) behind := by
  obtain ⟨rest, hrest, hbreak⟩ := exists_eq_lineBreak_append behind
  have htake : (line ++ behind).takeWhile (!isLineEnd ·) = line :=
    takeWhile_append_eq (by simpa using hline) (by simpa using hend)
  have hdrop : (line ++ behind).dropWhile (!isLineEnd ·) = behind := by
    have hwhole := List.takeWhile_append_dropWhile (p := (!isLineEnd ·)) (l := line ++ behind)
    rw [htake] at hwhole
    exact List.append_cancel_left hwhole
  have hcomment : commentLine ('/' :: '/' :: (line ++ behind)) =
      '/' :: '/' :: line ++ lineBreak behind := by
    have hslash : isLineEnd '/' = false := rfl
    simp [commentLine, hslash, htake, hdrop]
  have hpiece : piece? cc ('/' :: '/' :: (line ++ behind)) =
      some ⟨'/' :: '/' :: line ++ lineBreak behind, none⟩ := by
    rw [hcc.piece?_comment, hcomment]
  have hsplit : '/' :: '/' :: (line ++ behind) =
      '/' :: '/' :: line ++ lineBreak behind ++ rest := by
    rw [List.append_assoc, ← hrest]
    rfl
  calc lexFrom cc p ('/' :: '/' :: (line ++ behind))
      = lexFrom cc (p.after cc ('/' :: '/' :: line ++ lineBreak behind)) rest :=
        lexFrom_skip hsplit (List.cons_ne_nil _ _) hpiece
    _ = lexFrom cc ((p.after cc ('/' :: '/' :: line)).after cc (lineBreak behind)) rest := by
        rw [Position.after_append]
    _ = lexFrom cc (p.after cc ('/' :: '/' :: line)) (lineBreak behind ++ rest) :=
        (hcc.lexFrom_spaces fun d hd => isSpace_of_isLineEnd (hbreak d hd)).symm
    _ = lexFrom cc (p.after cc ('/' :: '/' :: line)) behind := by rw [← hrest]

theorem lexFrom_gap (hcc : cc.Plain) (h : IsGap gap behind) :
    lexFrom cc p (gap ++ behind) = lexFrom cc (p.after cc gap) behind := by
  induction h generalizing p with
  | nil => rfl
  | blank hc _ ih =>
    rw [List.cons_append, hcc.lexFrom_space hc, ih]
    rfl
  | comment hline hend _ ih =>
    rw [List.append_assoc, hcc.lexFrom_comment hline hend, ih, Position.after_append]

end CharClass.Plain

/-! ## Tokens -/

theorem Token.Complete.text_ne_nil (h : t.Complete cc behind) : t.text.toList ≠ [] := by
  cases t with
  | ident name =>
    obtain ⟨c, run, hname, -, -⟩ := h.letters
    rw [text, hname]
    exact List.cons_ne_nil c run
  | code text =>
    obtain ⟨inner, hinner⟩ := List.head?_eq_some_iff.mp h.opens
    rw [Token.text, hinner]
    exact List.cons_ne_nil _ inner
  | _ => exact text_ne_nil_of_mem_openings (by decide)

/-- Wherever the text stands, the tokens are read from it, and nothing of it is left. -/
def Reads (cc : CharClass) (cs : List Char) (ts : List Token) : Prop :=
  ∀ p, (lexFrom cc p cs).tokens.map Located.token = ts ∧ (lexFrom cc p cs).stopped = none

namespace Reads

theorem nil : Reads cc [] [] := by
  intro p
  rw [lexFrom]
  exact ⟨rfl, rfl⟩

theorem skip (h : Reads cc behind ts) (hcc : cc.Plain) (hgap : IsGap gap behind) :
    Reads cc (gap ++ behind) ts := by
  intro p
  rw [hcc.lexFrom_gap hgap]
  exact h _

theorem token (h : Reads cc behind ts) (hcc : cc.Plain) (ht : t.Complete cc behind) :
    Reads cc (t.text.toList ++ behind) (t :: ts) := by
  intro p
  obtain ⟨htokens, hstopped⟩ := h (p.after cc t.text.toList)
  rw [lexFrom_read ht.text_ne_nil (hcc.piece?_token ht)]
  exact ⟨congrArg (t :: ·) htokens, hstopped⟩

end Reads

/-! ## Layouts -/

theorem IsBraced.isBlock (h : IsBraced text) : IsBlock text where
  opens := h.opens
  balanced := h.balanced
  shortest front hfront hne hbalanced := by
    obtain ⟨behind, rfl⟩ := hfront
    cases behind with
    | nil => rw [List.append_nil]
    | cons c behind =>
      have hinside := h.inside front.length (by simp) (List.length_pos_iff.mpr hne)
      rw [List.take_left] at hinside
      exact absurd hbalanced.symm (Nat.ne_of_lt hinside)

theorem Token.Writable.complete (h : t.Writable cc)
    (hbehind : ∀ d ∈ behind.head?, cc.isContinue d = false) : t.Complete cc behind := by
  cases t with
  | ident name =>
    refine ⟨?_, hbehind⟩
    cases hname : name.toList with
    | nil => exact absurd h (by rw [Writable, hname]; exact id)
    | cons c run =>
      rw [Writable, hname] at h
      exact ⟨c, run, rfl, h.1, List.all_eq_true.mp h.2⟩
  | code text => exact IsBraced.isBlock h
  | _ => trivial

namespace Separator

variable (s : Separator)

theorem isGap : IsGap s.text behind := by
  have hcomments (comments : List (List Char))
      (hline : ∀ text ∈ comments, ∀ c ∈ text, isLineEnd c = false) :
      IsGap (comments.flatMap fun text => '/' :: '/' :: text ++ ['\n']) behind := by
    induction comments with
    | nil => exact .nil
    | cons text comments ih =>
      rw [List.flatMap_cons, List.append_assoc]
      refine .comment (hline text List.mem_cons_self) (fun c hc => ?_)
        (.blank rfl (ih fun text' h => hline text' (List.mem_cons_of_mem text h)))
      rw [← Option.some.inj hc]
      rfl
  have hline : ∀ text ∈ s.comments, ∀ c ∈ text, isLineEnd c = false := by simpa using s.line
  exact (IsGap.of_blanks (List.all_eq_true.mp s.blank)).append (hcomments s.comments hline)

theorem head?_append (hcc : cc.Plain) :
    ∀ d ∈ (s.text ++ behind).head?, cc.isContinue d = false := by
  obtain ⟨c, rest, hblanks⟩ := List.exists_cons_of_ne_nil s.nonempty
  intro d hd
  rw [text, hblanks] at hd
  obtain rfl : c = d := Option.some.inj hd
  exact (hcc.blanks c (List.all_eq_true.mp s.blank c (hblanks ▸ List.mem_cons_self))).2

end Separator

namespace Layout

theorem reads_words (hcc : cc.Plain) {words : List (Token × Separator)}
    (hwords : ∀ w ∈ words, w.1.Writable cc) (h : Reads cc behind ts) :
    Reads cc ((words.flatMap fun w => w.1.text.toList ++ w.2.text) ++ behind)
      (words.map Prod.fst ++ ts) := by
  induction words with
  | nil => exact h
  | cons w words ih =>
    have hrest := ih fun w' hw' => hwords w' (List.mem_cons_of_mem w hw')
    rw [List.flatMap_cons, List.append_assoc, List.append_assoc]
    exact (hrest.skip hcc w.2.isGap).token hcc
      ((hwords w List.mem_cons_self).complete (w.2.head?_append hcc))

theorem reads_text (hcc : cc.Plain) (l : Layout) (h : ∀ t ∈ l.tokens, t.Writable cc) :
    Reads cc l.text l.tokens := by
  have hlast : Reads cc (l.last.elim [] fun t => t.text.toList) l.last.toList := by
    cases hl : l.last with
    | none => exact .nil
    | some t =>
      have ht : t.Writable cc := h t (by simp [tokens, hl])
      have hread := Reads.nil.token hcc (ht.complete (by simp))
      rwa [List.append_nil] at hread
  have hwords := reads_words hcc (fun w hw => h w.1 (by
    rw [tokens]
    exact List.mem_append_left _ (List.mem_map_of_mem hw))) hlast
  rw [text, List.append_assoc]
  cases l.lead with
  | none => exact hwords
  | some s => exact hwords.skip hcc s.isGap

/-- However the tokens are laid out, they are read again, and nothing else is. -/
theorem lex_text (l : Layout) (h : ∀ t ∈ l.tokens, t.Writable .unicode) :
    (lex .unicode (.ofList l.text)).tokens.map Located.token = l.tokens ∧
      (lex .unicode (.ofList l.text)).stopped = none := by
  rw [lex, String.toList_ofList]
  exact reads_text CharClass.plain_unicode l h .zero

/-- A keyword before an identifier, comments that hold tokens, and a block that holds a comment,
quotes and line ends. -/
def sample : Layout where
  lead := none
  words := [
    (.tokenKeyword, ⟨[' '], [], by decide, by decide, by decide⟩),
    (.ident "token", ⟨['\t', '\r'], [" \x7b %type".toList, []], by decide, by decide, by decide⟩),
    (.semicolon, ⟨['\n'], ["; //".toList], by decide, by decide, by decide⟩),
    (.code "\x7b // \x7b\"\n\x7d 'é'\r\x7d", ⟨['\n', ' '], [], by decide, by decide, by decide⟩)]
  last := some (.ident "é1")

theorem lex_sample :
    String.ofList sample.text =
        "%token token\t\r// \x7b %type\n//\n;\n//; //\n\x7b // \x7b\"\n\x7d 'é'\r\x7d\n é1" ∧
      (lex .unicode (.ofList sample.text)).tokens.map Located.token =
        [.tokenKeyword, .ident "token", .semicolon, .code "\x7b // \x7b\"\n\x7d 'é'\r\x7d",
          .ident "é1"] ∧
      (lex .unicode (.ofList sample.text)).stopped = none :=
  ⟨by decide +kernel, sample.lex_text (by decide +kernel)⟩

end Layout

end ShiftReduce.Source
