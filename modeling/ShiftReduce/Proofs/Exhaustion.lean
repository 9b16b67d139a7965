import ShiftReduce.Proofs.Cursor
import ShiftReduce.Proofs.Loading
import ShiftReduce.Proofs.Printing

/-!
# How loading ends

Every source is loaded or rejected with an error, unless it has more alternatives than there are
rule numbers. This takes some 65000 characters, and then the numbers run out where an answer is due.
-/

namespace ShiftReduce

open Source

/-! ## Sources and their lengths -/

theorem Source.Statement.length_alternatives_le (s : Statement) :
    s.alternatives.length ≤ s.tokens.length := by
  cases s with
  | terminals names => exact Nat.zero_le _
  | type name code => exact Nat.zero_le _
  | rules left first others =>
    have hbars : others.length ≤ (others.flatMap fun a => Token.bar :: a.tokens).length := by
      induction others with
      | nil => exact Nat.le_refl 0
      | cons a others ih =>
        simp only [List.flatMap_cons, List.length_append, List.length_cons]
        omega
    simp only [Statement.alternatives, Statement.tokens, List.length_map, List.length_cons,
      List.length_append]
    omega

/-- Each alternative takes up a character at least. -/
theorem Source.length_alternatives_le {cc : CharClass} {source : String} {ss : List Statement}
    (h : parse cc source = .ok ss) :
    (ss.flatMap Statement.alternatives).length ≤ source.toList.length := by
  obtain ⟨-, hwritten⟩ := parse_eq_ok_iff.mp h
  have htokens := length_tokens_lexFrom cc .zero source.toList
  have hlength : (lex cc source).tokens.length = (ss.flatMap Statement.tokens).length := by
    rw [← hwritten, List.length_map]
  have hall : (ss.flatMap Statement.alternatives).length ≤
      (ss.flatMap Statement.tokens).length := by
    clear h hwritten hlength
    induction ss with
    | nil => exact Nat.le_refl 0
    | cons s ss ih =>
      have hs := s.length_alternatives_le
      simp only [List.flatMap_cons, List.length_append]
      omega
  rw [← hlength] at hall
  exact Nat.le_trans hall htokens

namespace Grammar

/-! ## Outcomes -/

/-- A grammar, or an error of the source. -/
def LoadsOrRejects (cc : CharClass) (source : String) : Prop :=
  (∃ g, load cc source = .ok g) ∨ ∃ e, load cc source = .error (.source e)

/-- How the loading of a source ends. -/
structure Outcomes (cc : CharClass) (source : String) : Prop where
  /-- Reading with a cursor and with a count of braces ends in the same way, and nothing leaves a
  range that holds the length of the source. -/
  counted : ∀ limit, source.toList.length ≤ limit →
    Cursor.parse limit cc source = (parse cc source).mapError .source
  rejected : ∀ e, parse cc source = .error e → load cc source = .error (.source e)
  loaded : ∀ ss, parse cc source = .ok ss → Numberable ss → ∃ g, load cc source = .ok g
  exhausted : ∀ ss, parse cc source = .ok ss → ¬Numberable ss →
    load cc source = .error (.fault .ruleNumbersExhausted)
  /-- A source with no more characters than there are numbers always has an answer. -/
  short : source.toList.length + firstId ≤ lastId + 1 → LoadsOrRejects cc source

theorem numberable_of_length_le {ss : List Statement} {n : Nat}
    (h : (ss.flatMap Statement.alternatives).length ≤ n) (hn : n + firstId ≤ lastId + 1) :
    Numberable ss := by
  unfold Numberable
  exact Nat.le_trans (Nat.add_le_add_right h firstId) (Nat.le_trans hn (Nat.le_add_right _ _))

section Load

variable {cc : CharClass} {source : String} {ss : List Statement}

theorem load_of_rejected {e : SourceError} (h : parse cc source = .error e) :
    load cc source = .error (.source e) := by
  simp only [load, h]

theorem exists_load (h : parse cc source = .ok ss) (hss : Numberable ss) :
    ∃ g, load cc source = .ok g := by
  rcases ofStatements_cases ss with ⟨-, g, hg⟩ | ⟨hnot, -⟩
  · exact ⟨g, by simp only [load, h, hg]⟩
  · exact absurd hss hnot

theorem load_of_not_numberable (h : parse cc source = .ok ss) (hss : ¬Numberable ss) :
    load cc source = .error (.fault .ruleNumbersExhausted) := by
  rcases ofStatements_cases ss with ⟨hyes, -⟩ | ⟨-, hfault⟩
  · exact absurd hyes hss
  · simp only [load, h, hfault]

theorem loadsOrRejects_iff (h : parse cc source = .ok ss) :
    LoadsOrRejects cc source ↔ Numberable ss := by
  constructor
  · intro hends
    by_cases hss : Numberable ss
    · exact hss
    · have hfault := load_of_not_numberable h hss
      rcases hends with ⟨g, hg⟩ | ⟨e, he⟩
      · rw [hfault] at hg
        cases hg
      · rw [hfault] at he
        cases he
  · exact fun hss => .inl (exists_load h hss)

end Load

theorem load_outcomes (cc : CharClass) (source : String) : Outcomes cc source where
  counted := fun limit h => Cursor.parse_eq cc source h
  rejected := fun e h => load_of_rejected h
  loaded := fun ss h hss => exists_load h hss
  exhausted := fun ss h hss => load_of_not_numberable h hss
  short := by
    intro hshort
    cases h : parse cc source with
    | error e => exact .inr ⟨e, load_of_rejected h⟩
    | ok ss =>
      exact .inl (exists_load h (numberable_of_length_le (length_alternatives_le h) hshort))

end Grammar

/-! ## A source with many bars -/

namespace Source

/-- `S ::= | … | ;` with `n` bars. -/
def bars (n : Nat) : String :=
  .ofList (['S', ':', ':', '='] ++ (List.replicate n '|' ++ [';']))

/-- The tokens of bars and a semicolon. -/
theorem reads_bars (n : Nat) : Reads .unicode (List.replicate n '|' ++ [';'])
    (List.replicate n .bar ++ [.semicolon]) := by
  induction n with
  | zero => exact Reads.nil.token (t := .semicolon) CharClass.plain_unicode trivial
  | succ n ih => exact ih.token (t := .bar) CharClass.plain_unicode trivial

theorem parse_bars (n : Nat) :
    parse .unicode (bars n) = .ok [.rules "S" ⟨[], ""⟩ (List.replicate n ⟨[], ""⟩)] := by
  have hname : (Token.ident "S").Complete .unicode
      (Token.defines.text.toList ++ (List.replicate n '|' ++ [';'])) := by
    refine ⟨⟨'S', [], rfl, by decide +kernel, by simp⟩, fun d hd => ?_⟩
    obtain rfl : ':' = d := Option.some.inj hd
    decide +kernel
  have hreads := ((reads_bars n).token (t := .defines) CharClass.plain_unicode trivial).token
    CharClass.plain_unicode hname
  have htokens : (List.replicate n (Alternative.mk [] "")).flatMap
      (fun a => Token.bar :: a.tokens) = List.replicate n .bar := by
    clear hname hreads
    induction n with
    | zero => rfl
    | succ n ih =>
      rw [List.replicate_succ, List.flatMap_cons, ih]
      rfl
  obtain ⟨htoken, hstopped⟩ := hreads .zero
  have hlex : lex .unicode (bars n) = lexFrom .unicode .zero ((Token.ident "S").text.toList ++
      (Token.defines.text.toList ++ (List.replicate n '|' ++ [';']))) := by
    rw [lex, bars, String.toList_ofList]
    rfl
  refine parse_eq_ok_iff.mpr ⟨hlex ▸ hstopped, ?_⟩
  rw [Written, hlex, htoken]
  simp only [List.flatMap_cons, List.flatMap_nil, List.append_nil, Statement.tokens, htokens]
  rfl

end Source

namespace Grammar

/-- Every bar stands for one more alternative. -/
theorem numberable_bars (n : Nat) :
    Numberable [.rules "S" ⟨[], ""⟩ (List.replicate n ⟨[], ""⟩)] ↔ n < 65533 := by
  have hlefts : startName ∉ (([.rules "S" ⟨[], ""⟩ (List.replicate n ⟨[], ""⟩)] :
      List Statement).flatMap Statement.alternatives).map Prod.fst := by
    simp [Statement.alternatives, startName]
  unfold Numberable
  rw [if_neg hlefts]
  simp only [List.flatMap_cons, List.flatMap_nil, List.append_nil, Statement.alternatives,
    List.length_map, List.length_cons, List.length_replicate, firstId, lastId]
  omega

theorem loadsOrRejects_bars (n : Nat) : LoadsOrRejects .unicode (bars n) ↔ n < 65533 := by
  rw [loadsOrRejects_iff (parse_bars n), numberable_bars]

/-- With one bar more than there are numbers for neither a grammar nor an error comes back. -/
theorem not_loadsOrRejects_bars :
    load .unicode (bars 65533) = .error (.fault .ruleNumbersExhausted) ∧
      ¬LoadsOrRejects .unicode (bars 65533) := by
  have hnot : ¬Numberable [.rules "S" ⟨[], ""⟩ (List.replicate 65533 ⟨[], ""⟩)] := by
    rw [numberable_bars]
    exact Nat.lt_irrefl 65533
  exact ⟨load_of_not_numberable (parse_bars 65533) hnot,
    mt (loadsOrRejects_bars 65533).mp (Nat.lt_irrefl 65533)⟩

end Grammar

end ShiftReduce
