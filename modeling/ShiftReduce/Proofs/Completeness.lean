import ShiftReduce.Proofs.Expectation
import ShiftReduce.Proofs.Runs

/-!
# Completeness of tables without conflicts

Without conflicts the action of a state is the only candidate. So a run can be led along a rightmost
derivation, from its last step to its first one: it shifts up to the end of the right side that the
step has brought in, where the reduction that undoes the step is a candidate, and therefore what the
table says.
-/

namespace ShiftReduce

namespace Table

/-- No state has two different candidates for the same terminal. -/
def ConflictFree (t : Table) : Prop :=
  ∀ (i : StateId) (s : State), t.states[i]? = some s → ∀ a x y,
    s.Candidate a t.config.endOfInput x → s.Candidate a t.config.endOfInput y → x = y

variable {t : Table} {i : StateId} {a : String} {x : Action}

/-- A candidate is the action. -/
theorem ConflictFree.action_eq (h : t.ConflictFree) (ht : t.Complete) (hi : i < t.size)
    (hx : (t.get i).Candidate a t.config.endOfInput x) : t.action i a = .ok x := by
  rw [Run.action_eq hi]
  rcases (ht.built i hi).action_cases (a := a) (e := t.config.endOfInput) with hc | ⟨-, hno⟩
  · rw [h i _ (getElem?_eq_some.mpr ⟨hi, rfl⟩) a _ _ hc hx]
  · exact absurd hx (hno x)

end Table

/-! ## Checking for conflicts -/

namespace State

/-- The terminals that the items of a state speak of, and the end of input. -/
def mentioned (s : State) (endOfInput : String) : List String :=
  endOfInput :: s.items.flatMap fun k =>
    (k.nextSymbol?.toList ++ k.lookaheads.toList).map Symbol.name

/-- What the items of a state say about a terminal. -/
def verdicts (s : State) (a endOfInput : String) : List Action :=
  s.items.filterMap (verdict s.method a endOfInput)

/-- What an item says about a terminal that is not mentioned it says about the end of input too. -/
theorem verdict_of_not_mentioned {s : State} {k : Item} {a e : String} {x : Action}
    (hk : k ∈ s.items) (ha : a ∉ s.mentioned e) (hx : verdict s.method a e k = some x) :
    verdict s.method e e k = some x := by
  have hname (y : Symbol) (hy : y ∈ k.nextSymbol?.toList ++ k.lookaheads.toList) : y.name ≠ a :=
    fun he => ha (List.mem_cons_of_mem _
      (List.mem_flatMap.mpr ⟨k, hk, List.mem_map.mpr ⟨y, hy, he⟩⟩))
  unfold verdict at hx ⊢
  split at hx
  · rename_i y hnext
    split at hx
    · rename_i hy
      refine absurd (congrArg Symbol.name hy) (hname y (List.mem_append_left _ ?_))
      rw [hnext]
      exact List.mem_singleton_self y
    · cases hx
  · rename_i hnext
    split at hx
    · rename_i hacc
      split at hx
      · rename_i he
        exact absurd (he ▸ List.mem_cons_self) ha
      · cases hx
    · rename_i hacc
      split at hx
      · rename_i hred
        have hlr0 : s.method = .lr0 := by
          simp only [reducibleBefore, Bool.or_eq_true, decide_eq_true_eq, List.any_eq_true] at hred
          rcases hred with hm | ⟨y, hy, he⟩
          · exact hm
          · exact absurd he (hname y (List.mem_append_right _ hy))
        simp only [hacc, reducibleBefore, hlr0, decide_true, Bool.true_or, if_true]
        exact hx
      · cases hx

end State

namespace Table

/-- Whether the items of each state agree on each terminal. -/
def clashFree (t : Table) : Bool :=
  t.states.toList.all fun s => (s.mentioned t.config.endOfInput).all fun a =>
    let said := s.verdicts a t.config.endOfInput
    said.all fun x => said.all fun y => x = y

theorem conflictFree_iff {t : Table} (ht : t.Complete) :
    t.ConflictFree ↔ t.clashFree = true := by
  have hmem {i : StateId} (hi : i < t.size) (a : String) (x : Action) :
      (t.get i).Candidate a t.config.endOfInput x ↔
        x ∈ (t.get i).verdicts a t.config.endOfInput := by
    rw [(ht.built i hi).candidate_iff, State.verdicts, List.mem_filterMap]
  simp only [clashFree, List.all_eq_true, decide_eq_true_eq]
  constructor
  · intro h s hs a _ x hx y hy
    obtain ⟨i, hi⟩ := List.mem_iff_getElem?.mp hs
    rw [Array.getElem?_toList] at hi
    obtain ⟨hlt, rfl⟩ := getElem?_eq_some.mp hi
    exact h i _ hi a x y ((hmem hlt a x).mpr hx) ((hmem hlt a y).mpr hy)
  · intro h i s hs a x y hx hy
    obtain ⟨hlt, rfl⟩ := getElem?_eq_some.mp hs
    have hin : t.get i ∈ t.states.toList := by
      rw [Array.mem_toList_iff]
      exact Array.mem_of_getElem? hs
    by_cases ha : a ∈ (t.get i).mentioned t.config.endOfInput
    · exact h _ hin a ha x ((hmem hlt a x).mp hx) y ((hmem hlt a y).mp hy)
    · have hend (z : Action) (hz : (t.get i).Candidate a t.config.endOfInput z) :
          z ∈ (t.get i).verdicts t.config.endOfInput t.config.endOfInput := by
        obtain ⟨k, hk, hv⟩ := (ht.built i hlt).candidate_iff.mp hz
        exact List.mem_filterMap.mpr ⟨k, hk, State.verdict_of_not_mentioned hk ha hv⟩
      exact h _ hin _ List.mem_cons_self x (hend x hx) y (hend y hy)

end Table

/-- No string that rule 1 leads to has its left side, if no right side has it. -/
theorem Grammar.id_ne_of_rightmost {g : Grammar} {q r : Rule} {ids : List RuleId}
    {before after : List Symbol} (hr : g.startRule = .ok r)
    (hstart : ∀ q ∈ g.rules, .intermediate r.left ∉ q.right) (hq : q ∈ g.rules)
    (hby : g.RightmostBy ids r.right (before ++ .intermediate q.left :: after)) :
    q.id ≠ startId := by
  intro he
  obtain ⟨hmem, hid⟩ := startRule_eq_ok_iff.mp hr
  obtain rfl : q = r := eq_of_id_eq hq hmem (he.trans hid.symm)
  have hleft : Symbol.intermediate q.left ∈ before ++ .intermediate q.left :: after :=
    List.mem_append_right _ List.mem_cons_self
  rcases hby.derives.mem hleft with hin | ⟨p, hp, hin⟩
  · exact hstart q hmem hin
  · exact hstart p hp hin

namespace Setup

/-- A path that leads somewhere has led somewhere all along. -/
theorem exists_core_of_append {u : Setup} {path word : List Symbol}
    (h : ∃ c, c ∈ (u.along (path ++ word)).cores) : ∃ c, c ∈ (u.along path).cores := by
  induction word using List.reverseRecOn with
  | nil => simpa using h
  | append_singleton word x ih =>
    obtain ⟨c, hc⟩ := h
    rw [← List.append_assoc] at hc
    obtain ⟨d, hd, -⟩ := exists_waits_of_along hc
    exact ih ⟨d, hd⟩

end Setup

/-! ## Following a derivation -/

namespace Run

variable {t : Table} {path before after : List Symbol} {stack : List StateId} {q r : Rule}
  {x : String} {v w shifted input : List String} {reduced ids : List RuleId}

/-- What a path asks for is on the way: the state on top leads further. -/
theorem exists_successor (ht : t.Complete) {i : StateId} {rest : List StateId} {y : Symbol}
    (hs : Spells t path (i :: rest)) (hne : ∃ c, c ∈ (t.setup.along (path ++ [y])).cores) :
    ∃ j, (t.get i).successor? y = some j ∧ Spells t (path ++ [y]) (j :: i :: rest) := by
  obtain ⟨j, hj⟩ := ht.exists_follow? hne
  rw [Table.follow?_append_singleton, hs.follow?_eq] at hj
  exact ⟨j, hj, hs.push hj⟩

/-- Terminals that the item sets ask for are shifted. -/
theorem shift_word (ht : t.Complete) (hfree : t.ConflictFree) (v : List String)
    (hs : Spells t path stack)
    (hne : ∃ c, c ∈ (t.setup.along (path ++ v.map .terminal)).cores) :
    ∃ stack', Spells t (path ++ v.map .terminal) stack' ∧
      Steps t ⟨stack, v ++ input, shifted, reduced⟩ ⟨stack', input, shifted ++ v, reduced⟩ := by
  induction v generalizing path stack shifted with
  | nil =>
    refine ⟨stack, by simpa using hs, ?_⟩
    rw [List.append_nil]
    exact .refl _
  | cons x v ih =>
    rw [List.map_cons, List.append_cons] at hne ⊢
    obtain ⟨i, rest, rfl⟩ := hs.exists_top
    have hi := (hs.at_top ht).lt
    obtain ⟨j, hj, hs'⟩ := exists_successor ht hs (Setup.exists_core_of_append hne)
    obtain ⟨k, hk, hx⟩ := State.mem_nextSymbols.mp (State.mem_nextSymbols_of_successor? hj)
    have hnext : k.next = some j := ((ht.built i hi).uniform k hk _ hx).trans hj
    have hact := hfree.action_eq ht hi (.shift hk hx hnext)
    obtain ⟨stack', hspells, hsteps⟩ : ∃ stack', Spells t (path ++ [.terminal x] ++
        v.map .terminal) stack' ∧ Steps t ⟨j :: i :: rest, v ++ input, shifted ++ [x], reduced⟩
          ⟨stack', input, shifted ++ [x] ++ v, reduced⟩ := ih hs' hne
    refine ⟨stack', hspells, .step (step_shift hact) ?_⟩
    rwa [List.append_assoc, List.singleton_append] at hsteps

/-- What is still missing of a right side is shifted. -/
theorem shift_rest (ht : t.Complete) (hfree : t.ConflictFree) (hq : q ∈ t.grammar.rules)
    (hb : t.setup.Begun before q after) (hhandle : before ++ q.right = path ++ v.map .terminal)
    (hs : Spells t path stack) : ∃ stack', Spells t (before ++ q.right) stack' ∧
      Steps t ⟨stack, v ++ input, shifted, reduced⟩ ⟨stack', input, shifted ++ v, reduced⟩ := by
  have hne : ∃ c, c ∈ (t.setup.along (path ++ v.map .terminal)).cores := by
    rw [← hhandle]
    exact ⟨_, (hb.complete hq).1⟩
  rw [hhandle]
  exact shift_word ht hfree v hs hne

/-- The item that completes a rule whose right side is on top of the stack. -/
theorem exists_complete_item (ht : t.Complete) {i : StateId} {rest : List StateId}
    (hq : q ∈ t.grammar.rules) (hb : t.setup.Begun path q after)
    (hs : Spells t (path ++ q.right) (i :: rest)) :
    ∃ k ∈ (t.get i).items, k.rule = q ∧ k.nextSymbol? = none ∧ (t.config.method ≠ .lr0 →
      ∀ y, t.grammar.Ahead t.config.endOfInput after y → .terminal y ∈ k.lookaheads) := by
  have hat := hs.at_top ht
  have hbuilt := ht.built i hat.lt
  obtain ⟨hcore, hla⟩ := hb.complete hq
  rw [← hat.cores] at hcore
  obtain ⟨k, hk, hc⟩ := State.mem_cores.mp hcore
  have hrule : k.rule = q := Grammar.eq_of_id_eq (hbuilt.proper.rules k hk) hq
    (congrArg Core.rule hc)
  refine ⟨k, hk, hrule, ?_, fun hm y hy => ?_⟩
  · rw [State.nextSymbol?_eq_none_iff, hrule]
    exact congrArg Core.dot hc
  · have hahead : t.setup.ahead = true := by
      change decide (t.config.method ≠ .lr0) = true
      exact decide_eq_true hm
    obtain ⟨k', hk', hc', hy'⟩ := State.mem_pairs.mp (hat.lookaheads (hla hahead y hy))
    rwa [hbuilt.proper.item_eq hk' hk (hc'.trans hc.symm)] at hy'

/-- A right side on top of the stack is reduced where its left side is expected. -/
theorem reduce_rule (ht : t.Complete) (hfree : t.ConflictFree) (hq : q ∈ t.grammar.rules)
    (hne : q.id ≠ startId) (hexp : t.setup.Expects path q.left (w.map .terminal))
    (hs : Spells t (path ++ q.right) stack) (hx : w ++ [t.config.endOfInput] = x :: input) :
    ∃ stack', Spells t (path ++ [.intermediate q.left]) stack' ∧
      Steps t ⟨stack, x :: input, shifted, reduced⟩
        ⟨stack', x :: input, shifted, reduced ++ [q.id]⟩ := by
  obtain ⟨i, rest, hstack⟩ := hs.exists_top
  rw [hstack] at hs
  have hi := (hs.at_top ht).lt
  obtain ⟨k, hk, rfl, hend, hla⟩ := exists_complete_item ht hq (hexp.begun hq) hs
  have hadmits : (t.get i).method = .lr0 ∨ .terminal x ∈ k.lookaheads := by
    by_cases hm : t.config.method = .lr0
    · exact .inl ((ht.method hi).trans hm)
    · exact .inr (hla hm x (Grammar.ahead_of_terminals hx))
  have hact := hfree.action_eq ht hi (.reduce hk hend hne hadmits)
  have hbelow := hs.drop
  obtain ⟨below, others, hdrop⟩ := hbelow.exists_top
  rw [hdrop] at hbelow
  have hat := hbelow.at_top ht
  obtain ⟨c, hc, rest', hw, -⟩ := hexp
  rw [← hat.cores] at hc
  obtain ⟨target, htarget⟩ := ht.linked below _
    ((State.mem_nextSymbols_iff_waits (ht.built below hat.lt).proper).mpr ⟨c, hc, rest', hw⟩)
  have hgoto : t.goto? below k.rule.left = .ok (some target) := by
    rw [goto?_eq hat.lt, htarget]
  exact ⟨target :: below :: others, hbelow.push htarget,
    .step (step_reduce hstack hact (Grammar.rule_id hq) (hstack ▸ hdrop) hgoto) (.refl _)⟩

/-- Where the right side of rule 1 is on the stack and the input is at its end, the run accepts. -/
theorem accepts_of_spells (ht : t.Complete) (hfree : t.ConflictFree)
    (hr : t.grammar.startRule = .ok r) (hs : Spells t r.right stack) :
    (⟨stack, [t.config.endOfInput], shifted, reduced⟩ : Run).step t = .accepted := by
  obtain ⟨i, rest, rfl⟩ := hs.exists_top
  obtain ⟨hmem, hid⟩ := Grammar.startRule_eq_ok_iff.mp hr
  have hi := (hs.at_top ht).lt
  have hb : t.setup.Begun [] r [] := Setup.begun_start hr
  obtain ⟨k, hk, rfl, hend, -⟩ := exists_complete_item ht hmem hb (by simpa using hs)
  exact step_accept (hfree.action_eq ht hi (.accept hk hend hid rfl))

/-- What has been spelled when a reduction is due is a part of what is to be reduced: it is empty or
ends in an intermediate, and only terminals come behind the right side. -/
theorem split_handle {handle : List Symbol} (hpath : path = [] ∨ ∃ before name,
    path = before ++ [.intermediate name])
    (h : path ++ v.map .terminal = handle ++ w.map .terminal) :
    ∃ v', handle = path ++ v'.map .terminal ∧ v = v' ++ w := by
  have hinj : Function.Injective Symbol.terminal := fun _ _ => Symbol.terminal.inj
  rcases List.append_eq_append_iff.mp h with ⟨l, hl, hr⟩ | ⟨l, hl, hr⟩
  · obtain ⟨v1, v2, rfl, rfl, hw⟩ := List.map_eq_append_iff.mp hr
    exact ⟨v1, hl, by rw [hinj.list_map hw]⟩
  · obtain ⟨w1, w2, rfl, rfl, hv⟩ := List.map_eq_append_iff.mp hr
    have hnil : w1 = [] := by
      cases w1 using List.reverseRecOn with
      | nil => rfl
      | append_singleton w1 z =>
        rw [List.map_append, ← List.append_assoc] at hl
        rcases hpath with rfl | ⟨before, name, rfl⟩
        · exact absurd hl.symm (by simp)
        · have hlast := (List.append_inj' hl rfl).2
          cases hlast
    subst hnil
    refine ⟨[], by simpa using hl.symm, ?_⟩
    rw [List.nil_append, List.nil_append]
    exact (hinj.list_map hv).symm

/-- A run is led along a derivation from where its last step left off. -/
theorem exists_steps_accepted (ht : t.Complete) (hfree : t.ConflictFree)
    (hr : t.grammar.startRule = .ok r)
    (hstart : ∀ q ∈ t.grammar.rules, .intermediate r.left ∉ q.right)
    (hby : t.grammar.RightmostBy ids r.right (path ++ v.map .terminal))
    (hpath : path = [] ∨ ∃ before name, path = before ++ [.intermediate name])
    (hs : Spells t path stack) : ∃ a,
    Steps t ⟨stack, v ++ [t.config.endOfInput], shifted, reduced⟩ a ∧ a.step t = .accepted ∧
      a.input = [t.config.endOfInput] ∧ a.reduced = reduced ++ ids.reverse := by
  have hmem := (Grammar.startRule_eq_ok_iff.mp hr).1
  induction ids using List.reverseRecOn generalizing path v stack shifted reduced with
  | nil =>
    generalize hw : path ++ v.map .terminal = word at hby
    cases hby with
    | refl =>
      obtain ⟨stack', hs', hsteps⟩ := shift_rest ht hfree hmem (Setup.begun_start hr) hw.symm hs
      exact ⟨_, hsteps, accepts_of_spells ht hfree hr hs', rfl, by simp⟩
  | append_singleton ids id ih =>
    obtain ⟨q, hq, rfl, before, w, hby', hsplit⟩ := hby.exists_last
    obtain ⟨v', hhandle, rfl⟩ := split_handle hpath hsplit
    have hexp : t.setup.Expects before q.left (w.map .terminal) :=
      Setup.expects_of_rightmost hr hby'
    obtain ⟨stack', hs', hsteps⟩ := shift_rest ht hfree hq (hexp.begun hq) hhandle hs
    have hid : q.id ≠ startId := Grammar.id_ne_of_rightmost hr hstart hq hby'
    obtain ⟨x, input', hx⟩ := List.exists_cons_of_ne_nil
      (List.append_ne_nil_of_right_ne_nil w (List.cons_ne_nil t.config.endOfInput []))
    obtain ⟨stack'', hs'', hreduce⟩ := reduce_rule ht hfree hq hid hexp hs' hx
    rw [← hx] at hreduce
    obtain ⟨a, hrest, hacc, hinput, hred⟩ := ih (v := w) (by simpa using hby')
      (.inr ⟨before, q.left, rfl⟩) hs''
    refine ⟨a, ?_, hacc, hinput, ?_⟩
    · rw [List.append_assoc]
      exact hsteps.trans (hreduce.trans hrest)
    · rw [hred, List.reverse_append, List.append_assoc]
      rfl

end Run

/-- A table without conflicts accepts whatever rule 1 derives: a rightmost derivation is what the
reductions of the run are in reverse order. So there is only one. The grammar may use its start
symbol in no right side. -/
theorem Table.accepts_of_rightmost (edits : List Edit) {config : Config} {r : Rule} {t : Table}
    (hr : (Grammar.ofEdits edits).startRule = .ok r)
    (hstart : ∀ q ∈ (Grammar.ofEdits edits).rules, .intermediate startName ∉ q.right)
    (ht : build (.ofEdits edits) config = .ok t) (hfree : t.ConflictFree) {ids : List RuleId}
    {w : List String} (hby : (Grammar.ofEdits edits).RightmostBy ids r.right (w.map .terminal)) :
    (∃ a, Run.Steps t (.start t w) a ∧ a.step t = .accepted ∧ a.input = [config.endOfInput] ∧
      a.reduced = ids.reverse) ∧
    ∀ ids', (Grammar.ofEdits edits).RightmostBy ids' r.right (w.map .terminal) → ids' = ids := by
  have hcomplete := complete_of_build ht
  have hleft := (Grammar.startsRight_ofEdits edits).left hr
  rw [← grammar_of_build ht] at hr hstart hby ⊢
  rw [← config_of_build ht]
  have hrun {ids : List RuleId} (h : t.grammar.RightmostBy ids r.right (w.map .terminal)) :
      ∃ a, Run.Steps t (.start t w) a ∧ a.step t = .accepted ∧ a.input = [t.config.endOfInput] ∧
        a.reduced = ids.reverse :=
    Run.exists_steps_accepted hcomplete hfree hr (hleft ▸ hstart) h (.inl rfl) .start
  refine ⟨hrun hby, fun ids' hby' => ?_⟩
  obtain ⟨a, ha, hacc, -, hred⟩ := hrun hby
  obtain ⟨b, hb, hacc', -, hred'⟩ := hrun hby'
  rw [ha.eq_of_accepted hb hacc hacc', hred'] at hred
  exact List.reverse_inj.mp hred

theorem Table.accepts_of_rightmost_sample : ∃ t,
    build (.ofEdits sampleEdits) ⟨.lr1, "EOI"⟩ = .ok t ∧ t.ConflictFree ∧
      (∃ a, Run.Steps t (.start t ["d", "d"]) a ∧ a.step t = .accepted ∧ a.input = ["EOI"] ∧
        a.reduced = [4, 4, 2]) ∧
      ∀ ids, (Grammar.ofEdits sampleEdits).RightmostBy ids [.intermediate "S"]
        [.terminal "d", .terminal "d"] → ids = [2, 4, 4] := by
  rcases build_cases startRule_sample ⟨.lr1, "EOI"⟩ with ⟨herror, -⟩ | ⟨t, ht⟩
  · exact absurd herror (by decide +kernel)
  have hfree : t.ConflictFree := by
    rw [conflictFree_iff (complete_of_build ht)]
    have hclash : (build (.ofEdits sampleEdits) ⟨.lr1, "EOI"⟩).map clashFree = .ok true := by
      decide +kernel
    rw [ht] at hclash
    exact Except.ok.inj hclash
  have hs : (⟨⟨"S", [.intermediate "C", .intermediate "C"], ""⟩, 2⟩ : Rule) ∈
      (Grammar.ofEdits sampleEdits).rules := by
    decide +kernel
  have hd : (⟨⟨"C", [.terminal "d"], ""⟩, 4⟩ : Rule) ∈ (Grammar.ofEdits sampleEdits).rules := by
    decide +kernel
  have hby : (Grammar.ofEdits sampleEdits).RightmostBy [2, 4, 4] [.intermediate "S"]
      [.terminal "d", .terminal "d"] :=
    .step (u := []) (w := []) hs (.step (u := [.intermediate "C"]) (w := []) hd
      (.step (u := []) (w := ["d"]) hd (.refl _)))
  have hrun := accepts_of_rightmost sampleEdits (w := ["d", "d"]) startRule_sample
    start_not_mem_sample ht hfree hby
  exact ⟨t, ht, hfree, hrun⟩

end ShiftReduce
