import Mathlib.Data.List.Induction
import Mathlib.Data.List.Nodup
import ShiftReduce.Proofs.Storing

/-!
# Ledgers are balanced

However a ledger has been edited, its tables fit together: the rules go by their numbers, each
number stands once among the alternatives, under the left side of its rule, and the names stand in
the order in which they came. An edit that finds every number taken leaves it so. What a ledger
holds is what the grammar holds that the same edits lead to.
-/

namespace ShiftReduce

/-! ## Tables -/

namespace Entries

variable {κ ν : Type} [DecidableEq κ]

theorem put_of_not_mem {entries : List (κ × ν)} {key : κ} (h : key ∉ entries.map Prod.fst)
    (value : ν) : put entries key value = entries ++ [(key, value)] := by
  induction entries with
  | nil => rfl
  | cons e entries ih =>
    obtain ⟨he, h⟩ := not_or.mp (mt List.mem_cons.mpr h)
    rw [put, if_neg (Ne.symm he), ih h, List.cons_append]

theorem mem_keys_put {entries : List (κ × ν)} {key k : κ} {value : ν} :
    k ∈ (put entries key value).map Prod.fst ↔ k = key ∨ k ∈ entries.map Prod.fst := by
  induction entries with
  | nil => simp [put]
  | cons e entries ih =>
    by_cases he : e.1 = key
    · simp [put, he]
    · simp only [put, he, if_false, List.map_cons, List.mem_cons, ih]
      exact or_left_comm

theorem nodup_keys_put {entries : List (κ × ν)} (h : (entries.map Prod.fst).Nodup) (key : κ)
    (value : ν) : ((put entries key value).map Prod.fst).Nodup := by
  induction entries with
  | nil => simp [put]
  | cons e entries ih =>
    obtain ⟨he, h⟩ := List.nodup_cons.mp h
    by_cases hkey : e.1 = key
    · subst hkey
      simpa [put] using And.intro he h
    · rw [put, if_neg hkey, List.map_cons, List.nodup_cons, mem_keys_put]
      exact ⟨not_or.mpr ⟨hkey, he⟩, ih h⟩

theorem lookup_cons (e : κ × ν) (entries : List (κ × ν)) (k : κ) :
    (e :: entries).lookup k = if k = e.1 then some e.2 else entries.lookup k := by
  obtain ⟨key, value⟩ := e
  by_cases hk : k = key
  · simp [hk]
  · have hne : (k == key) = false := beq_false_of_ne hk
    simp [List.lookup_cons, hne, hk]

theorem lookup_put (entries : List (κ × ν)) (key : κ) (value : ν) (k : κ) :
    (put entries key value).lookup k = if k = key then some value else entries.lookup k := by
  induction entries with
  | nil => rw [put, lookup_cons]
  | cons e entries ih =>
    by_cases he : e.1 = key
    · rw [put, if_pos he, lookup_cons, lookup_cons, he]
      by_cases hk : k = key <;> simp [hk]
    · rw [put, if_neg he, lookup_cons, lookup_cons, ih]
      by_cases hk : k = e.1 <;> simp [hk, he]

theorem lookup_filter_ne {key k : κ} (hk : k ≠ key) (entries : List (κ × ν)) :
    (entries.filter (·.1 ≠ key)).lookup k = entries.lookup k := by
  induction entries with
  | nil => rfl
  | cons e entries ih =>
    by_cases he : e.1 = key
    · rw [List.filter_cons_of_neg (by simpa using he), ih, lookup_cons, he, if_neg hk]
    · rw [List.filter_cons_of_pos (by simpa using he), lookup_cons, lookup_cons, ih]

/-- Values that are put behind those of a key come behind the values of the table. -/
theorem values_put (entries : List (κ × List ν)) (key : κ) (values : List ν) :
    ((put entries key ((entries.lookup key).getD [] ++ values)).flatMap Prod.snd).Perm
      (entries.flatMap Prod.snd ++ values) := by
  induction entries with
  | nil => simp [put]
  | cons e entries ih =>
    rw [lookup_cons]
    by_cases he : e.1 = key
    · rw [if_pos he.symm, put, if_pos he]
      simp only [List.flatMap_cons, Option.getD_some, List.append_assoc]
      exact List.perm_append_comm.append_left e.2
    · rw [if_neg (Ne.symm he), put, if_neg he]
      simp only [List.flatMap_cons, List.append_assoc]
      exact ih.append_left e.2

theorem lookup_of_mem {entries : List (κ × ν)} (h : (entries.map Prod.fst).Nodup) {e : κ × ν}
    (he : e ∈ entries) : entries.lookup e.1 = some e.2 := by
  induction entries with
  | nil => cases he
  | cons d entries ih =>
    obtain ⟨hd, h⟩ := List.nodup_cons.mp h
    rw [lookup_cons]
    rcases List.mem_cons.mp he with rfl | he
    · rw [if_pos rfl]
    · have hne : e.1 ≠ d.1 := fun hkey => hd (hkey ▸ List.mem_map_of_mem he)
      rw [if_neg hne, ih h he]

/-- A table has one order in which its keys ascend. -/
theorem mergeSort_eq_of_perm {entries sorted : List (Nat × ν)} (h : entries.Perm sorted)
    (hlt : sorted.Pairwise fun d e => d.1 < e.1) :
    (entries.mergeSort fun d e => d.1 ≤ e.1) = sorted := by
  have hkeys : (sorted.map Prod.fst).Nodup := List.pairwise_map.mpr (hlt.imp Nat.ne_of_lt)
  have hperm := (List.mergeSort_perm entries fun d e => decide (d.1 ≤ e.1)).trans h
  have hle : (entries.mergeSort fun d e => d.1 ≤ e.1).Pairwise fun d e => d.1 ≤ e.1 := by
    have htrans (c d e : Nat × ν) (hcd : decide (c.1 ≤ d.1)) (hde : decide (d.1 ≤ e.1)) :
        decide (c.1 ≤ e.1) := by
      simp only [decide_eq_true_eq] at hcd hde ⊢
      omega
    have htotal (d e : Nat × ν) : decide (d.1 ≤ e.1) || decide (e.1 ≤ d.1) := by
      simp only [Bool.or_eq_true, decide_eq_true_eq]
      omega
    simpa using List.pairwise_mergeSort htrans htotal entries
  refine hperm.eq_of_pairwise (fun d e hd he hde hed => ?_) hle (hlt.imp Nat.le_of_lt)
  exact List.inj_on_of_nodup_map hkeys (hperm.mem_iff.mp hd) he (Nat.le_antisymm hde hed)

end Entries

/-! ## Sets of names -/

theorem OrderedSet.toList_ofList {α : Type} [Ord α] [Std.TransOrd α] [Std.LawfulEqOrd α]
    [DecidableEq α] (l : List α) : (OrderedSet.ofList l).toList = l.eraseDups := by
  induction l using List.reverseRecOn with
  | nil => rfl
  | append_singleton l a ih =>
    have hlast : ofList (l ++ [a]) = (ofList l).insert a := insertAll_append ∅ l [a]
    rw [hlast, List.eraseDups_append]
    by_cases ha : a ∈ l
    · rw [insert_of_mem (mem_ofList.mpr ha), ih]
      simp [List.removeAll, ha]
    · rw [toList_insert_of_not_mem (mt mem_ofList.mp ha), ih]
      simp [List.removeAll, ha, List.eraseDups_cons]

namespace Ledger

variable {l : Ledger} {g : Grammar} {h : List Rule} {p : Production}

/-! ## Entering a rule -/

theorem alternativesOf_enter (l : Ledger) (id : RuleId) (p : Production) (name : String) :
    (l.enter id p).alternativesOf name =
      if name = p.left then l.alternativesOf name ++ [id] else l.alternativesOf name := by
  show ((Entries.put l.alternatives p.left _).lookup name).getD [] = _
  rw [Entries.lookup_put]
  by_cases hname : name = p.left
  · rw [if_pos hname, if_pos hname, hname, Option.getD_some]
  · rw [if_neg hname, if_neg hname]
    rfl

/-- A rule that gets a new number comes behind the others in the table. -/
theorem productions_enter {id : RuleId} (hid : id ≠ startId)
    (h : id ∉ l.productions.map Prod.fst) (p : Production) :
    (l.enter id p).productions = l.productions ++ [(id, p)] := by
  show (if id = startId then _ else Entries.put l.productions id p) = _
  rw [if_neg hid, Entries.put_of_not_mem h]

/-- Sorting brings rule 1 before the others, which keep their order. -/
theorem productions_enter_startId (hl : l.productions.Pairwise fun d e => d.1 < e.1)
    (h : ∀ e ∈ l.productions, startId < e.1) (p : Production) :
    (l.enter startId p).productions = (startId, p) :: l.productions := by
  have hnew : startId ∉ l.productions.map Prod.fst := by
    intro hid
    obtain ⟨e, he, hid⟩ := List.mem_map.mp hid
    exact absurd hid (Nat.ne_of_gt (h e he))
  show (Entries.put l.productions startId p).mergeSort (fun d e => d.1 ≤ e.1) = _
  rw [Entries.put_of_not_mem hnew]
  exact Entries.mergeSort_eq_of_perm (List.perm_append_singleton _ _)
    (List.pairwise_cons.mpr ⟨h, hl⟩)

/-! ## What adding a rule can do -/

/-- Whether a production becomes rule 1. -/
def Begins (l : Ledger) (p : Production) : Prop :=
  p.left = startName ∧ startId ∉ l.productions.map Prod.fst

theorem addRule_of_begins (h : l.Begins p) :
    l.addRule p = ((l.register p).enter startId p, .ok startId) := by
  unfold addRule
  exact if_pos h

theorem addRule_of_not_begins (h : ¬l.Begins p) :
    l.addRule p =
      if l.nextId < highestCount then
        ({ l.register p with nextId := l.nextId + 1 }.enter l.nextId p, .ok l.nextId)
      else (l.register p, .error .ruleNumbersExhausted) := by
  unfold addRule
  refine (if_neg h).trans ?_
  by_cases hid : l.nextId < highestCount
  · have hdraw : (l.register p).draw = .ok (l.nextId, l.nextId + 1) := if_pos hid
    simp only [hdraw, if_pos hid]
  · have hdraw : (l.register p).draw = .error .ruleNumbersExhausted := if_neg hid
    simp only [hdraw, if_neg hid]

/-! ## Ledgers and grammars -/

/-- A ledger holds what a grammar holds. -/
structure Agrees (l : Ledger) (g : Grammar) : Prop where
  productions : l.productions = g.rules.map fun r => (r.id, r.toProduction)
  keys : (l.alternatives.map Prod.fst).Nodup
  alternatives : ∀ name, l.alternativesOf name = (g.alternatives name).map Rule.id
  /-- The alternatives of all left sides are the rules. -/
  listed : (l.alternatives.flatMap Prod.snd).Perm (g.rules.map Rule.id)
  terminals : l.terminals = g.terminals
  intermediates : l.intermediates = g.intermediates
  types : ∀ name, l.types.lookup name = g.declaredType? name
  nextId : l.nextId = g.nextId
  counted : l.nextId ≤ highestCount
  /-- The start symbol has no rules before it has rule 1. -/
  begins : g.start? = none → g.alternatives startName = []

theorem agrees_empty : empty.Agrees .empty where
  productions := rfl
  keys := List.nodup_nil
  alternatives := fun _ => rfl
  listed := .refl _
  terminals := rfl
  intermediates := rfl
  types := fun _ => rfl
  nextId := rfl
  counted := by decide
  begins := fun _ => rfl

theorem Agrees.rules (h : l.Agrees g) : l.rules = g.rules := by
  rw [Ledger.rules, h.productions, List.map_map]
  exact List.map_id' _

theorem Agrees.ids (h : l.Agrees g) : l.productions.map Prod.fst = g.rules.map Rule.id := by
  rw [h.productions, List.map_map]
  rfl

theorem Agrees.addTerminal (h : l.Agrees g) (name : String) :
    (l.addTerminal name).Agrees (g.addTerminal name) :=
  { h with terminals := congrArg (·.insert name) h.terminals }

theorem Agrees.addIntermediate (h : l.Agrees g) (name : String) :
    (l.addIntermediate name).Agrees (g.addIntermediate name) :=
  { h with intermediates := congrArg (·.insert name) h.intermediates }

theorem Agrees.setType (h : l.Agrees g) (name type : String) :
    (l.setType name type).Agrees (g.setType name type) :=
  { h.addIntermediate name with
    types := by
      intro k
      show (Entries.put l.types name type).lookup k =
        ((name, type) :: g.types.filter (·.1 ≠ name)).lookup k
      rw [Entries.lookup_put, Entries.lookup_cons]
      by_cases hk : k = name
      · rw [if_pos hk, if_pos hk]
      · rw [if_neg hk, if_neg hk, h.types k]
        exact (Entries.lookup_filter_ne hk g.types).symm }

theorem Agrees.names (h : l.Agrees g) : l.toNames = g.toNames :=
  Names.ext h.terminals h.intermediates

theorem Agrees.register (h : l.Agrees g) (p : Production) :
    (l.register p).Agrees (g.register p) :=
  { h with
    terminals := congrArg (fun n => (n.register p).terminals) h.names
    intermediates := congrArg (fun n => (n.register p).intermediates) h.names }

/-- In both the first production of the start symbol becomes rule 1. -/
theorem Agrees.begun (h : l.Agrees g) (hg : g.start? = none) (hp : p.left = startName) :
    (l.enter startId p).Agrees (g.begun p) where
  productions := by
    have hbehind : ∀ r ∈ g.rules, startId < r.id := by
      intro r hr
      rcases Grammar.mem_ids_rules.mp (List.mem_map_of_mem hr) with ⟨-, hstart⟩ | ⟨hid, -⟩
      · rw [hg] at hstart
        cases hstart
      · exact hid
    rw [productions_enter_startId, Grammar.rules_begun hg, List.map_cons, h.productions]
    · rw [h.productions]
      exact List.pairwise_map.mpr g.pairwise_id_rules
    · rw [h.productions]
      exact List.forall_mem_map.mpr hbehind
  keys := Entries.nodup_keys_put h.keys _ _
  alternatives := by
    intro name
    rw [alternativesOf_enter, Grammar.alternatives_begun hg, h.alternatives]
    by_cases hname : name = p.left
    · rw [if_pos hname, if_pos hname, hname, hp, h.begins hg]
      rfl
    · rw [if_neg hname, if_neg hname]
  listed := by
    rw [Grammar.rules_begun hg]
    exact ((Entries.values_put l.alternatives p.left [startId]).trans
      (h.listed.append_right _)).trans (List.perm_append_singleton _ _)
  terminals := h.terminals
  intermediates := h.intermediates
  types := h.types
  nextId := h.nextId
  counted := h.counted
  begins := nofun

/-- In both another production gets the next number. -/
theorem Agrees.extended (h : l.Agrees g) (hid : l.nextId < highestCount)
    (hp : ¬(p.left = startName ∧ g.start? = none)) :
    ({ l with nextId := l.nextId + 1 }.enter l.nextId p).Agrees (g.extended p) where
  productions := by
    have hnew : l.nextId ∉ l.productions.map Prod.fst := by
      rw [h.ids, h.nextId]
      exact g.nextId_not_mem_ids
    have hother : l.nextId ≠ startId := by
      rw [h.nextId]
      exact Nat.ne_of_gt (Nat.lt_add_left g.others.size (Nat.lt_succ_self startId))
    have hbehind := productions_enter (l := { l with nextId := l.nextId + 1 }) hother hnew p
    rw [hbehind, Grammar.rules_extended, List.map_append, h.productions, h.nextId]
    rfl
  keys := Entries.nodup_keys_put h.keys _ _
  alternatives := by
    intro name
    rw [alternativesOf_enter, Grammar.alternatives_extended]
    have hl : Ledger.alternativesOf { l with nextId := l.nextId + 1 } name =
        (g.alternatives name).map Rule.id := h.alternatives name
    by_cases hname : name = p.left
    · rw [if_pos hname, if_pos hname, hl, h.nextId, List.map_append]
      rfl
    · rw [if_neg hname, if_neg hname, hl]
  listed := by
    rw [Grammar.rules_extended, List.map_append, ← h.nextId]
    exact (Entries.values_put l.alternatives p.left [l.nextId]).trans (h.listed.append_right _)
  terminals := h.terminals
  intermediates := h.intermediates
  types := h.types
  nextId := by rw [Grammar.nextId_extended, ← h.nextId]; rfl
  counted := hid
  begins := by
    intro hg
    have hne : startName ≠ p.left := fun hname => hp ⟨hname.symm, hg⟩
    rw [Grammar.alternatives_extended, if_neg hne]
    exact h.begins hg

theorem Agrees.begins_iff (h : l.Agrees g) :
    l.Begins p ↔ p.left = startName ∧ g.start? = none := by
  unfold Begins
  rw [h.ids, Grammar.startId_mem_ids, Option.not_isSome_iff_eq_none]

/-- Adding a rule to both has the same answer and keeps them in agreement. -/
theorem Agrees.addRule (h : l.Agrees g) (p : Production) :
    (l.addRule p).1.Agrees (g.addRule p).1 ∧ (l.addRule p).2 = (g.addRule p).2 := by
  have hreg := h.register p
  have hnext : (l.register p).nextId = l.nextId := rfl
  have hbegins : l.Begins p ↔ p.left = startName ∧ (g.register p).start? = none := by
    rw [h.begins_iff, Grammar.start?_register]
  have hcount : l.nextId < highestCount ↔ (g.register p).nextId ≤ lastId := by
    rw [← hreg.nextId, hnext]
    exact Nat.lt_succ_iff
  unfold Grammar.addRule
  rcases (g.register p).store_cases p with ⟨hp, hstore⟩ | ⟨hp, hid, hstore⟩ | ⟨hp, hid, hstore⟩
  · rw [addRule_of_begins (hbegins.mpr hp), hstore]
    exact ⟨hreg.begun hp.2 hp.1, rfl⟩
  · rw [addRule_of_not_begins (mt hbegins.mp hp), if_pos (hcount.mpr hid), hstore, ← hreg.nextId,
      hnext]
    exact ⟨hnext ▸ hreg.extended (hnext.symm ▸ hcount.mpr hid) hp, rfl⟩
  · rw [addRule_of_not_begins (mt hbegins.mp hp), if_neg (mt hcount.mp (Nat.not_le_of_lt hid)),
      hstore]
    exact ⟨hreg, rfl⟩

theorem Agrees.apply (h : l.Agrees g) (e : Edit) : (l.apply e).Agrees (e.apply g) := by
  cases e with
  | addTerminal name => exact h.addTerminal name
  | addIntermediate name => exact h.addIntermediate name
  | setType name type => exact h.setType name type
  | addRule p => exact (h.addRule p).1

theorem Agrees.foldl (h : l.Agrees g) (edits : List Edit) :
    (edits.foldl Ledger.apply l).Agrees (edits.foldl Edit.apply g) := by
  induction edits generalizing l g with
  | nil => exact h
  | cons e edits ih => exact ih (h.apply e)

theorem agrees_ofEdits (edits : List Edit) : (ofEdits edits).Agrees (.ofEdits edits) :=
  agrees_empty.foldl edits

/-! ## What has been stored -/

/-- The rules of a grammar are `h`, in the order in which they have been stored. -/
structure Recounts (g : Grammar) (h : List Rule) : Prop where
  stored : g.rules.Perm h
  order : ∀ name, h.filter (·.left = name) = g.alternatives name

theorem filter_append_singleton (h : List Rule) (r : Rule) (name : String) :
    (h ++ [r]).filter (·.left = name) =
      if name = r.left then h.filter (·.left = name) ++ [r] else h.filter (·.left = name) := by
  rw [List.filter_append]
  by_cases hname : name = r.left
  · simp [hname]
  · simp [hname, Ne.symm hname]

theorem Recounts.begun (hr : Recounts g h) (hg : g.start? = none)
    (hp : g.alternatives p.left = []) : Recounts (g.begun p) (h ++ [⟨p, startId⟩]) where
  stored := by
    rw [Grammar.rules_begun hg]
    exact (hr.stored.cons _).trans (List.perm_append_singleton _ _).symm
  order := by
    intro name
    rw [filter_append_singleton, Grammar.alternatives_begun hg, hr.order]
    by_cases hname : name = p.left
    · rw [if_pos hname, if_pos hname, hname, hp]
      rfl
    · rw [if_neg hname, if_neg hname]

theorem Recounts.extended (hr : Recounts g h) (p : Production) :
    Recounts (g.extended p) (h ++ [⟨p, g.nextId⟩]) where
  stored := by
    rw [Grammar.rules_extended]
    exact hr.stored.append_right _
  order := by
    intro name
    rw [filter_append_singleton, Grammar.alternatives_extended, hr.order]

theorem Recounts.store (hr : Recounts g h)
    (hbegins : g.start? = none → g.alternatives startName = []) (p : Production) :
    Recounts (g.store p).1 (h ++ ((g.store p).2.toOption.map (Rule.mk p)).toList) := by
  rcases g.store_cases p with ⟨hp, hstore⟩ | ⟨-, -, hstore⟩ | ⟨-, -, hstore⟩
  · rw [hstore]
    exact hr.begun hp.2 (hp.1.symm ▸ hbegins hp.2)
  · rw [hstore]
    exact hr.extended p
  · rw [hstore]
    show Recounts g (h ++ [])
    rwa [List.append_nil]

/-- What an edit stores comes behind what has been stored. -/
theorem Recounts.apply (hr : Recounts g h) (hl : l.Agrees g) (e : Edit) :
    Recounts (e.apply g) (h ++ (l.stored? e).toList) := by
  have hother : Recounts g (h ++ []) := (List.append_nil h).symm ▸ hr
  cases e with
  | addTerminal name => exact ⟨hother.stored, hother.order⟩
  | addIntermediate name => exact ⟨hother.stored, hother.order⟩
  | setType name type => exact ⟨hother.stored, hother.order⟩
  | addRule p =>
    have hreg : Recounts (g.register p) h := ⟨hr.stored, hr.order⟩
    have hstored : l.stored? (.addRule p) = (g.addRule p).2.toOption.map (Rule.mk p) := by
      simp only [stored?]
      rw [(hl.addRule p).2]
      cases (g.addRule p).2 <;> rfl
    rw [hstored]
    exact hreg.store (hl.register p).begins p

theorem Recounts.foldl (hr : Recounts g h) (hl : l.Agrees g) (edits : List Edit) :
    Recounts (edits.foldl Edit.apply g) (h ++ l.history edits) := by
  induction edits generalizing l g h with
  | nil => exact (List.append_nil h).symm ▸ hr
  | cons e edits ih =>
    rw [Ledger.history, ← List.append_assoc]
    exact ih (hr.apply hl e) (hl.apply e)

theorem recounts_ofEdits (edits : List Edit) :
    Recounts (.ofEdits edits) (empty.history edits) :=
  Recounts.foldl (h := []) ⟨.refl _, fun _ => rfl⟩ agrees_empty edits

theorem mem_of_mem_history {edits : List Edit} {r : Rule} (h : r ∈ l.history edits) :
    .addRule r.toProduction ∈ edits := by
  induction edits generalizing l with
  | nil => cases h
  | cons e edits ih =>
    rcases List.mem_append.mp h with h | h
    · cases e with
      | addRule p =>
        unfold stored? at h
        simp only [Option.mem_toList] at h
        split at h
        · cases h
          exact List.mem_cons_self
        · cases h
      | addTerminal name => cases h
      | addIntermediate name => cases h
      | setType name type => cases h
    · exact List.mem_cons_of_mem e (ih h)

/-! ## Registered names -/

theorem names_addRule (l : Ledger) (p : Production) :
    (l.addRule p).1.terminals = l.terminals.insertAll p.terminals ∧
      (l.addRule p).1.intermediates = l.intermediates.insertAll p.intermediates := by
  have hnames : (l.addRule p).1.toNames = l.toNames.register p := by
    by_cases hp : l.Begins p
    · rw [addRule_of_begins hp]
      rfl
    · rw [addRule_of_not_begins hp]
      split <;> rfl
  rw [hnames, Names.register_eq]
  exact ⟨rfl, rfl⟩

/-- Every edit registers its names behind the ones that are there, whether it fails or not. -/
theorem names_apply (l : Ledger) (e : Edit) :
    (l.apply e).terminals = l.terminals.insertAll e.terminals ∧
      (l.apply e).intermediates = l.intermediates.insertAll e.intermediates := by
  cases e with
  | addTerminal name => exact ⟨rfl, rfl⟩
  | addIntermediate name => exact ⟨rfl, rfl⟩
  | setType name type => exact ⟨rfl, rfl⟩
  | addRule p => exact l.names_addRule p

theorem names_foldl (l : Ledger) (edits : List Edit) :
    (edits.foldl apply l).terminals = l.terminals.insertAll (edits.flatMap Edit.terminals) ∧
      (edits.foldl apply l).intermediates =
        l.intermediates.insertAll (edits.flatMap Edit.intermediates) := by
  induction edits generalizing l with
  | nil => exact ⟨rfl, rfl⟩
  | cons e edits ih =>
    obtain ⟨hterminals, hintermediates⟩ := ih (l.apply e)
    rw [(l.names_apply e).1, ← OrderedSet.insertAll_append] at hterminals
    rw [(l.names_apply e).2, ← OrderedSet.insertAll_append] at hintermediates
    exact ⟨hterminals, hintermediates⟩

theorem terminals_ofEdits (edits : List Edit) :
    (ofEdits edits).terminals = .ofList (edits.flatMap Edit.terminals) :=
  (names_foldl empty edits).1

theorem intermediates_ofEdits (edits : List Edit) :
    (ofEdits edits).intermediates = .ofList (edits.flatMap Edit.intermediates) :=
  (names_foldl empty edits).2

/-! ## The balance -/

/-- How the tables of a ledger fit together. `edits` have led to it and stored the rules `h`, one
after the other. -/
structure Balanced (edits : List Edit) (l : Ledger) (h : List Rule) : Prop where
  ascending : l.rules.Pairwise (·.id < ·.id)
  /-- Every number from the first one up to the next one is taken, and rule 1 is there with a rule
  of the start symbol. -/
  numbers : ∀ id, id ∈ l.rules.map Rule.id ↔
    id = startId ∧ (∃ r ∈ h, r.left = startName) ∨ firstId ≤ id ∧ id < l.nextId
  stored : l.rules.Perm h
  /-- Rule 1 is the first rule of the start symbol. -/
  first : l.rules.find? (·.id = startId) = h.find? (·.left = startName)
  /-- No rule is changed, removed or renumbered later. -/
  kept : ∀ more, l.rules.Sublist (ofEdits (edits ++ more)).rules
  once : ∀ r ∈ l.rules, (l.alternatives.flatMap Prod.snd).count r.id = 1
  /-- A number that is listed leads to a rule, and to one of the left side that lists it. -/
  own : ∀ e ∈ l.alternatives, ∀ id ∈ e.2, ∃ r ∈ l.rules, r.id = id ∧ r.left = e.1
  /-- The alternatives stand in the order in which they were stored. -/
  alternatives : ∀ name, l.alternativesOf name = (h.filter (·.left = name)).map Rule.id
  /-- The names stand in the order in which they were first registered. -/
  terminals : l.terminals.toList = (edits.flatMap Edit.terminals).eraseDups
  intermediates : l.intermediates.toList = (edits.flatMap Edit.intermediates).eraseDups
  registered : ∀ r ∈ l.rules, (∀ name ∈ r.terminals, name ∈ l.terminals) ∧
    ∀ name ∈ r.intermediates, name ∈ l.intermediates
  /-- Adding a rule fails only if every number is taken, and registers its names nevertheless. -/
  fails : ∀ p f, (l.addRule p).2 = .error f →
    f = .ruleNumbersExhausted ∧ l.nextId = highestCount ∧ (l.addRule p).1 = l.register p
  agrees : l.Agrees (.ofEdits edits)
  answers : ∀ p, (l.addRule p).2 = ((Grammar.ofEdits edits).addRule p).2

theorem Agrees.fails (h : l.Agrees g) {f : Fault} (hf : (l.addRule p).2 = .error f) :
    f = .ruleNumbersExhausted ∧ l.nextId = highestCount ∧ (l.addRule p).1 = l.register p := by
  by_cases hp : l.Begins p
  · rw [addRule_of_begins hp] at hf
    cases hf
  · rw [addRule_of_not_begins hp] at hf ⊢
    by_cases hid : l.nextId < highestCount
    · rw [if_pos hid] at hf
      cases hf
    · rw [if_neg hid] at hf ⊢
      cases hf
      exact ⟨rfl, Nat.le_antisymm h.counted (Nat.le_of_not_lt hid), rfl⟩

theorem Recounts.isSome_start?_iff (hr : Recounts g h) (hl : l.Agrees g) (hg : g.StartsRight) :
    g.start?.isSome ↔ ∃ r ∈ h, r.left = startName := by
  constructor
  · intro hstart
    obtain ⟨p, hp⟩ := Option.isSome_iff_exists.mp hstart
    have hmem : ⟨p, startId⟩ ∈ g.rules := by simp [Grammar.rules, hp]
    exact ⟨⟨p, startId⟩, hr.stored.mem_iff.mp hmem, hg p hp⟩
  · rintro ⟨r, hmem, hleft⟩
    rw [Option.isSome_iff_ne_none]
    intro hnone
    have hr' : r ∈ g.alternatives startName :=
      Grammar.mem_alternatives.mpr ⟨hr.stored.mem_iff.mpr hmem, hleft⟩
    rw [hl.begins hnone] at hr'
    cases hr'

/-- Rule 1 is the first alternative of the start symbol. -/
theorem Agrees.find?_startId (hl : l.Agrees g) (hg : g.StartsRight) :
    g.rules.find? (·.id = startId) = (g.alternatives startName).head? := by
  cases hstart : g.start? with
  | none =>
    rw [hl.begins hstart, List.head?_nil, List.find?_eq_none]
    intro r hr hid
    have hmem := List.mem_map_of_mem (f := Rule.id) hr
    rw [of_decide_eq_true hid, Grammar.startId_mem_ids, hstart] at hmem
    cases hmem
  | some p =>
    have hleft : p.left = startName := hg p hstart
    simp [Grammar.alternatives, Grammar.rules, hstart, hleft]

theorem balanced_ofEdits (edits : List Edit) :
    Balanced edits (ofEdits edits) (empty.history edits) := by
  -- the tables are read off the grammar, and its rules off what has been stored
  have hl := agrees_ofEdits edits
  have hr := recounts_ofEdits edits
  have hg := Grammar.startsRight_ofEdits edits
  have hstored : (ofEdits edits).rules.Perm (empty.history edits) := hl.rules ▸ hr.stored
  constructor
  case ascending =>
    rw [hl.rules]
    exact Grammar.pairwise_id_rules _
  case numbers =>
    intro id
    rw [hl.rules, hl.nextId, Grammar.mem_ids_rules, hr.isSome_start?_iff hl hg]
  case stored => exact hstored
  case first =>
    rw [hl.rules, hl.find?_startId hg, ← hr.order, List.head?_filter]
  case kept =>
    intro more
    rw [hl.rules, (agrees_ofEdits (edits ++ more)).rules, Grammar.ofEdits, Grammar.ofEdits,
      List.foldl_append]
    exact Edit.rules_sublist_foldl _ more
  case once =>
    intro r hmem
    rw [hl.rules] at hmem
    have hids : ((Grammar.ofEdits edits).rules.map Rule.id).Nodup :=
      List.pairwise_map.mpr ((Grammar.pairwise_id_rules _).imp Nat.ne_of_lt)
    rw [hl.listed.count_eq, hids.count, if_pos (List.mem_map_of_mem hmem)]
  case own =>
    intro e he id hid
    have hlist : (ofEdits edits).alternativesOf e.1 = e.2 := by
      rw [alternativesOf, Entries.lookup_of_mem hl.keys he, Option.getD_some]
    rw [← hlist, hl.alternatives] at hid
    obtain ⟨r, hmem, rfl⟩ := List.mem_map.mp hid
    obtain ⟨hmem, hleft⟩ := Grammar.mem_alternatives.mp hmem
    exact ⟨r, hl.rules ▸ hmem, rfl, hleft⟩
  case alternatives =>
    intro name
    rw [hl.alternatives, hr.order]
  case terminals => rw [terminals_ofEdits, OrderedSet.toList_ofList]
  case intermediates => rw [intermediates_ofEdits, OrderedSet.toList_ofList]
  case registered =>
    intro r hmem
    have hedit : .addRule r.toProduction ∈ edits :=
      mem_of_mem_history (hstored.mem_iff.mp hmem)
    rw [terminals_ofEdits, intermediates_ofEdits]
    exact ⟨fun name hname => OrderedSet.mem_ofList.mpr (List.mem_flatMap.mpr ⟨_, hedit, hname⟩),
      fun name hname => OrderedSet.mem_ofList.mpr (List.mem_flatMap.mpr ⟨_, hedit, hname⟩)⟩
  case fails => exact fun p f hf => hl.fails hf
  case agrees => exact hl
  case answers => exact fun p => (hl.addRule p).2

-- the start symbol comes late, and with two rules
example :
    let l := ofEdits [.addRule ⟨"E", [], ""⟩, .addRule ⟨startName, [.intermediate "E"], ""⟩,
      .addRule ⟨startName, [], ""⟩]
    l.rules.map (fun r => (r.id, r.left)) = [(1, startName), (2, "E"), (3, startName)] ∧
      l.alternatives = [("E", [2]), (startName, [1, 3])] := by
  cbv

end Ledger

end ShiftReduce
