import ShiftReduce.Grammar.First
import ShiftReduce.Proofs.Derivation
import ShiftReduce.Proofs.Growth
import ShiftReduce.Proofs.Rules

/-!
# FIRST sets and derivations

What the passes over the rules compute is what derivations say: a string is nullable iff it derives
the empty one, and its FIRST set holds the terminals that can begin what it derives. Each pass is
sound; and because the passes have come to rest, the sets satisfy every rule.
-/

namespace ShiftReduce.FirstSets

open Grammar

variable {g : Grammar} {r : Rule} {s t : List Symbol} {nulls : OrderedSet String}

/-! ## Nullable intermediates -/

theorem all_nullableSymbol_derives (h : ∀ n ∈ nulls, g.Derives [.intermediate n] [])
    (hs : s.all (nullableSymbol nulls) = true) : g.Derives s [] := by
  induction s with
  | nil => exact .refl
  | cons x s ih =>
    simp only [List.all_cons, Bool.and_eq_true] at hs
    refine derives_append_nil (s := [x]).mpr ⟨?_, ih hs.2⟩
    cases x with
    | terminal n => exact absurd hs.1 (by simp [nullableSymbol])
    | intermediate n => exact h n (by simpa [nullableSymbol] using hs.1)

theorem nullablePass_sound {rules : List Rule} (hrules : ∀ r ∈ rules, r ∈ g.rules)
    (h : ∀ n ∈ nulls, g.Derives [.intermediate n] []) :
    ∀ n ∈ nullablePass rules nulls, g.Derives [.intermediate n] [] := by
  unfold nullablePass
  refine List.foldlRecOn (motive := fun nulls => ∀ n ∈ nulls, g.Derives [.intermediate n] [])
    rules addNullable h fun nulls ih r hr n hn => ?_
  unfold addNullable at hn
  split at hn
  · rename_i hs
    rcases OrderedSet.mem_insert.mp hn with hn | rfl
    · exact ih n hn
    · exact (Derives.rule (hrules r hr)).trans (all_nullableSymbol_derives ih hs)
  · exact ih n hn

theorem mem_nullablePass_of_mem (rules : List Rule) {n : String} (h : n ∈ nulls) :
    n ∈ nullablePass rules nulls := by
  unfold nullablePass
  refine List.foldlRecOn (motive := fun nulls => n ∈ nulls) rules addNullable h
    fun nulls ih r _ => ?_
  unfold addNullable
  split
  · exact OrderedSet.mem_insert.mpr (.inl ih)
  · exact ih

theorem nullableSymbol_mono {nulls' : OrderedSet String} (h : ∀ n ∈ nulls, n ∈ nulls')
    (hs : s.all (nullableSymbol nulls) = true) : s.all (nullableSymbol nulls') = true := by
  rw [List.all_eq_true] at hs ⊢
  intro x hx
  cases x with
  | terminal n => exact hs _ hx
  | intermediate n => simpa [nullableSymbol] using h n (by simpa [nullableSymbol] using hs _ hx)

/-- A pass adds the left side of every rule whose right side is nullable before the pass. -/
theorem left_mem_nullablePass {rules : List Rule} (hr : r ∈ rules)
    (hs : r.right.all (nullableSymbol nulls) = true) : r.left ∈ nullablePass rules nulls := by
  obtain ⟨before, after, rfl⟩ := List.append_of_mem hr
  have hmem : ∀ n ∈ nulls, n ∈ nullablePass before nulls := fun n => mem_nullablePass_of_mem before
  have hs := nullableSymbol_mono hmem hs
  unfold nullablePass at hs ⊢
  rw [List.foldl_append, List.foldl_cons]
  refine mem_nullablePass_of_mem after ?_
  simp [addNullable, hs]

theorem nullablePass_left {rules : List Rule} (h : ∀ n ∈ nulls, n ∈ rules.map (·.left)) :
    ∀ n ∈ nullablePass rules nulls, n ∈ rules.map (·.left) := by
  unfold nullablePass
  refine List.foldlRecOn (motive := fun nulls => ∀ n ∈ nulls, n ∈ rules.map (·.left))
    rules addNullable h fun nulls ih r hr n hn => ?_
  unfold addNullable at hn
  split at hn
  · rcases OrderedSet.mem_insert.mp hn with hn | rfl
    · exact ih n hn
    · exact List.mem_map_of_mem hr
  · exact ih n hn

theorem grows_addNullable (nulls : OrderedSet String) (r : Rule) :
    Grows OrderedSet.size nulls (addNullable nulls r) := by
  unfold addNullable
  split
  · exact OrderedSet.grows_insert nulls r.left
  · exact .refl nulls

theorem nullablePass_nullableOf (rules : List Rule) :
    nullablePass rules (nullableOf rules) = nullableOf rules := by
  refine Grows.step_settle OrderedSet.size (rules.map (·.left)).length
    (p := fun nulls => ∀ n ∈ nulls, n ∈ rules.map (·.left)) ?_ (fun _ => nullablePass_left) ?_ ?_ ?_
  · exact Grows.foldl grows_addNullable rules
  · exact fun nulls h => OrderedSet.size_le_length h
  · exact fun n hn => absurd hn (OrderedSet.not_mem_empty n)
  · rw [List.length_map]
    exact Nat.le_add_left _ _

theorem derives_of_mem_nullableOf : ∀ n ∈ nullableOf g.rules, g.Derives [.intermediate n] [] :=
  settle_induction (p := fun nulls => ∀ n ∈ nulls, g.Derives [.intermediate n] [])
    (fun _ => nullablePass_sound fun _ hr => hr) _
    fun n hn => absurd hn (OrderedSet.not_mem_empty n)

/-- Undoing a rewriting keeps a string nullable. -/
theorem all_nullableOf_of_derives (h : g.Derives s t)
    (ht : t.all (nullableSymbol (nullableOf g.rules)) = true) :
    s.all (nullableSymbol (nullableOf g.rules)) = true := by
  induction h with
  | refl => exact ht
  | @step r u v hr _ ih =>
    rw [List.all_append, List.all_append, Bool.and_eq_true, Bool.and_eq_true] at ht
    have hleft : r.left ∈ nullableOf g.rules :=
      nullablePass_nullableOf g.rules ▸ left_mem_nullablePass hr ht.1.2
    exact ih (by simp [ht, nullableSymbol, hleft])

theorem isNullable_iff_derives : (ofGrammar g).isNullable s = true ↔ g.Derives s [] :=
  ⟨all_nullableSymbol_derives derives_of_mem_nullableOf, fun h => all_nullableOf_of_derives h rfl⟩

/-! ## Leading symbols -/

/-- `y` is in the FIRST set of a leading symbol of `s`. -/
def Leads (f : FirstSets) (s : List Symbol) (y : Symbol) : Prop :=
  ∃ x ∈ leading f.nullable s, y ∈ firstOfSymbol f.sets x

theorem mem_leading_append {x : Symbol} : x ∈ leading nulls (s ++ t) ↔
    x ∈ leading nulls s ∨ s.all (nullableSymbol nulls) = true ∧ x ∈ leading nulls t := by
  induction s with
  | nil => simp [leading]
  | cons y s ih =>
    simp only [List.cons_append, leading, List.all_cons]
    split
    · rename_i h
      simp [ih, h, or_assoc]
    · rename_i h
      simp [h]

theorem leads_append {f : FirstSets} {y : Symbol} :
    f.Leads (s ++ t) y ↔ f.Leads s y ∨ f.isNullable s = true ∧ f.Leads t y := by
  simp only [Leads, mem_leading_append, isNullable]
  constructor
  · rintro ⟨x, hx | ⟨hs, hx⟩, hy⟩
    · exact .inl ⟨x, hx, hy⟩
    · exact .inr ⟨hs, x, hx, hy⟩
  · rintro (⟨x, hx, hy⟩ | ⟨hs, x, hx, hy⟩)
    · exact ⟨x, .inl hx, hy⟩
    · exact ⟨x, .inr ⟨hs, hx⟩, hy⟩

theorem leads_singleton {f : FirstSets} {x y : Symbol} :
    f.Leads [x] y ↔ y ∈ firstOfSymbol f.sets x := by
  simp [Leads, leading]

theorem mem_collect {f : FirstSets} {found lookaheads : OrderedSet Symbol} {y : Symbol} :
    y ∈ f.collect found lookaheads s ↔
      y ∈ found ∨ f.Leads s y ∨ f.isNullable s = true ∧ y ∈ lookaheads := by
  induction s generalizing found with
  | nil => simp [collect, Leads, leading, isNullable]
  | cons x s ih =>
    rw [← List.singleton_append, leads_append, leads_singleton]
    cases x with
    | terminal n => simp [collect, firstOfSymbol, isNullable, nullableSymbol]
    | intermediate n =>
      simp only [List.singleton_append, collect, firstOfSymbol]
      split
      · rename_i h
        simp [ih, isNullable, nullableSymbol, h, or_assoc]
      · rename_i h
        simp [isNullable, nullableSymbol, h]

theorem mem_firstWith_iff_leads {f : FirstSets} {lookaheads : OrderedSet Symbol} {y : Symbol} :
    y ∈ f.firstWith s lookaheads ↔ f.Leads s y ∨ f.isNullable s = true ∧ y ∈ lookaheads := by
  simp [firstWith, mem_collect]

/-! ## FIRST sets of the intermediates -/

theorem exists_of_mem_leading {x : Symbol} (h : x ∈ leading nulls s) :
    ∃ pre post, s = pre ++ x :: post ∧ pre.all (nullableSymbol nulls) = true := by
  induction s with
  | nil => cases h
  | cons y s ih =>
    simp only [leading] at h
    split at h
    · rename_i hy
      rcases List.mem_cons.mp h with rfl | h
      · exact ⟨[], s, rfl, rfl⟩
      · obtain ⟨pre, post, rfl, hpre⟩ := ih h
        exact ⟨y :: pre, post, rfl, by simp [hy, hpre]⟩
    · obtain rfl := List.mem_singleton.mp h
      exact ⟨[], s, rfl, rfl⟩

/-- Every set holds terminals that its intermediate can begin with. -/
def Sound (g : Grammar) (sets : Family String Symbol) : Prop :=
  ∀ n, ∀ y ∈ sets.get n, ∃ x, y = .terminal x ∧ g.Begins [.intermediate n] x

theorem Sound.symbol {sets : Family String Symbol} (h : Sound g sets) {x y : Symbol}
    (hy : y ∈ firstOfSymbol sets x) : ∃ a, y = .terminal a ∧ g.Begins [x] a := by
  cases x with
  | terminal n =>
    obtain rfl : y = .terminal n := by simpa [firstOfSymbol] using hy
    exact ⟨n, rfl, begins_terminal.mpr rfl⟩
  | intermediate n => exact h n y hy

theorem mem_inclusions {rules : List Rule} {i : Inclusion} :
    i ∈ rules.flatMap (inclusionsOf nulls) ↔ ∃ r ∈ rules, i.superset = r.left ∧
      i.subset ∈ leading nulls r.right ∧ i.subset ≠ .intermediate r.left := by
  simp only [inclusionsOf, List.mem_flatMap, List.mem_map, List.mem_filter, ne_eq,
    decide_not, Bool.not_eq_true', decide_eq_false_iff_not]
  constructor
  · rintro ⟨r, hr, x, ⟨hx, hne⟩, rfl⟩
    exact ⟨r, hr, rfl, hx, hne⟩
  · rintro ⟨r, hr, hs, hx, hne⟩
    exact ⟨r, hr, i.subset, ⟨hx, hne⟩, by rw [← hs]⟩

/-- The inclusions that the rules of a grammar ask for. -/
def inclusions (g : Grammar) : List Inclusion :=
  g.rules.flatMap (inclusionsOf (nullableOf g.rules))

theorem Sound.inclusionPass {sets : Family String Symbol} (h : Sound g sets) :
    Sound g (inclusionPass (inclusions g) sets) := by
  unfold FirstSets.inclusionPass
  refine List.foldlRecOn (motive := Sound g) _ impose h fun sets ih i hi => ?_
  obtain ⟨r, hr, hsup, hsub, -⟩ := mem_inclusions.mp hi
  intro n y hy
  rcases Family.mem_get_extend_iff.mp hy with hold | ⟨rfl, hnew⟩
  · exact ih n y hold
  · obtain ⟨a, rfl, ha⟩ := ih.symbol hnew
    obtain ⟨pre, post, hright, hpre⟩ := exists_of_mem_leading hsub
    have hpre := all_nullableSymbol_derives derives_of_mem_nullableOf hpre
    refine ⟨a, rfl, (hsup ▸ Derives.rule hr).begins ?_⟩
    rw [hright]
    exact begins_append.mpr (.inr ⟨hpre, begins_append (s := [_]).mpr (.inl ha)⟩)

theorem mem_get_inclusionPass_of_mem (l : List Inclusion) {sets : Family String Symbol} {n : String}
    {y : Symbol} (h : y ∈ sets.get n) : y ∈ (inclusionPass l sets).get n := by
  unfold inclusionPass
  exact List.foldlRecOn (motive := fun sets => y ∈ sets.get n) l impose h
    fun sets ih i _ => Family.mem_get_extend ih

/-- A pass satisfies every inclusion as far as it was known before the pass. -/
theorem mem_get_inclusionPass {l : List Inclusion} {sets : Family String Symbol} {i : Inclusion}
    (hi : i ∈ l) {y : Symbol} (hy : y ∈ firstOfSymbol sets i.subset) :
    y ∈ (inclusionPass l sets).get i.superset := by
  obtain ⟨before, after, rfl⟩ := List.append_of_mem hi
  have hy : y ∈ firstOfSymbol (inclusionPass before sets) i.subset := by
    cases hs : i.subset with
    | terminal n => simpa [hs, firstOfSymbol] using hy
    | intermediate n =>
      rw [hs] at hy
      exact mem_get_inclusionPass_of_mem before hy
  have hstep : y ∈ (impose (inclusionPass before sets) i).get i.superset :=
    Family.mem_get_extend_iff.mpr (.inr ⟨rfl, hy⟩)
  unfold inclusionPass at hstep ⊢
  rw [List.foldl_append, List.foldl_cons]
  exact mem_get_inclusionPass_of_mem after hstep

theorem keys_inclusionPass {sets : Family String Symbol} {names : List String}
    (hleft : ∀ r ∈ g.rules, r.left ∈ names) (h : ∀ n ∈ sets.keys, n ∈ names) :
    ∀ n ∈ (inclusionPass (inclusions g) sets).keys, n ∈ names := by
  unfold inclusionPass
  refine List.foldlRecOn (motive := fun sets : Family String Symbol =>
    ∀ n ∈ sets.keys, n ∈ names) _ impose h fun sets ih i hi n hn => ?_
  rcases Family.mem_keys_extend.mp hn with hn | rfl
  · exact ih n hn
  · obtain ⟨r, hr, hsup, -⟩ := mem_inclusions.mp hi
    exact hsup ▸ hleft r hr

theorem Sound.mem_rightSymbols {sets : Family String Symbol} (h : Sound g sets) (n : String) :
    ∀ y ∈ sets.get n, y ∈ rightSymbols g.rules := by
  intro y hy
  obtain ⟨x, rfl, hx⟩ := h n y hy
  rcases hx.mem with hx | ⟨r, hr, hx⟩
  · cases List.mem_singleton.mp hx
  · exact List.mem_flatMap.mpr ⟨r, hr, hx⟩

theorem sound_empty : Sound g ∅ := by
  intro n y hy
  rw [Family.get_empty] at hy
  exact absurd hy (OrderedSet.not_mem_empty y)

theorem sets_ofGrammar (g : Grammar) : (ofGrammar g).sets =
    settle (inclusionPass (inclusions g)) (passBound g.rules + 1) ∅ := rfl

theorem grows_inclusionPass (l : List Inclusion) (sets : Family String Symbol) :
    Grows Family.weight sets (inclusionPass l sets) :=
  Grows.foldl (f := impose) (fun sets i => Family.grows_extend sets i.superset _) l sets

theorem inclusionPass_sets (g : Grammar) :
    inclusionPass (inclusions g) (ofGrammar g).sets = (ofGrammar g).sets := by
  rw [sets_ofGrammar]
  refine Grows.step_settle Family.weight
    ((g.rules.map (·.left)).length * ((rightSymbols g.rules).length + 1))
    (p := fun sets => (∀ n ∈ sets.keys, n ∈ g.rules.map (·.left)) ∧ Sound g sets) ?_ ?_ ?_ ?_ ?_
  · exact grows_inclusionPass (inclusions g)
  · exact fun sets h =>
      ⟨keys_inclusionPass (fun _ => List.mem_map_of_mem) h.1, h.2.inclusionPass⟩
  · exact fun sets h => Family.weight_le h.1 h.2.mem_rightSymbols
  · exact ⟨fun n hn => absurd hn (OrderedSet.not_mem_empty n), sound_empty⟩
  · rw [List.length_map, passBound, ← length_rightSymbols]
    cases hn : g.rules.length with
    | zero => omega
    | succ n =>
      have := Nat.mul_le_mul_left (n + 1) (show (rightSymbols g.rules).length + 1 ≤
        (rightSymbols g.rules).length + (n + 1) by omega)
      omega

theorem sound_ofGrammar (g : Grammar) : Sound g (ofGrammar g).sets := by
  rw [sets_ofGrammar]
  exact settle_induction (p := Sound g) (fun _ => Sound.inclusionPass) _ sound_empty

/-- The sets have come to rest, so they satisfy every rule. -/
theorem mem_get_left {y : Symbol} (hr : r ∈ g.rules) (hy : (ofGrammar g).Leads r.right y) :
    y ∈ (ofGrammar g).sets.get r.left := by
  obtain ⟨x, hx, hy⟩ := hy
  by_cases hself : x = .intermediate r.left
  · subst hself
    exact hy
  · have hi : Inclusion.mk r.left x ∈ inclusions g := mem_inclusions.mpr ⟨r, hr, rfl, hx, hself⟩
    rw [← inclusionPass_sets g]
    exact mem_get_inclusionPass hi hy

/-! ## FIRST sets of strings -/

/-- Undoing a rewriting loses no leading terminal. -/
theorem leads_of_derives {y : Symbol} (h : g.Derives s t) (ht : (ofGrammar g).Leads t y) :
    (ofGrammar g).Leads s y := by
  induction h with
  | refl => exact ht
  | @step r u v hr _ ih =>
    refine ih ?_
    rw [← List.singleton_append, leads_append, leads_append, leads_singleton]
    rw [List.append_assoc, leads_append, leads_append] at ht
    rcases ht with ht | ⟨hu, ht | ⟨hright, ht⟩⟩
    · exact .inl ht
    · exact .inr ⟨hu, .inl (mem_get_left hr ht)⟩
    · refine .inr ⟨hu, .inr ⟨?_, ht⟩⟩
      exact isNullable_iff_derives.mpr ((Derives.rule hr).trans (isNullable_iff_derives.mp hright))

theorem leads_iff_begins {y : Symbol} :
    (ofGrammar g).Leads s y ↔ ∃ x, y = .terminal x ∧ g.Begins s x := by
  constructor
  · rintro ⟨z, hz, hy⟩
    obtain ⟨x, rfl, hx⟩ := (sound_ofGrammar g).symbol hy
    obtain ⟨pre, post, rfl, hpre⟩ := exists_of_mem_leading hz
    refine ⟨x, rfl, begins_append.mpr (.inr ⟨isNullable_iff_derives.mp hpre, ?_⟩)⟩
    exact begins_append (s := [z]).mpr (.inl hx)
  · rintro ⟨x, rfl, t, ht⟩
    refine leads_of_derives ht ⟨.terminal x, ?_, by simp [firstOfSymbol]⟩
    simp [leading, nullableSymbol]

/-- The terminals that begin what `s` derives, and the lookaheads if `s` can vanish. -/
theorem mem_firstWith {lookaheads : OrderedSet Symbol} {y : Symbol} :
    y ∈ (ofGrammar g).firstWith s lookaheads ↔
      (∃ x, y = .terminal x ∧ g.Begins s x) ∨ g.Derives s [] ∧ y ∈ lookaheads := by
  rw [mem_firstWith_iff_leads, leads_iff_begins, isNullable_iff_derives]

end ShiftReduce.FirstSets
