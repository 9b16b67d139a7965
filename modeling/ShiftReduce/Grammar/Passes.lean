import ShiftReduce.Grammar.First
import ShiftReduce.Turns

/-!
# FIRST sets by loops without a bound

The nullable intermediates and the FIRST sets can also be found by loops that nothing cuts off. A
pass goes over the rules, or over what they ask for, and notes whether a step has added anything;
passes are repeated until one has not. Every registered intermediate has a set from the start.
-/

namespace ShiftReduce

universe u v

/-- The number of members of all sets. -/
def Family.memberCount {κ : Type u} {α : Type v} [Ord κ] [Ord α] (f : Family κ α) : Nat :=
  f.sets.toList.foldr (fun s n => s.size + n) 0

/-- What a pass has come to, and whether one of its steps has added anything. -/
structure Pass (α : Type u) where
  value : α
  changed : Bool

namespace Pass

variable {α : Type u} {β : Type v} (weight : α → Nat) (step : α → β → α)

/-- Makes a step, and notes whether the value weighs more than before. -/
def make (p : Pass α) (b : β) : Pass α :=
  ⟨step p.value b, p.changed || decide (weight p.value < weight (step p.value b))⟩

/-- A pass that has added something is followed by another one over the whole list. -/
def turn (l : List β) (p : Pass α) : Except Fault (Option (Pass α)) :=
  .ok (if p.changed then some (l.foldl (make weight step) ⟨p.value, false⟩) else none)

/-- Passes over the list, of which there is at least one, lead from `a` to `b`, and then the loop is
over. -/
def Leads (l : List β) (a b : α) : Prop :=
  ∃ n, Ends (turn weight step l) n ⟨a, true⟩ ⟨b, false⟩

end Pass

namespace FirstSets

/-- The loop over the rules finds these intermediates to be nullable. -/
def FindsNullable (g : Grammar) (nulls : OrderedSet String) : Prop :=
  Pass.Leads OrderedSet.size addNullable g.rules ∅ nulls

/-- An empty set for every registered intermediate. -/
def registered (g : Grammar) : Family String Symbol :=
  g.intermediates.toList.foldl (fun sets name => sets.extend name ∅) ∅

/-- The loop over what the rules ask for finds these sets. -/
def FindsSets (g : Grammar) (nulls : OrderedSet String) (sets : Family String Symbol) : Prop :=
  Pass.Leads Family.memberCount impose (g.rules.flatMap (inclusionsOf nulls)) (registered g) sets

end FirstSets

end ShiftReduce
