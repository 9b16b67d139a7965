import ShiftReduce.Grammar.Basic

/-!
# Derivations

`g.Derives s t` says that rewriting intermediates by rules turns `s` into `t`. A rightmost
derivation always rewrites the last intermediate, and is determined by the rules that it uses.

A chain of rules begins with rule 1; the next rule rewrites an intermediate on the right side of
the one before. The symbols to the left of the rewritten ones spell a path from the start of a
parse to the place where the last rule is being read.
-/

namespace ShiftReduce

namespace Grammar

variable (g : Grammar)

inductive Derives (s : List Symbol) : List Symbol → Prop where
  | refl : Derives s s
  | step {r : Rule} {u v : List Symbol} (h : r ∈ g.rules)
      (hs : Derives s (u ++ .intermediate r.left :: v)) : Derives s (u ++ r.right ++ v)

/-- Rewriting the last intermediate by the given rules, one after the other. -/
inductive RightmostBy : List RuleId → List Symbol → List Symbol → Prop where
  | refl (s : List Symbol) : RightmostBy [] s s
  | step {r : Rule} {ids : List RuleId} {u t : List Symbol} {w : List String} (h : r ∈ g.rules)
      (ht : RightmostBy ids (u ++ r.right ++ w.map .terminal) t) :
      RightmostBy (r.id :: ids) (u ++ .intermediate r.left :: w.map .terminal) t

/-- A symbol string derives one that begins with the terminal `x`. -/
def Begins (s : List Symbol) (x : String) : Prop :=
  ∃ t, g.Derives s (.terminal x :: t)

/-- `g.Chain path r done after`: `path` leads to the rule `r` of which `done` has been read, and
`after` is what the other rules of the chain still expect behind it. -/
inductive Chain : List Symbol → Rule → List Symbol → List Symbol → Prop where
  | start {r : Rule} {done rest : List Symbol} (h : g.startRule = .ok r)
      (hr : r.right = done ++ rest) : Chain done r done []
  | next {r q : Rule} {path done rest done' rest' after : List Symbol}
      (h : Chain path r done after) (hr : r.right = done ++ .intermediate q.left :: rest)
      (hq : q ∈ g.rules) (hq' : q.right = done' ++ rest') :
      Chain (path ++ done') q done' (rest ++ after)

variable {g}

theorem Derives.trans {s t u : List Symbol} (h1 : g.Derives s t) (h2 : g.Derives t u) :
    g.Derives s u := by
  induction h2 with
  | refl => exact h1
  | step h _ ih => exact .step h ih

theorem Derives.context {s t : List Symbol} (h : g.Derives s t) (a b : List Symbol) :
    g.Derives (a ++ s ++ b) (a ++ t ++ b) := by
  induction h with
  | refl => exact .refl
  | @step r u v h _ ih =>
    have h' := Derives.step (u := a ++ u) (v := v ++ b) h (by simpa using ih)
    simpa using h'

theorem RightmostBy.derives {ids : List RuleId} {s t : List Symbol}
    (h : g.RightmostBy ids s t) : g.Derives s t := by
  induction h with
  | refl => exact .refl
  | step h _ ih => exact (Derives.step h .refl).trans ih

end Grammar

end ShiftReduce
