import ShiftReduce.State.Roster

/-!
# Sessions

A session holds states that calls make, copy and change, in any order. A state is known by its
place, which it keeps. A call that is broken off is answered, and the session goes on with what the
call has left.
-/

namespace ShiftReduce

/-- A call, and the places of the states that it is made on. -/
inductive Call where
  | new (method : Method)
  | start (method : Method) (g : Grammar) (endOfInput : Symbol)
  | copy (n : Nat)
  | addItem (n : Nat) (q : Rule) (dot : Nat) (lookaheads : OrderedSet Symbol)
  | close (n : Nat) (g : Grammar) (f : FirstSets)
  /-- Merges the state at `k` into the one at `n`. -/
  | merge (n k : Nat)
  | successors (n : Nat)
  | assign (n : Nat) (x : Symbol) (target : StateId)

inductive Reply where
  | done
  /-- Whether the state has changed. -/
  | changed (grew : Bool)
  /-- There was nothing to start from. -/
  | refused (e : BuildError)
  | panicked (f : Fault)

namespace Call

/-- The places that a call names. -/
def places : Call → List Nat
  | new _ => []
  | start _ _ _ => []
  | copy n => [n]
  | addItem n _ _ _ => [n]
  | close n _ _ => [n]
  | merge n k => [n, k]
  | successors n => [n]
  | assign n _ _ => [n]

end Call

namespace Reply

def of : Except Fault Bool → Reply
  | .ok grew => changed grew
  | .error f => panicked f

end Reply

/-- The states of a session in the order in which they were made. -/
abbrev Session := List Roster

namespace Session

/-- A call is answered, and leads to another session. The drafts of successors become states of the
session. If closing is broken off, nothing is said of what it leaves. -/
inductive Step (σ : Session) : Call → Reply → Session → Prop where
  | new {m : Method} : Step σ (.new m) .done (σ ++ [.draft m])
  | start {m : Method} {g : Grammar} {x : Symbol} {r : Roster} (h : Roster.start m g x = .ok r) :
      Step σ (.start m g x) .done (σ ++ [r])
  | refuse {m : Method} {g : Grammar} {x : Symbol} {e : BuildError}
      (h : Roster.start m g x = .error e) : Step σ (.start m g x) (.refused e) σ
  | copy {n : Nat} {r : Roster} (hr : σ[n]? = some r) : Step σ (.copy n) .done (σ ++ [r])
  | addItem {n : Nat} {r : Roster} {q : Rule} {dot : Nat} {la : OrderedSet Symbol}
      (hr : σ[n]? = some r) :
      Step σ (.addItem n q dot la) (.of (r.run (Roster.addItem q dot la)).1)
        (σ.set n (r.run (Roster.addItem q dot la)).2)
  | close {n : Nat} {r t : Roster} {g : Grammar} {f : FirstSets} (hr : σ[n]? = some r)
      (h : r.Closes g f t) : Step σ (.close n g f) .done (σ.set n t)
  | closingFails {n : Nat} {r : Roster} {g : Grammar} {f : FirstSets} {e : Fault}
      (hr : σ[n]? = some r) (h : r.ClosingFails g f e) (t : Roster) :
      Step σ (.close n g f) (.panicked e) (σ.set n t)
  | merge {n k : Nat} {r t : Roster} (hr : σ[n]? = some r) (ht : σ[k]? = some t) :
      Step σ (.merge n k) (.of (r.run (Roster.merge t)).1) (σ.set n (r.run (Roster.merge t)).2)
  | successors {n : Nat} {r : Roster} {drafts : List (Symbol × Roster)} (hr : σ[n]? = some r)
      (h : r.successors = .ok drafts) :
      Step σ (.successors n) .done (σ ++ drafts.map Prod.snd)
  | successorsFail {n : Nat} {r : Roster} {e : Fault} (hr : σ[n]? = some r)
      (h : r.successors = .error e) : Step σ (.successors n) (.panicked e) σ
  | assign {n : Nat} {r : Roster} {x : Symbol} {target : StateId} (hr : σ[n]? = some r) :
      Step σ (.assign n x target) .done (σ.set n (r.assign x target))

/-- Some calls lead from one session to another. -/
inductive Leads : Session → Session → Prop where
  | refl (σ : Session) : Leads σ σ
  | step {σ τ ρ : Session} {c : Call} {a : Reply} (h : Leads σ τ) (hs : Step τ c a ρ) : Leads σ ρ

end Session

end ShiftReduce
