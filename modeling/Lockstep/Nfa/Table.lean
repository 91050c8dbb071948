/-!
# Transition tables

The transitions of all states in one array, row after row, with the place where each row starts.
-/

namespace Lockstep

structure Transition where
  target : Nat
  /-- The index of the work done on the way, if there is any. -/
  closure : Option Nat
deriving DecidableEq, Repr

structure Table where
  transitions : Array Transition
  /-- Where each row starts; at the end, where the next row would start. -/
  starts : Array Nat
deriving DecidableEq, Repr

namespace Table

def empty : Table := ⟨#[], #[0]⟩

/-- Adds the transitions of the next state, the preferred one first. -/
def addRow (t : Table) (row : Array Transition) : Table :=
  match t with
  | ⟨transitions, starts⟩ =>
    let transitions := transitions ++ row
    ⟨transitions, starts.push transitions.size⟩

/-- The transitions of a state, the preferred one first. -/
def row (t : Table) (state : Nat) : List Transition :=
  (t.transitions.extract (t.starts.getD state 0) (t.starts.getD (state + 1) 0)).toList

end Table

end Lockstep
