import Lockstep.SparseSet

/-!
# Generations

The attempts under way at one boundary of the text, in order of preference and at most one in each
state.
-/

namespace Lockstep

/-- An attempt at a match. -/
structure Thread where
  /-- The last state that consumed, or the entry. -/
  state : Nat
  /-- The last record of the attempt's history. -/
  captures : Option Nat
  /-- The offset at which the attempt began. -/
  start : Nat
deriving DecidableEq, Repr

structure Generation where
  threads : Array Thread
  /-- The states of the threads. -/
  states : SparseSet
deriving Repr

namespace Generation

def empty : Generation := ⟨#[], .ofCapacity 0⟩

def size (g : Generation) : Nat := g.threads.size

def isEmpty (g : Generation) : Bool := g.threads.isEmpty

def contains (g : Generation) (state : Nat) : Bool := g.states.contains state

/-- Adds a thread in a state that no other is in, after all others. -/
def add (g : Generation) (t : Thread) : Generation :=
  match g with
  | ⟨threads, states⟩ => ⟨threads.push t, (states.insert t.state).2⟩

def clear (g : Generation) : Generation :=
  match g with
  | ⟨_, states⟩ => ⟨#[], states.clear⟩

/-- Removes all threads and makes room for those of an automaton with `count` states. -/
def reset (g : Generation) (count : Nat) : Generation :=
  match g with
  | ⟨_, states⟩ => ⟨#[], states.reserve count⟩

end Generation

end Lockstep
