import Lockstep.Atom
import Lockstep.Closure
import Lockstep.Nfa.Table

/-!
# Consuming automata

An automaton of consuming states only. State 0 is the final one and state 1 the entry. A transition
leads to a state that consumes the next character, or to the final state, and does its zero-width
work on the way.
-/

namespace Lockstep

universe u

variable {α : Type u}

inductive State (α : Type u) where
  | final
  | entry
  | atom (a : α)
deriving DecidableEq, Repr

/-- The bytes a match may begin with. -/
structure StartBytes where
  bytes : List UInt8
deriving DecidableEq, Repr

structure Nfa (α : Type u) where
  states : Array (State α)
  table : Table
  /-- The work of the transitions that do any. -/
  closures : Array (List ZeroWidth)
  /-- The atoms that assertions test, by index. -/
  assertions : Array α
  /-- The highest number of a group. -/
  groups : Nat
  /-- The bytes that every match begins with one of, if the scan may rely on them. -/
  startBytes? : Option StartBytes
deriving Repr

namespace Nfa

abbrev final : Nat := 0

abbrev entry : Nat := 1

def size (nfa : Nfa α) : Nat := nfa.states.size

def isEmpty (nfa : Nfa α) : Bool := nfa.states.isEmpty

/-- The transitions of a state, the preferred one first. -/
def transitions (nfa : Nfa α) (state : Nat) : List Transition := nfa.table.row state

def transitionCount (nfa : Nfa α) : Nat := nfa.table.transitions.size

/-- What a transition does on the way, in order. -/
def work (nfa : Nfa α) (t : Transition) : List ZeroWidth :=
  match t.closure with
  | none => []
  | some id => nfa.closures.getD id []

variable [Atom α]

/-- Whether a transition to `target` may be taken before `next`: the final state needs no
character, and an atom has to accept the one there is. -/
def admits (nfa : Nfa α) (target : Nat) (next : Option Char) : Bool :=
  target == final ||
    match nfa.states[target]?, next with
    | some (.atom a), some c => Atom.accepts a c
    | _, _ => false

/-- Whether every assertion in `work` holds between two characters. -/
def holds (nfa : Nfa α) (work : List ZeroWidth) (prev next : Option Char) : Bool :=
  work.all fun
    | .assert index => nfa.assertions[index]?.all (Atom.check · prev next)
    | .mark _ _ => true

end Nfa

end Lockstep
