/-!
# Nodes

The elements of an expression in post-order, which are also the nodes of the automaton wired from
it. A node names its successors by number, so a loop is an edge back to an earlier number.
-/

namespace Lockstep

universe u

/-- What a node does, over atoms in `α`. -/
inductive Kind (α : Type u) where
  /-- Consumes one character that the atom accepts. -/
  | atom (a : α)
  /-- Passes a boundary at which the atom holds. -/
  | assert (a : α)
  | alternate
  | zeroOrMore
  | oneOrMore
  | zeroOrOne
  | groupStart
  | groupEnd
  /-- Ends the expression. -/
  | final
  | concat
  /-- Matches the empty text. -/
  | empty
  /-- Begins every attempt. -/
  | entry
deriving DecidableEq, Repr

structure Node (α : Type u) where
  kind : Kind α
  /-- A quantifier prefers another iteration to leaving. -/
  greedy : Bool := false
  /-- A group marker records its boundary. -/
  capturing : Bool := false
  /-- The group of a group marker. -/
  group : Nat := 0
  /-- Successors, the preferred one first. -/
  out : List Nat := []
deriving DecidableEq, Repr

variable {α : Type u}

namespace Kind

/-- The kind's name in messages. -/
def name : Kind α → String
  | .atom _ => "atom"
  | .assert _ => "assert"
  | .alternate => "alternate"
  | .zeroOrMore => "zero-or-more"
  | .oneOrMore => "one-or-more"
  | .zeroOrOne => "zero-or-one"
  | .groupStart => "group-start"
  | .groupEnd => "group-end"
  | .final => "end"
  | .concat => "concat"
  | .empty => "empty"
  | .entry => "entry"

/-- The number of operands a kind takes in post-order. The two kinds that no expression may hold
have none. -/
def arity? : Kind α → Option Nat
  | .atom _ | .assert _ | .empty => some 0
  | .zeroOrMore | .oneOrMore | .zeroOrOne | .groupStart | .groupEnd => some 1
  | .concat | .alternate => some 2
  | .final | .entry => none

/-- Atoms consume a character and the final node ends the match. All other kinds are passed
without consuming. -/
def isConsuming : Kind α → Bool
  | .atom _ | .final => true
  | _ => false

/-- The atom that an assertion tests. -/
def assertion? : Kind α → Option α
  | .assert a => some a
  | _ => none

end Kind

namespace Node

def atom (a : α) : Node α := ⟨.atom a, false, false, 0, []⟩

def assert (a : α) : Node α := ⟨.assert a, false, false, 0, []⟩

def alternate : Node α := ⟨.alternate, false, false, 0, []⟩

def concat : Node α := ⟨.concat, false, false, 0, []⟩

def empty : Node α := ⟨.empty, false, false, 0, []⟩

def zeroOrMore (greedy : Bool) : Node α := ⟨.zeroOrMore, greedy, false, 0, []⟩

def oneOrMore (greedy : Bool) : Node α := ⟨.oneOrMore, greedy, false, 0, []⟩

def zeroOrOne (greedy : Bool) : Node α := ⟨.zeroOrOne, greedy, false, 0, []⟩

/-- The opening marker of a group, which captures if the group has a number. -/
def groupStart (group : Option Nat) : Node α := ⟨.groupStart, false, group.isSome, group.getD 0, []⟩

/-- The closing marker of a group, which captures if the group has a number. -/
def groupEnd (group : Option Nat) : Node α := ⟨.groupEnd, false, group.isSome, group.getD 0, []⟩

def isConsuming (n : Node α) : Bool := n.kind.isConsuming

/-- The node's attributes as bits: 1 for greedy, 2 for capturing. -/
def flags (n : Node α) : Nat := n.greedy.toNat + 2 * n.capturing.toNat

end Node

end Lockstep
