import Lockstep.Nfa.StartBytes

/-!
# Patterns

Expressions as trees. Their post-order sequences are well-formed: every operator has its operands
and one expression is left.
-/

namespace Lockstep

universe u

inductive Pattern (α : Type u) where
  | empty
  | atom (a : α)
  | assert (a : α)
  | concat (p q : Pattern α)
  /-- Either pattern, preferably the first. -/
  | alternate (p q : Pattern α)
  | zeroOrMore (greedy : Bool) (p : Pattern α)
  | oneOrMore (greedy : Bool) (p : Pattern α)
  | zeroOrOne (greedy : Bool) (p : Pattern α)
  /-- A group, which captures if it has a number. -/
  | group (number : Option Nat) (p : Pattern α)
deriving DecidableEq, Repr

namespace Pattern

variable {α : Type u}

/-- The nodes of a pattern in post-order. -/
def nodes : Pattern α → List (Node α)
  | .empty => [.empty]
  | .atom a => [.atom a]
  | .assert a => [.assert a]
  | .concat p q => p.nodes ++ q.nodes ++ [.concat]
  | .alternate p q => p.nodes ++ q.nodes ++ [.alternate]
  | .zeroOrMore greedy p => p.nodes ++ [.zeroOrMore greedy]
  | .oneOrMore greedy p => p.nodes ++ [.oneOrMore greedy]
  | .zeroOrOne greedy p => p.nodes ++ [.zeroOrOne greedy]
  | .group number p => p.nodes ++ [.groupStart number, .groupEnd number]

/-- The automaton of a pattern, of a graph with at most `limit` nodes. -/
def compile [Atom α] (limit : Nat) (p : Pattern α) : Except BuildError (Nfa α) :=
  Nfa.compile limit p.nodes

end Pattern

end Lockstep
