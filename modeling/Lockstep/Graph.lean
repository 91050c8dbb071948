import Lockstep.Node
import Lockstep.BuildError

/-!
# Graphs

A graph is an automaton that may hold nodes that consume nothing. `Graph.ofPostorder` wires one
from an expression in post-order: each operator joins the fragments built for its operands, and a
fragment knows the edges that still lead to the final node, so that joining two of them touches
those edges only.
-/

namespace Lockstep

universe u

variable {α : Type u}

/-- An automaton whose node 0 is the final one. -/
structure Graph (α : Type u) where
  nodes : Array (Node α)
  entry : Nat
  /-- The highest number of a capturing group. -/
  groups : Nat
deriving Repr

/-- The number of the final node. -/
abbrev Graph.final : Nat := 0

/-- No graph that is built holds more nodes. -/
abbrev Graph.maxNodes : Nat := 32767

/-- An edge: the node it leaves and its place among the node's edges. -/
structure Edge where
  source : Nat
  place : Nat
deriving DecidableEq, Repr

/-- A part of the graph that stands for one operand: where it begins, and its edges that lead to
the final node. -/
structure Fragment where
  head : Nat
  dangling : Array Edge
deriving DecidableEq, Repr

/-- A graph under construction. -/
structure Builder (α : Type u) where
  nodes : Array (Node α)
  /-- The operands not yet taken, the last one first. -/
  stack : List Fragment
  groups : Nat
deriving Repr

namespace Builder

def initial : Builder α := ⟨#[⟨.final, false, false, 0, []⟩], [], 0⟩

/-- Points `edges` at `target`. -/
def redirect (nodes : Array (Node α)) (edges : Array Edge) (target : Nat) : Array (Node α) :=
  edges.foldl (fun nodes e ↦ nodes.modify e.source fun n ↦ { n with out := n.out.set e.place target })
    nodes

/-- The edges of a quantifier over the operand at `head`, the preferred one first. -/
def choices (greedy : Bool) (head : Nat) : List Nat :=
  if greedy then [head, Graph.final] else [Graph.final, head]

/-- The edge by which the quantifier numbered `id` leaves its operand. -/
def exit (greedy : Bool) (id : Nat) : Edge := ⟨id, if greedy then 1 else 0⟩

/-- The group count after a group marker. -/
def noteGroup (groups : Nat) (node : Node α) : Nat :=
  if node.capturing then max groups node.group else groups

/-- Joins the operands on the stack as `node` says; `none` if it lacks operands or has no place in
an expression. -/
def place? (b : Builder α) (node : Node α) : Option (Builder α) :=
  match node.kind, b with
  | .atom _, ⟨nodes, stack, groups⟩ | .assert _, ⟨nodes, stack, groups⟩
  | .empty, ⟨nodes, stack, groups⟩ =>
    let id := nodes.size
    some ⟨nodes.push { node with out := [Graph.final] }, ⟨id, #[⟨id, 0⟩]⟩ :: stack, groups⟩
  | .concat, ⟨nodes, right :: left :: stack, groups⟩ =>
    some ⟨redirect nodes left.dangling right.head, ⟨left.head, right.dangling⟩ :: stack, groups⟩
  | .alternate, ⟨nodes, right :: left :: stack, groups⟩ =>
    let id := nodes.size
    some ⟨nodes.push { node with out := [left.head, right.head] },
      ⟨id, left.dangling ++ right.dangling⟩ :: stack, groups⟩
  | .zeroOrMore, ⟨nodes, operand :: stack, groups⟩ =>
    let id := nodes.size
    let nodes := nodes.push { node with out := choices node.greedy operand.head }
    some ⟨redirect nodes operand.dangling id, ⟨id, #[exit node.greedy id]⟩ :: stack, groups⟩
  | .oneOrMore, ⟨nodes, operand :: stack, groups⟩ =>
    let id := nodes.size
    let nodes := nodes.push { node with out := choices node.greedy operand.head }
    some ⟨redirect nodes operand.dangling id, ⟨operand.head, #[exit node.greedy id]⟩ :: stack,
      groups⟩
  | .zeroOrOne, ⟨nodes, operand :: stack, groups⟩ =>
    let id := nodes.size
    some ⟨nodes.push { node with out := choices node.greedy operand.head },
      ⟨id, operand.dangling.push (exit node.greedy id)⟩ :: stack, groups⟩
  | .groupStart, ⟨nodes, operand :: stack, groups⟩ =>
    let id := nodes.size
    some ⟨nodes.push { node with out := [operand.head] }, ⟨id, operand.dangling⟩ :: stack,
      noteGroup groups node⟩
  | .groupEnd, ⟨nodes, operand :: stack, groups⟩ =>
    let id := nodes.size
    let nodes := nodes.push { node with out := [Graph.final] }
    some ⟨redirect nodes operand.dangling id, ⟨operand.head, #[⟨id, 0⟩]⟩ :: stack,
      noteGroup groups node⟩
  | _, _ => none

/-- Adds the node at `index`, within the limit. -/
def push (limit : Nat) (b : Builder α) (index : Nat) (node : Node α) :
    Except BuildError (Builder α) :=
  match b.place? node with
  | none => .error (.malformed node.kind.name index)
  | some b => if limit < b.nodes.size then .error (.capacityExceeded limit) else .ok b

/-- Adds a sequence of nodes, the first of them at `index`, up to the first fault. -/
def pushAll (limit : Nat) (b : Builder α) (index : Nat) : List (Node α) →
    Except BuildError (Builder α)
  | [] => .ok b
  | node :: rest =>
    match b.push limit index node with
    | .error e => .error e
    | .ok b => b.pushAll limit (index + 1) rest

/-- Adds the entry before the one fragment left after `count` nodes. -/
def finish (limit : Nat) (b : Builder α) (count : Nat) : Except BuildError (Graph α) :=
  match b with
  | ⟨nodes, [root], groups⟩ =>
    if limit ≤ nodes.size then .error (.capacityExceeded limit)
    else .ok ⟨nodes.push ⟨.entry, false, false, 0, [root.head]⟩, nodes.size, groups⟩
  | _ => .error (.malformed (Kind.final : Kind α).name count)

end Builder

/-- The graph of an expression in post-order, with at most `limit` nodes. -/
def Graph.ofPostorder (limit : Nat) (nodes : List (Node α)) : Except BuildError (Graph α) :=
  let limit := min limit Graph.maxNodes
  match Builder.initial.pushAll limit 0 nodes with
  | .error e => .error e
  | .ok b => b.finish limit nodes.length

end Lockstep
