import Lockstep.Nfa.Basic

/-!
# Folding nodes into transitions

The automaton of a graph: the nodes that consume nothing become the work of transitions between
those that do. States are numbered in the order in which a breadth-first walk from the entry
discovers them, and the rows of the table follow that order.
-/

namespace Lockstep

universe u

variable {α : Type u}

/-- What a node is as a state. -/
def State.ofKind : Kind α → State α
  | .atom a => .atom a
  | .final => .final
  | _ => .entry

/-- A row under construction. -/
structure RowBuilder where
  /-- The nodes that are states, in the order of the states. -/
  order : SparseSet
  closures : Array (List ZeroWidth)
  transitions : Array Transition

/-- Adds the transition for an arrival. Its target becomes a state if it is none yet. -/
def RowBuilder.add (r : RowBuilder) (a : Arrival) : RowBuilder :=
  match r with
  | ⟨order, closures, transitions⟩ =>
    let order := (order.insert a.target).2
    let target := (order.position? a.target).getD 0
    match a.work with
    | [] => ⟨order, closures, transitions.push ⟨target, none⟩⟩
    | work =>
      let id := closures.size
      ⟨order, closures.push work, transitions.push ⟨target, some id⟩⟩

/-- An automaton under construction. -/
structure Folding where
  order : SparseSet
  closures : Array (List ZeroWidth)
  table : Table
  walker : Walker

namespace Folding

/-- The final node and the entry are the first two states, and the final one leads nowhere. -/
def initial (g : Graph α) : Folding :=
  ⟨(((SparseSet.ofCapacity g.nodes.size).insert Graph.final).2.insert g.entry).2, #[],
    Table.empty.addRow #[], .ofCount g.nodes.size⟩

/-- Adds the row of the state that `source` is. -/
def addRow (nodes : Array (Node α)) (f : Folding) (source : Nat) : Folding :=
  match f with
  | ⟨order, closures, table, walker⟩ =>
    let walker := walker.explore nodes source
    let r := walker.reached.foldl RowBuilder.add ⟨order, closures, #[]⟩
    ⟨r.order, r.closures, table.addRow r.transitions, walker⟩

/-- Adds the rows of the states from `state` on, at most `rounds` of them. -/
def addRows (nodes : Array (Node α)) : (rounds state : Nat) → Folding → Folding
  | 0, _, f => f
  | rounds + 1, state, f =>
    match f.order.members[state]? with
    | none => f
    | some source => addRows nodes rounds (state + 1) (f.addRow nodes source)

/-- The atoms of the assertions that the walks met, in the order of their indices. -/
def assertions (nodes : Array (Node α)) (f : Folding) : Array α :=
  f.walker.assertions.members.filterMap fun id ↦ nodes[id]?.bind fun n ↦ n.kind.assertion?

end Folding

/-- The automaton of a graph, without start bytes. There are no more states than nodes, so as many
rounds make all rows. -/
def Nfa.ofGraph (g : Graph α) : Nfa α :=
  let f := (Folding.initial g).addRows g.nodes g.nodes.size Nfa.entry
  { states := f.order.members.map fun id ↦ (g.nodes[id]?.elim .entry fun n ↦ State.ofKind n.kind)
    table := f.table
    closures := f.closures
    assertions := f.assertions g.nodes
    groups := g.groups
    startBytes? := none }

end Lockstep
