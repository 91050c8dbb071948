import Lockstep.Proofs.Graph.Kinds
import Lockstep.Proofs.Nfa.Growth

/-!
# Well-formed automata

The automaton of a graph may be read without checks: rows, targets, closures and assertions are where the
table says they are. Behind the final state and the entry, its states are the atoms that a breadth-first
search of the automaton finds. Nothing leads back to the entry, so an attempt may set out there at any
place.
-/

namespace Lockstep

universe u

variable {α : Type u}

namespace Nfa

/-- The states that a state leads to, the preferred one first. -/
def targets (nfa : Nfa α) (state : Nat) : List Nat := (nfa.transitions state).map Transition.target

/-- The transitions lead from the entry to the state. -/
def Reachable (nfa : Nfa α) (state : Nat) : Prop :=
  Relation.ReflTransGen (fun source target ↦ target ∈ nfa.targets source) entry state

/-- What every access to an automaton relies on, and how its states are numbered. -/
structure WellFormed (nfa : Nfa α) : Prop where
  final : nfa.states[Nfa.final]? = some .final
  entry : nfa.states[Nfa.entry]? = some .entry
  atoms : ∀ state, Nfa.entry < state → state < nfa.size → ∃ a, nfa.states[state]? = some (.atom a)
  /-- The rows are all transitions, one behind the other. -/
  table : nfa.table.Tiled nfa.size
  target_lt : ∀ t ∈ nfa.table.transitions, t.target < nfa.size
  target_ne : ∀ t ∈ nfa.table.transitions, t.target ≠ Nfa.entry
  transitions_final : nfa.transitions Nfa.final = []
  /-- Each closure belongs to one transition, and they are in the order of the transitions. -/
  closures : nfa.table.transitions.toList.filterMap Transition.closure =
    List.range nfa.closures.size
  worked : ∀ work ∈ nfa.closures, work ≠ []
  assertions : ∀ work ∈ nfa.closures, ∀ index, .assert index ∈ work → index < nfa.assertions.size
  reachable : ∀ state < nfa.size, state ≠ Nfa.final → nfa.Reachable state
  /-- A breadth-first search finds the states in the order of their numbers, and no others. -/
  discovered : ∀ rounds, nfa.size ≤ rounds →
    (BreadthFirst.step nfa.targets)^[rounds] .initial = ⟨[], List.range nfa.size⟩

end Nfa

/-! ## The nodes that are states -/

/-- The kind of the node that a state is taken from. -/
def State.kind : State α → Kind α
  | .final => .final
  | .entry => .entry
  | .atom a => .atom a

/-- Behind the final state and the entry there are atoms only. -/
inductive State.At : (state : Nat) → State α → Prop where
  | final : At Nfa.final .final
  | entry : At Nfa.entry .entry
  | atom {state : Nat} (hlt : Nfa.entry < state) (a : α) : At state (.atom a)

namespace Graph

variable {g : Graph α}

/-- A target is a consuming node. -/
theorem consuming_of_mem_row {state source : Nat} {kept : List Path}
    (h : g.folding.Row g state source kept) {t : Transition} (ht : t ∈ g.folding.table.row state) :
    ∃ node, g.nodes[g.stateNodes.getD t.target 0]? = some node ∧ node.isConsuming = true := by
  obtain ⟨p, hp, harrival⟩ := h.exists_path ht
  have htarget : p.target = g.stateNodes.getD t.target 0 := congrArg Arrival.target harrival
  exact htarget ▸ consuming_of_mem_paths (h.pruned.subset hp)

/-- A state behind the entry is a target, and so it is an atom: the only final node is a state
already. -/
theorem exists_atom_of_stateNodes (h : g.Proper) {state source : Nat} (hlt : Nfa.entry < state)
    (hsource : g.stateNodes[state]? = some source) :
    ∃ node a, g.nodes[source]? = some node ∧ node.kind = .atom a := by
  have hsize := (Array.getElem?_eq_some_iff.mp hsource).1
  obtain ⟨before, hbefore, -, -, hmem⟩ :=
    (grown_folding h.entry_lt h.entry_ne).discovers.exists_mem hlt hsize
  obtain ⟨t, ht, htarget⟩ := List.mem_map.mp hmem
  obtain ⟨origin, kept, hrow⟩ := exists_row_of_lt h.entry_lt h.entry_ne hbefore
  obtain ⟨node, hnode, hcons⟩ := consuming_of_mem_row hrow ht
  rw [htarget, Array.getD_eq_getD_getElem?, hsource, Option.getD_some] at hnode
  cases hkind : node.kind with
  | atom a => exact ⟨node, a, hnode, hkind⟩
  | final =>
    have hfinal := stateNodes_final h.entry_lt h.entry_ne
    cases h.sole source node hnode hkind
    cases SparseSet.eq_of_getElem?_members hsource hfinal
    exact absurd hlt (Nat.not_lt_zero _)
  | _ =>
    rw [Node.isConsuming, hkind] at hcons
    cases hcons

/-- A state is what its node is. -/
theorem exists_state (h : g.Proper) {state source : Nat}
    (hsource : g.stateNodes[state]? = some source) :
    ∃ s : State α, (Nfa.ofGraph g).states[state]? = some s ∧ State.At state s ∧
      g.nodes[source]?.map Node.kind = some s.kind := by
  have hentry := h.entry_lt
  have hne := h.entry_ne
  match state with
  | 0 =>
    cases hsource.symm.trans (stateNodes_final hentry hne)
    exact ⟨.final, states_final h.toWellFormed, .final, h.final⟩
  | 1 =>
    cases hsource.symm.trans (stateNodes_entry hentry hne)
    exact ⟨.entry, states_entry h.toWellFormed, .entry, h.entry⟩
  | state + 2 =>
    have hlt : Nfa.entry < state + 2 := Nat.lt_add_left state Nat.one_lt_two
    obtain ⟨node, a, hnode, hkind⟩ := exists_atom_of_stateNodes h hlt hsource
    refine ⟨.atom a, ?_, .atom hlt a, ?_⟩
    · rw [states_ofGraph, Array.getElem?_map, hsource, Option.map_some, hnode, Option.elim_some, hkind]
      rfl
    · rw [hnode, Option.map_some, hkind]
      rfl

/-- The states are the nodes that the numbers stand for. -/
theorem map_kind_states (h : g.Proper) :
    (Nfa.ofGraph g).states.toList.map (fun s ↦ some s.kind) =
      g.stateNodes.toList.map fun id ↦ g.nodes[id]?.map Node.kind := by
  apply List.ext_getElem?
  intro state
  rw [List.getElem?_map, List.getElem?_map, Array.getElem?_toList, Array.getElem?_toList]
  cases hsource : g.stateNodes[state]? with
  | none =>
    rw [states_ofGraph, Array.getElem?_map, hsource]
    rfl
  | some source =>
    obtain ⟨s, hs, -, hkind⟩ := exists_state h hsource
    rw [hs, Option.map_some, Option.map_some, hkind]

/-! ## The nodes that are assertions -/

/-- The node of an assertion that has a number. -/
theorem exists_of_mem_assertionNodes (h : g.Proper) {id : Nat} (hid : id ∈ g.assertionNodes.toList) :
    ∃ node a, g.nodes[id]? = some node ∧ node.kind = .assert a := by
  obtain ⟨count, hrows, -⟩ := exists_rows_folding h.entry_lt h.entry_ne
  exact hrows.idle.asserting id hid

/-- The numbered assertions are the nodes that the numbers stand for. -/
theorem map_kind_assertions (h : g.Proper) :
    (Nfa.ofGraph g).assertions.toList.map (fun a ↦ some (.assert a)) =
      g.assertionNodes.toList.map fun id ↦ g.nodes[id]?.map Node.kind := by
  have hlist : (Nfa.ofGraph g).assertions.toList =
      g.assertionNodes.toList.filterMap fun id ↦ g.nodes[id]?.bind fun n ↦ n.kind.assertion? :=
    Array.toList_filterMap
  rw [hlist]
  have hids : ∀ id ∈ g.assertionNodes.toList,
      ∃ node a, g.nodes[id]? = some node ∧ node.kind = .assert a :=
    fun _ hid ↦ exists_of_mem_assertionNodes h hid
  generalize g.assertionNodes.toList = ids at hids
  induction ids with
  | nil => rfl
  | cons id ids ih =>
    obtain ⟨node, a, hnode, hkind⟩ := hids id List.mem_cons_self
    have hsome : (g.nodes[id]?.bind fun n ↦ n.kind.assertion?) = some a := by
      rw [hnode, Option.bind_some, hkind]
      rfl
    rw [List.filterMap_cons, hsome, List.map_cons, List.map_cons, hnode, Option.map_some, hkind,
      ih fun id' hid' ↦ hids id' (List.mem_cons_of_mem _ hid')]

theorem size_assertions_ofGraph (h : g.Proper) :
    (Nfa.ofGraph g).assertions.size = g.assertionNodes.size := by
  have hlength := congrArg List.length (map_kind_assertions h)
  rwa [List.length_map, List.length_map, Array.length_toList, Array.length_toList] at hlength

/-! ## The automaton of a graph -/

/-- Every transition is in the row of a state. -/
theorem exists_row_of_mem (h : g.Proper) {t : Transition} (ht : t ∈ g.folding.table.transitions) :
    ∃ state source kept, g.folding.Row g state source kept ∧ t ∈ g.folding.table.row state := by
  have hrows := (grown_folding h.entry_lt h.entry_ne).tiled.rows
  rw [← Array.mem_toList_iff, ← hrows] at ht
  obtain ⟨state, hstate, ht⟩ := List.mem_flatMap.mp ht
  obtain ⟨source, kept, hrow⟩ :=
    exists_row_of_lt h.entry_lt h.entry_ne (List.mem_range.mp hstate)
  exact ⟨state, source, kept, hrow, ht⟩

/-- Nothing leads to the entry, which does not consume. -/
theorem target_ne_entry (h : g.Proper) {t : Transition} (ht : t ∈ g.folding.table.transitions) :
    t.target ≠ Nfa.entry := by
  intro heq
  obtain ⟨state, source, kept, hrow, ht⟩ := exists_row_of_mem h ht
  obtain ⟨node, hnode, hcons⟩ := consuming_of_mem_row hrow ht
  rw [heq, Array.getD_eq_getD_getElem?, stateNodes_entry h.entry_lt h.entry_ne, Option.getD_some]
    at hnode
  have hkind := h.entry
  rw [hnode, Option.map_some] at hkind
  rw [Node.isConsuming, Option.some.inj hkind] at hcons
  cases hcons

/-- The final state leads nowhere. -/
theorem row_final (h : g.Proper) : g.folding.table.row Nfa.final = [] := by
  obtain ⟨kept, hrow⟩ := exists_row_folding h.entry_lt h.entry_ne
    (stateNodes_final h.entry_lt h.entry_ne)
  have hpaths : g.paths final = [] := if_pos rfl
  have hkept : kept = [] := List.subset_nil.mp (hpaths ▸ hrow.pruned.subset)
  have hread := hrow.read
  rw [hkept] at hread
  exact List.map_eq_nil_iff.mp hread

/-- An assertion in a closure has a number. -/
theorem lt_of_mem_closures (h : g.Proper) {work : List ZeroWidth} (hwork : work ∈ g.folding.closures)
    {index : Nat} (hindex : .assert index ∈ work) : index < g.assertionNodes.size := by
  obtain ⟨id, hid, rfl⟩ := Array.mem_iff_getElem.mp hwork
  have hmem := List.mem_range.mpr hid
  rw [← (grown_folding h.entry_lt h.entry_ne).closures] at hmem
  obtain ⟨t, ht, hclosure⟩ := List.mem_filterMap.mp hmem
  obtain ⟨state, source, kept, hrow, ht⟩ := exists_row_of_mem h (Array.mem_toList_iff.mp ht)
  obtain ⟨p, hp, harrival⟩ := hrow.exists_path ht
  have hwork : (p.work g.nodes).map (ZeroWidth.relabel g.folding.walker.assertions) =
      g.folding.closures[id] := by
    have hread : (t.read g.folding.order g.folding.closures).work = g.folding.closures[id] := by
      rw [Transition.read, hclosure]
      exact (Array.getElem_eq_getD []).symm
    exact (congrArg Arrival.work harrival).trans hread
  exact (hrow.numbered p hp).lt_of_mem_map_relabel (hwork ▸ hindex)

/-- The automaton of a graph is well formed. -/
theorem wellFormed_ofGraph (h : g.Proper) : (Nfa.ofGraph g).WellFormed := by
  have hgrown := grown_folding h.entry_lt h.entry_ne
  have hsize := size_ofGraph g
  constructor
  case final => exact states_final h.toWellFormed
  case entry => exact states_entry h.toWellFormed
  case atoms =>
    intro state hlt hstate
    obtain ⟨s, hs, hat, -⟩ := exists_state h (Array.getElem?_eq_getElem (hsize ▸ hstate))
    cases hat with
    | final => exact absurd hlt (Nat.not_lt_zero _)
    | entry => exact absurd hlt (Nat.lt_irrefl _)
    | atom _ a => exact ⟨a, hs⟩
  case table => exact hsize ▸ hgrown.tiled
  case target_lt =>
    intro t ht
    obtain ⟨state, source, kept, hrow, ht⟩ := exists_row_of_mem h ht
    exact hsize ▸ (hrow.placed t ht).target
  case target_ne => exact fun t ht ↦ target_ne_entry h ht
  case transitions_final => exact row_final h
  case closures => exact hgrown.closures
  case worked => exact fun work hwork ↦ hgrown.worked work (Array.mem_toList_iff.mpr hwork)
  case assertions =>
    intro work hwork index hindex
    exact size_assertions_ofGraph h ▸ lt_of_mem_closures h hwork hindex
  case reachable =>
    intro state hstate hne
    exact hgrown.discovers.reaches (Nat.pos_of_ne_zero hne) (hsize ▸ hstate : state < g.stateNodes.size)
  case discovered =>
    intro rounds hrounds
    rw [hsize] at hrounds ⊢
    exact hgrown.discovers.iterate_step_of_le hrounds

end Graph

/-! ## Moving the atoms -/

/-- What a node is as a state, if it can be one. -/
def State.ofKind? : Kind α → Option (State α)
  | .atom a => some (.atom a)
  | .final => some .final
  | .entry => some .entry
  | _ => none

theorem State.ofKind?_kind (s : State α) : ofKind? s.kind = some s := by
  cases s <;> rfl

theorem Kind.assertion?_assert (a : α) : assertion? (.assert a) = some a := rfl

/-- Moves the kinds out of nodes, one after the other, and leaves empty nodes behind. There is no result
if `read` makes nothing of a kind. -/
def takeKinds {β : Type u} (read : Kind α → Option β) :
    List Nat → Array (Node α) → Option (List β × Array (Node α))
  | [], nodes => some ([], nodes)
  | id :: ids, nodes => do
    let x ← nodes[id]?.bind fun node ↦ read node.kind
    let (xs, nodes) ← takeKinds read ids (nodes.modify id fun node ↦ { node with kind := .empty })
    some (x :: xs, nodes)

/-- The folding of a graph that moves the atoms out of the nodes. There is no result if a state is
neither the final one nor the entry nor an atom, or if a numbered assertion is none. -/
def Nfa.ofGraph? (g : Graph α) : Option (Nfa α) := do
  let (states, nodes) ← takeKinds State.ofKind? g.stateNodes.toList g.nodes
  let (assertions, _) ← takeKinds Kind.assertion? g.assertionNodes.toList nodes
  some
    { states := states.toArray
      table := g.folding.table
      closures := g.folding.closures
      assertions := assertions.toArray
      groups := g.groups
      startBytes? := none }

/-- Different nodes may be moved out of, whatever was before. -/
theorem exists_takeKinds {β : Type u} {read : Kind α → Option β} {kind : β → Kind α}
    (hread : ∀ x, read (kind x) = some x) {ids : List Nat} {xs : List β} {nodes : Array (Node α)}
    (hnodup : ids.Nodup)
    (hkinds : xs.map (fun x ↦ some (kind x)) = ids.map fun id ↦ nodes[id]?.map Node.kind) :
    ∃ nodes', takeKinds read ids nodes = some (xs, nodes') ∧
      ∀ id ∉ ids, nodes'[id]? = nodes[id]? := by
  induction ids generalizing nodes xs with
  | nil =>
    cases List.map_eq_nil_iff.mp hkinds
    exact ⟨nodes, rfl, fun _ _ ↦ rfl⟩
  | cons id ids ih =>
    obtain ⟨hid, hnodup⟩ := List.nodup_cons.mp hnodup
    obtain _ | ⟨x, xs⟩ := xs
    · cases hkinds
    obtain ⟨hkind, hkinds⟩ := List.cons.inj hkinds
    obtain ⟨node, hnode, hnodekind⟩ := Option.map_eq_some_iff.mp hkind.symm
    let nodes' := nodes.modify id fun node ↦ { node with kind := .empty }
    have hother : ∀ id' ≠ id, nodes'[id']? = nodes[id']? := fun id' hne ↦ by
      rw [Array.getElem?_modify, if_neg (Ne.symm hne)]
    have hrest : ids.map (fun id ↦ nodes'[id]?.map Node.kind) =
        ids.map fun id ↦ nodes[id]?.map Node.kind :=
      List.map_congr_left fun id' hid' ↦ by rw [hother id' fun heq ↦ hid (heq ▸ hid')]
    obtain ⟨nodes'', htake, hleft⟩ := ih hnodup (hkinds.trans hrest.symm)
    refine ⟨nodes'', ?_, fun id' hid' ↦ ?_⟩
    · have hx : (nodes[id]?.bind fun node ↦ read node.kind) = some x := by
        rw [hnode, Option.bind_some, hnodekind, hread]
      rw [takeKinds, hx, Option.bind_eq_bind, Option.bind_some, htake]
      rfl
    · rw [List.mem_cons, not_or] at hid'
      rw [hleft id' hid'.2, hother id' hid'.1]

namespace Graph

variable {g : Graph α}

/-- No atom is asked for twice, and nothing else than atoms is. -/
theorem ofGraph?_eq (h : g.Proper) : Nfa.ofGraph? g = some (Nfa.ofGraph g) := by
  obtain ⟨nodes, hstates, hleft⟩ := exists_takeKinds State.ofKind?_kind
    g.folding.order.nodup_toList (map_kind_states h)
  have hkinds : g.assertionNodes.toList.map (fun id ↦ nodes[id]?.map Node.kind) =
      g.assertionNodes.toList.map fun id ↦ g.nodes[id]?.map Node.kind := by
    refine List.map_congr_left fun id hid ↦ congrArg _ (hleft id fun hstate ↦ ?_)
    obtain ⟨node, a, hnode, hkind⟩ := exists_of_mem_assertionNodes h hid
    obtain ⟨state, hstate⟩ := List.mem_iff_getElem?.mp hstate
    obtain ⟨s, -, -, hs⟩ := exists_state h (Array.getElem?_toList.symm.trans hstate)
    rw [hnode, Option.map_some, hkind] at hs
    cases s <;> cases hs
  obtain ⟨nodes', hassertions, -⟩ := exists_takeKinds Kind.assertion?_assert
    g.folding.walker.assertions.nodup_toList ((map_kind_assertions h).trans hkinds.symm)
  rw [Nfa.ofGraph?]
  exact Option.bind_eq_some_iff.mpr ⟨_, hstates, Option.bind_eq_some_iff.mpr ⟨_, hassertions, rfl⟩⟩

/-! ## Automata in general -/

/-- The automaton is well formed, and its states and assertions are those of nodes of the graph, of
different ones each. Moving the atoms out of them comes to the same. -/
structure Folds (g : Graph α) (nfa : Nfa α) : Prop where
  wellFormed : nfa.WellFormed
  size_le : nfa.size ≤ g.nodes.size
  nodup_states : g.stateNodes.toList.Nodup
  states : nfa.states.toList.map (fun s ↦ some s.kind) =
    g.stateNodes.toList.map fun id ↦ g.nodes[id]?.map Node.kind
  nodup_assertions : g.assertionNodes.toList.Nodup
  assertions : nfa.assertions.toList.map (fun a ↦ some (.assert a)) =
    g.assertionNodes.toList.map fun id ↦ g.nodes[id]?.map Node.kind
  moved : Nfa.ofGraph? g = some { nfa with startBytes? := none }

theorem folds_ofGraph (h : g.Proper) : g.Folds (Nfa.ofGraph g) where
  wellFormed := wellFormed_ofGraph h
  size_le := by
    obtain ⟨count, hrows, -⟩ := exists_rows_folding h.entry_lt h.entry_ne
    rw [size_ofGraph, ← hrows.capacity]
    exact g.folding.order.size_le_capacity
  nodup_states := g.folding.order.nodup_toList
  states := map_kind_states h
  nodup_assertions := g.folding.walker.assertions.nodup_toList
  assertions := map_kind_assertions h
  moved := ofGraph?_eq h

/-- Start bytes are no part of what is folded. -/
theorem Folds.with_startBytes? {nfa : Nfa α} (h : g.Folds nfa) (found : Option StartBytes) :
    g.Folds { nfa with startBytes? := found } :=
  ⟨⟨h.wellFormed.final, h.wellFormed.entry, h.wellFormed.atoms, h.wellFormed.table,
    h.wellFormed.target_lt, h.wellFormed.target_ne, h.wellFormed.transitions_final,
    h.wellFormed.closures, h.wellFormed.worked, h.wellFormed.assertions, h.wellFormed.reachable,
    h.wellFormed.discovered⟩, h.size_le, h.nodup_states, h.states, h.nodup_assertions, h.assertions,
    h.moved⟩

/-- A graph with one final node folds into a well-formed automaton, and so does the graph of every
expression that can be wired. -/
theorem folds_wellFormed [Atom α] :
    (∀ g : Graph α, g.Proper → g.Folds (Nfa.ofGraph g)) ∧
      ∀ limit (sequence : List (Node α)) g, ofPostorder limit sequence = .ok g →
        ∃ nfa, Nfa.compile limit sequence = .ok nfa ∧ g.Folds nfa := by
  refine ⟨fun g h ↦ folds_ofGraph h, fun limit sequence g h ↦ ?_⟩
  have hfolds := folds_ofGraph (proper_of_ofPostorder h)
  refine ⟨_, ?_, hfolds.with_startBytes? (Nfa.ofGraph g).findStartBytes?⟩
  rw [Nfa.compile, h]

/-- A graph with a second entry on a loop through an assertion, and the expression `(b|a*)*` in which
`b` is an assertion. -/
theorem folds_wellFormed_of_loops :
    let g : Graph Char := ⟨#[⟨.final, false, false, 0, []⟩, ⟨.atom 'a', false, false, 0, [2, 0]⟩,
      ⟨.entry, false, false, 0, [3, 1]⟩, ⟨.assert 'b', false, false, 0, [2, 0]⟩,
      ⟨.entry, false, false, 0, [2, 1]⟩], 4, 0⟩
    let sequence : List (Node Char) :=
      [.assert 'b', .atom 'a', .zeroOrMore true, .alternate, .zeroOrMore true]
    (g.Proper ∧ g.Folds (Nfa.ofGraph g)) ∧
      ∃ wired nfa, ofPostorder 10 sequence = .ok wired ∧ Nfa.compile 10 sequence = .ok nfa ∧
        wired.Folds nfa := by
  intro g sequence
  refine ⟨⟨by decide, folds_wellFormed.1 g (by decide)⟩, ?_⟩
  obtain ⟨wired, h⟩ : ∃ wired, ofPostorder 10 sequence = .ok wired := ⟨_, rfl⟩
  obtain ⟨nfa, hcompile, hfolds⟩ := folds_wellFormed.2 10 sequence wired h
  exact ⟨wired, nfa, h, hcompile, hfolds⟩

end Graph

end Lockstep
