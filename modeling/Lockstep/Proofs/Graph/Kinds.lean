import Lockstep.Proofs.Graph.Verdict
import Lockstep.Proofs.Nfa.Compile

/-!
# The kinds of the nodes of a graph

Wiring points edges elsewhere and adds nodes, but never makes another node of one that is there. The
kinds of a wired graph are those of the expression in its order, without concatenations, after the final
node and before the entry. So its only final node is node 0, and it has no assertions that the
expression has not.
-/

namespace Lockstep

universe u

variable {α : Type u}

/-! ## Wiring -/

namespace Builder

variable {b b' : Builder α} {node : Node α} {limit index : Nat} {sequence : List (Node α)}

/-- The kinds of the nodes wired so far. -/
def kinds (b : Builder α) : List (Kind α) := b.nodes.toList.map Node.kind

theorem kinds_redirect (nodes : Array (Node α)) (edges : Array Edge) (target : Nat) :
    (redirect nodes edges target).toList.map Node.kind = nodes.toList.map Node.kind := by
  apply List.ext_getElem?
  intro id
  rw [List.getElem?_map, List.getElem?_map, Array.getElem?_toList, Array.getElem?_toList,
    getElem?_redirect, Option.map_map]
  exact Option.map_congr fun node _ ↦ kind_retarget _ _ _ node

/-- A node that is placed has a place in an expression, and it adds its kind unless it is a
concatenation. -/
theorem kinds_place? (hplace : b.place? node = some b') :
    node.kind.arity?.isSome ∧
      b'.kinds = b.kinds ++ ([node].filter (·.kind.makesState)).map Node.kind := by
  obtain ⟨kind, greedy, capturing, group, out⟩ := node
  unfold Builder.place? at hplace
  split at hplace <;> cases hplace
  all_goals
    rename_i hkind
    cases hkind
  all_goals
    refine ⟨rfl, ?_⟩
    simp [kinds, kinds_redirect, Kind.makesState]

/-- The kinds that a sequence of nodes adds. -/
theorem kinds_pushAll (h : b.pushAll limit index sequence = .ok b') :
    (∀ node ∈ sequence, node.kind.arity?.isSome) ∧
      b'.kinds = b.kinds ++ (sequence.filter (·.kind.makesState)).map Node.kind := by
  induction sequence generalizing b index with
  | nil =>
    cases h
    exact ⟨nofun, (List.append_nil _).symm⟩
  | cons node sequence ih =>
    rw [pushAll] at h
    split at h
    · cases h
    · rename_i b₁ hpush
      rw [push] at hpush
      split at hpush
      · cases hpush
      · rename_i b₂ hplace
        split at hpush <;> cases hpush
        obtain ⟨harity, hkinds⟩ := kinds_place? hplace
        obtain ⟨harities, hkinds'⟩ := ih h
        refine ⟨List.forall_mem_cons.mpr ⟨harity, harities⟩, ?_⟩
        rw [hkinds', hkinds, List.append_assoc, ← List.map_append, ← List.filter_append,
          List.singleton_append]

end Builder

/-! ## The finished graph -/

namespace Graph

variable {g : Graph α} {limit : Nat} {sequence : List (Node α)}

/-- A graph is wired from nodes that have a place in an expression, and they are its nodes, without
concatenations, between the final node and the entry. -/
theorem kinds_of_ofPostorder (h : ofPostorder limit sequence = .ok g) :
    (∀ node ∈ sequence, node.kind.arity?.isSome) ∧
      g.nodes.toList.map Node.kind =
        .final :: (sequence.filter (·.kind.makesState)).map Node.kind ++ [.entry] := by
  obtain ⟨b, root, hpush, -, rfl⟩ := Builder.exists_of_ofPostorder h
  obtain ⟨harities, hkinds⟩ := Builder.kinds_pushAll hpush
  refine ⟨harities, ?_⟩
  rw [Array.toList_push, List.map_append, List.map_singleton]
  exact congrArg (· ++ [Kind.entry]) hkinds

/-- A well-formed graph has no other final node than node 0. -/
structure Proper (g : Graph α) : Prop extends g.WellFormed where
  sole : ∀ (id : Nat) (node : Node α), g.nodes[id]? = some node → node.kind = .final → id = Graph.final

theorem proper_iff : g.Proper ↔
    (g.nodes[Graph.final]?.map Node.kind = some .final ∧
      g.nodes[g.entry]?.map Node.kind = some .entry) ∧
        ∀ id < g.nodes.size, g.nodes[id]?.map Node.kind = some .final → id = final := by
  constructor
  · refine fun h ↦ ⟨⟨h.final, h.entry⟩, fun id _ hkind ↦ ?_⟩
    obtain ⟨node, hnode, hkind⟩ := Option.map_eq_some_iff.mp hkind
    exact h.sole id node hnode hkind
  · rintro ⟨⟨hfinal, hentry⟩, hsole⟩
    refine ⟨⟨hfinal, hentry⟩, fun id node hnode hkind ↦ ?_⟩
    refine hsole id (Array.getElem?_eq_some_iff.mp hnode).1 ?_
    rw [hnode, Option.map_some, hkind]

instance [DecidableEq α] : Decidable g.Proper := decidable_of_iff _ proper_iff.symm

/-- No node of the graph is an assertion. -/
def Unconditional (g : Graph α) : Prop := ∀ node ∈ g.nodes, node.kind.assertion? = none

instance [DecidableEq α] : Decidable g.Unconditional :=
  inferInstanceAs (Decidable (∀ node ∈ g.nodes, node.kind.assertion? = none))

theorem getElem?_kinds {id : Nat} {node : Node α} (hnode : g.nodes[id]? = some node) :
    (g.nodes.toList.map Node.kind)[id]? = some node.kind := by
  rw [List.getElem?_map, Array.getElem?_toList, hnode, Option.map_some]

theorem proper_of_ofPostorder (h : ofPostorder limit sequence = .ok g) : g.Proper := by
  obtain ⟨harities, hkinds⟩ := kinds_of_ofPostorder h
  refine ⟨wellFormed_of_ofPostorder h, fun id node hnode hkind ↦ ?_⟩
  have hget := getElem?_kinds hnode
  rw [hkinds, hkind] at hget
  cases id with
  | zero => rfl
  | succ id =>
    -- behind node 0 stand the entry and nodes with a place in an expression
    rw [List.cons_append, List.getElem?_cons_succ] at hget
    rcases List.mem_append.mp (List.mem_of_getElem? hget) with hmem | hmem
    · obtain ⟨placed, hplaced, heq⟩ := List.mem_map.mp hmem
      have harity := harities placed (List.mem_filter.mp hplaced).1
      rw [heq] at harity
      cases harity
    · cases List.mem_singleton.mp hmem

theorem unconditional_of_ofPostorder (h : ofPostorder limit sequence = .ok g)
    (hsequence : ∀ node ∈ sequence, node.kind.assertion? = none) : g.Unconditional := by
  intro node hnode
  have hmem : node.kind ∈ g.nodes.toList.map Node.kind :=
    List.mem_map_of_mem (Array.mem_toList_iff.mpr hnode)
  rw [(kinds_of_ofPostorder h).2, List.mem_append, List.mem_cons] at hmem
  rcases hmem with (hkind | hkind) | hkind
  · rw [hkind]
    rfl
  · obtain ⟨placed, hplaced, heq⟩ := List.mem_map.mp hkind
    exact heq ▸ hsequence placed (List.mem_filter.mp hplaced).1
  · rw [List.mem_singleton.mp hkind]
    rfl

end Graph

end Lockstep
