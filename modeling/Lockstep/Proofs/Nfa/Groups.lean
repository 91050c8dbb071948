import Lockstep.Proofs.Graph.Verdict
import Lockstep.Proofs.Nfa.Compile

/-!
# The groups of an automaton

The groups that an automaton counts are those of the markers wired into its graph, and a transition
makes no other marks than those of the markers passed on the way. So no mark is of a group beyond
those counted.
-/

namespace Lockstep

universe u

variable {α : Type u}

/-! ## The markers of a graph -/

/-- Every marker is of a group up to `groups`. -/
def Graph.Noted (nodes : Array (Node α)) (groups : Nat) : Prop :=
  ∀ (id : Nat) (node : Node α), nodes[id]? = some node → ∀ group ∈ node.captured?, group ≤ groups

namespace Builder

variable {b b' : Builder α} {node : Node α} {nodes : Array (Node α)} {groups groups' : Nat}

theorem captured?_retarget (edges : List Edge) (target id : Nat) (node : Node α) :
    (retarget edges target id node).captured? = node.captured? := by
  induction edges generalizing node with
  | nil => rfl
  | cons e edges ih =>
    rw [retarget_cons, ih]
    split <;> rfl

theorem noted_initial : Graph.Noted (initial : Builder α).nodes 0 := by
  intro id node hnode group hgroup
  obtain ⟨hid, rfl⟩ := Array.getElem?_eq_some_iff.mp hnode
  cases Nat.lt_one_iff.mp hid
  cases hgroup

theorem noted_redirect (h : Graph.Noted nodes groups) (edges : Array Edge) (target : Nat) :
    Graph.Noted (redirect nodes edges target) groups := by
  intro id node hnode group hgroup
  rw [getElem?_redirect] at hnode
  obtain ⟨wired, hwired, rfl⟩ := Option.map_eq_some_iff.mp hnode
  rw [captured?_retarget] at hgroup
  exact h id wired hwired group hgroup

theorem noted_push (h : Graph.Noted nodes groups) (hle : groups ≤ groups')
    (hnode : ∀ group ∈ node.captured?, group ≤ groups') : Graph.Noted (nodes.push node) groups' := by
  intro id node' hnode' group hgroup
  rw [Array.getElem?_push] at hnode'
  split at hnode'
  · cases hnode'
    exact hnode group hgroup
  · exact Nat.le_trans (h id node' hnode' group hgroup) hle

/-- A marker that is placed is counted. -/
theorem noted_place? (h : Graph.Noted b.nodes b.groups) (hplace : b.place? node = some b') :
    Graph.Noted b'.nodes b'.groups := by
  obtain ⟨-, -, hgroups⟩ := tally_of_place? hplace
  have hle : b.groups ≤ b'.groups := by
    rw [hgroups]
    cases node.captured? with
    | none => exact Nat.le_refl _
    | some group => exact Nat.le_max_left _ _
  have hnode : ∀ group ∈ node.captured?, group ≤ b'.groups := by
    intro group hgroup
    rw [hgroups, hgroup]
    exact Nat.le_max_right _ _
  have hpush : ∀ out, Graph.Noted (b.nodes.push { node with out }) b'.groups := fun out ↦
    noted_push h hle hnode
  unfold Builder.place? at hplace
  split at hplace <;> cases hplace
  case h_4 => exact noted_redirect h _ _
  case h_6 => exact noted_redirect (hpush _) _ _
  case h_7 => exact noted_redirect (hpush _) _ _
  case h_10 => exact noted_redirect (hpush _) _ _
  all_goals exact hpush _

end Builder

theorem Graph.noted_of_ofPostorder {limit : Nat} {sequence : List (Node α)} {g : Graph α}
    (h : Graph.ofPostorder limit sequence = .ok g) : Graph.Noted g.nodes g.groups := by
  obtain ⟨b, root, hpush, -, rfl⟩ := Builder.exists_of_ofPostorder h
  have hnoted := Builder.pushAll_of_place? (P := fun b ↦ Graph.Noted b.nodes b.groups)
    Builder.noted_place? Builder.noted_initial hpush
  exact Builder.noted_push hnoted (Nat.le_refl _) nofun

/-! ## The marks of a transition -/

/-- A mark made on a path is that of a marker. -/
theorem exists_captured_of_mem_passedWork {nodes : Array (Node α)} {ids : List Nat} {side : Side}
    {group : Nat} (h : .mark side group ∈ passedWork nodes ids) :
    ∃ (id : Nat) (node : Node α), nodes[id]? = some node ∧ node.captured? = some group := by
  obtain ⟨id, -, hid⟩ := List.mem_filterMap.mp h
  obtain ⟨node, hnode, hop⟩ := Option.bind_eq_some_iff.mp hid
  refine ⟨id, node, hnode, ?_⟩
  obtain ⟨kind, greedy, capturing, group', out⟩ := node
  cases kind <;> cases capturing <;> cases hop <;> rfl

/-- The marks of a transition are those of markers of the graph. -/
theorem Graph.exists_captured_of_mem_work {g : Graph α} {state source : Nat} {kept : List Path}
    (h : g.folding.Row g state source kept) {t : Transition}
    (ht : t ∈ (Nfa.ofGraph g).transitions state) {side : Side} {group : Nat}
    (hmark : .mark side group ∈ (Nfa.ofGraph g).work t) :
    ∃ (id : Nat) (node : Node α), g.nodes[id]? = some node ∧ node.captured? = some group := by
  obtain ⟨p, -, harrival⟩ := h.exists_path ht
  rw [work_ofGraph, ← harrival] at hmark
  obtain ⟨op, hop, hlabel⟩ := List.mem_map.mp hmark
  cases op with
  | assert index => cases hlabel
  | mark side' group' =>
    cases hlabel
    exact exists_captured_of_mem_passedWork hop

namespace Nfa

/-- Transitions make marks of the automaton's groups only. -/
def MarksGroups (nfa : Nfa α) : Prop :=
  ∀ state < nfa.size, ∀ t ∈ nfa.transitions state, ∀ side group,
    .mark side group ∈ nfa.work t → group ≤ nfa.groups

theorem marksGroups_of_compile [Atom α] {limit : Nat} {nodes : List (Node α)} {nfa : Nfa α}
    (h : compile limit nodes = .ok nfa) : nfa.MarksGroups := by
  obtain ⟨g, hgraph, rfl⟩ := exists_of_compile h
  have hwf := Graph.wellFormed_of_ofPostorder hgraph
  intro state hstate t ht side group hmark
  have hlt : state < g.stateNodes.size := Graph.size_ofGraph g ▸ hstate
  obtain ⟨source, kept, hrow⟩ := Graph.exists_row_of_lt hwf.entry_lt hwf.entry_ne hlt
  obtain ⟨id, node, hnode, hgroup⟩ := Graph.exists_captured_of_mem_work hrow ht hmark
  exact Graph.noted_of_ofPostorder hgraph id node hnode group hgroup

end Nfa

end Lockstep
