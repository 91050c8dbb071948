import Lockstep.Proofs.Pattern.Compiled

/-!
# Compiled automata

What holds of the automaton of every expression that compiles, whatever its nodes are: its first two
states are the final one and the entry, and its start bytes, if it has any, are sound.
-/

namespace Lockstep

universe u

variable {α : Type u}

/-! ## Wiring keeps the final node -/

namespace Builder

/-- Node 0 is a final one. -/
def Grounded (nodes : Array (Node α)) : Prop := nodes[Graph.final]?.map Node.kind = some .final

variable {nodes : Array (Node α)}

theorem kind_retarget (edges : List Edge) (target id : Nat) (node : Node α) :
    (retarget edges target id node).kind = node.kind := by
  induction edges generalizing node with
  | nil => rfl
  | cons e edges ih =>
    rw [retarget_cons, ih]
    split <;> rfl

theorem grounded_initial : Grounded (initial : Builder α).nodes := rfl

theorem Grounded.redirect (h : Grounded nodes) (edges : Array Edge) (target : Nat) :
    Grounded (redirect nodes edges target) := by
  rw [Grounded, getElem?_redirect, Option.map_map]
  exact Eq.trans (Option.map_congr fun node _ ↦ kind_retarget _ _ _ node) h

theorem Grounded.push (h : Grounded nodes) (node : Node α) : Grounded (nodes.push node) := by
  obtain ⟨final, hfinal, hkind⟩ := Option.map_eq_some_iff.mp h
  rw [Grounded, Array.getElem?_push_lt (Array.getElem?_eq_some_iff.mp hfinal).1,
    ← Array.getElem?_eq_getElem, hfinal, Option.map_some, hkind]

theorem Grounded.place? {b b' : Builder α} (h : Grounded b.nodes) {node : Node α}
    (hplace : b.place? node = some b') : Grounded b'.nodes := by
  unfold Builder.place? at hplace
  split at hplace
  case h_11 => cases hplace
  all_goals cases hplace
  case h_4 => exact h.redirect _ _
  case h_6 => exact (h.push _).redirect _ _
  case h_7 => exact (h.push _).redirect _ _
  case h_10 => exact (h.push _).redirect _ _
  all_goals exact h.push _

end Builder

/-- Node 0 of a wired graph is a final one, and its entry is an entry. -/
theorem Graph.wellFormed_of_ofPostorder {limit : Nat} {nodes : List (Node α)} {g : Graph α}
    (h : Graph.ofPostorder limit nodes = .ok g) : g.WellFormed := by
  obtain ⟨b, root, hpush, -, rfl⟩ := Builder.exists_of_ofPostorder h
  have hgrounded : Builder.Grounded b.nodes :=
    Builder.pushAll_of_place? (fun h hplace ↦ Builder.Grounded.place? h hplace)
      Builder.grounded_initial hpush
  exact ⟨hgrounded.push _, by simp⟩

theorem Graph.states_entry {g : Graph α} (h : g.WellFormed) :
    (Nfa.ofGraph g).states[Nfa.entry]? = some .entry := by
  obtain ⟨node, hnode, hkind⟩ := Option.map_eq_some_iff.mp h.entry
  rw [states_ofGraph, Array.getElem?_map, stateNodes_entry h.entry_lt h.entry_ne, Option.map_some, hnode,
    Option.elim_some, hkind]
  rfl

/-! ## What every compiled automaton has -/

namespace Nfa

variable [Atom α]

/-- An automaton with a final state, an entry, and start bytes that may be relied on. -/
structure Regular (nfa : Nfa α) : Prop where
  final : nfa.states[Nfa.final]? = some .final
  entry : nfa.states[Nfa.entry]? = some .entry
  startBytes : ∀ bytes, nfa.startBytes? = some bytes → bytes.Sound nfa
  /-- Where the entry leads to start bytes, nothing is done on the way. -/
  plain : nfa.startBytes?.isSome → ∀ t ∈ nfa.transitions Nfa.entry, nfa.work t = []

theorem closure_of_startByte? {nfa : Nfa α} {t : Transition} {b : UInt8}
    (h : nfa.startByte? t = some b) : t.closure = none := by
  unfold startByte? at h
  split at h
  · assumption
  · cases h

theorem regular_of_compile {limit : Nat} {nodes : List (Node α)} {nfa : Nfa α}
    (h : Nfa.compile limit nodes = .ok nfa) : nfa.Regular := by
  obtain ⟨g, hgraph, rfl⟩ := exists_of_compile h
  have hwf := Graph.wellFormed_of_ofPostorder hgraph
  have hfinal := Graph.states_final hwf
  refine ⟨hfinal, Graph.states_entry hwf, fun bytes hbytes ↦ ?_, fun hsome t ht ↦ ?_⟩
  · have hsound := sound_of_findStartBytes? hfinal hbytes
    exact ⟨hsound.ascii, hsound.begins⟩
  · obtain ⟨bytes, hbytes⟩ := Option.isSome_iff_exists.mp hsome
    obtain ⟨found, hfold, -⟩ := Option.bind_eq_some_iff.mp hbytes
    obtain ⟨b, -, hb⟩ := (collected hfold).2.2 t ht
    rw [work, closure_of_startByte? hb]

theorem Regular.entry_lt {nfa : Nfa α} (h : nfa.Regular) : Nfa.entry < nfa.size :=
  (Array.getElem?_eq_some_iff.mp h.entry).1

end Nfa

end Lockstep
