import Lockstep.Proofs.Nfa.StartBytes
import Lockstep.Proofs.Pattern.Wired

/-!
# The automaton of a pattern

Compiling a pattern folds its graph and looks for start bytes. An attempt of the automaton is a search
of the graph, and the start bytes found are sound.
-/

namespace Lockstep

universe u

variable {α : Type u}

namespace Graph

variable {g : Graph α}

theorem states_final (h : g.WellFormed) : (Nfa.ofGraph g).states[Nfa.final]? = some .final := by
  obtain ⟨node, hnode, hkind⟩ := Option.map_eq_some_iff.mp h.final
  rw [states_ofGraph, Array.getElem?_map, stateNodes_final h.entry_lt h.entry_ne, Option.map_some, hnode,
    Option.elim_some, hkind]
  rfl

end Graph

variable [Atom α]

/-- A search does not look at start bytes. -/
theorem Nfa.search_with_startBytes? (nfa : Nfa α) (found : Option StartBytes) (bs : Ahead)
    (state : Nat) : { nfa with startBytes? := found }.search bs state = nfa.search bs state := by
  induction bs generalizing state with
  | nil => rfl
  | cons b rest ih =>
    rw [search_cons, search_cons]
    apply congrArg (List.findSome? · _)
    funext t
    simp only [along, beyond, ih]
    rfl

namespace Pattern

variable {limit : Nat} {p : Pattern α} {nfa : Nfa α}

/-- An attempt of the automaton is a search of the graph that is wired from the pattern. -/
theorem exists_ofPostorder_of_compile (h : p.compile limit = .ok nfa) :
    ∃ g, Graph.ofPostorder limit p.nodes = .ok g ∧ ∀ bs, nfa.attempt bs = g.search bs g.entry := by
  obtain ⟨g, hgraph, rfl⟩ := Nfa.exists_of_compile h
  refine ⟨g, hgraph, fun bs ↦ ?_⟩
  have hwf := (accepted_of_ofPostorder hgraph).wellFormed
  rw [Nfa.attempt, Nfa.search_with_startBytes?]
  exact Graph.search_ofGraph hwf (Graph.stateNodes_entry hwf.entry_lt hwf.entry_ne)

/-- An attempt of the automaton is a search of a graph in which the nodes of the pattern lead from the
entry to the final node. -/
theorem exists_graph_of_compile (h : p.compile limit = .ok nfa) :
    ∃ g : Graph α, p.Accepted g ∧ ∀ bs, nfa.attempt bs = g.search bs g.entry := by
  obtain ⟨g, hgraph, hsearch⟩ := exists_ofPostorder_of_compile h
  exact ⟨g, accepted_of_ofPostorder hgraph, hsearch⟩

theorem groups_of_compile (h : p.compile limit = .ok nfa) : nfa.groups = p.groups := by
  obtain ⟨g, haccepted, rfl⟩ := exists_accepted_of_compile h
  exact haccepted.groups

/-- The start bytes of the automaton are sound. -/
theorem sound_of_compile (h : p.compile limit = .ok nfa) :
    ∀ bytes, nfa.startBytes? = some bytes → bytes.Sound nfa := by
  obtain ⟨g, haccepted, rfl⟩ := exists_accepted_of_compile h
  intro bytes hbytes
  have hsound := Nfa.sound_of_findStartBytes? (Graph.states_final haccepted.wellFormed) hbytes
  exact ⟨hsound.ascii, hsound.begins⟩

end Pattern

end Lockstep
