import Lockstep.Proofs.Closure.Irredundant
import Lockstep.Proofs.Nfa.WellFormed

/-!
# Irredundant rows

However alternatives and loops are nested, the transitions of a state lead to a target once, but for
assertions: an earlier transition to the same target has an assertion, and other work. So an automaton
without assertions has at most one transition from each state to each other.
-/

namespace Lockstep

universe u

variable {α : Type u}

namespace Folding

variable {g : Graph α} {f : Folding} {count : Nat}

/-- An old row stands for the same arrivals when the next one is made. -/
theorem Rows.arrivals_addRow (h : f.Rows g count) {source : Nat} (hcount : count ≠ 0)
    (hsource : f.order.members[count]? = some source) {state : Nat} (hstate : state < count) :
    (f.addRow g.nodes source).arrivals state = f.arrivals state := by
  obtain ⟨-, hext⟩ := h.reads_nextRow hcount hsource
  have hsize : count < f.order.members.size := (Array.getElem?_eq_some_iff.mp hsource).1
  obtain ⟨kept, hrow⟩ :=
    h.row state _ hstate (Array.getElem?_eq_getElem (Nat.lt_trans hstate hsize))
  have htable : (f.addRow g.nodes source).table.row state = f.table.row state :=
    h.table.row_addRow _ hstate
  rw [arrivals, arrivals, htable]
  exact List.map_congr_left fun t ht ↦ (hrow.placed t ht).read_eq hext.order hext.closures

/-- The new row stands for what is reached. -/
theorem Rows.arrivals_addRow_self (h : f.Rows g count) {source : Nat} (hcount : count ≠ 0)
    (hsource : f.order.members[count]? = some source) :
    (f.addRow g.nodes source).arrivals count =
      (f.walker.explore g.nodes source).reached.toList := by
  obtain ⟨hreads, -⟩ := h.reads_nextRow hcount hsource
  rw [← hreads.read]
  exact congrArg (List.map _) (h.table.row_addRow_self _)

/-- The rows made so far are irredundant, and the walker may settle every node. -/
structure Thrifty (g : Graph α) (f : Folding) (count : Nat) : Prop where
  rows : f.Rows g count
  capacity : f.walker.settled.capacity = g.nodes.size
  irredundant : ∀ state < count, Irredundant ((f.arrivals state).map Arrival.way)

theorem thrifty_initial (hentry : g.entry < g.nodes.size) (hne : g.entry ≠ Graph.final) :
    (initial g).Thrifty g 1 where
  rows := rows_initial hentry hne
  capacity := SparseSet.capacity_ofCapacity _
  irredundant := by
    intro state hstate
    cases Nat.lt_one_iff.mp hstate
    have hrow : (initial g).table.row 0 = [] := Table.holds_empty.row_addRow_self #[]
    rw [arrivals, hrow]
    exact .nil

theorem Thrifty.addRow (h : f.Thrifty g count) {source : Nat} (hcount : count ≠ 0)
    (hsource : f.order.members[count]? = some source) :
    (f.addRow g.nodes source).Thrifty g (count + 1) := by
  have hexplore := Walker.thrifty_explore h.capacity source
  refine ⟨h.rows.addRow hcount hsource, hexplore.capacity, fun state hstate ↦ ?_⟩
  rcases Nat.lt_or_eq_of_le (Nat.le_of_lt_succ hstate) with hlt | rfl
  · rw [h.rows.arrivals_addRow hcount hsource hlt]
    exact h.irredundant state hlt
  · rw [h.rows.arrivals_addRow_self hcount hsource]
    exact hexplore.irredundant

end Folding

/-! ## Counting transitions -/

namespace Nfa

variable {nfa : Nfa α}

/-- Each state leads to another in one way at most, and so there is no more than one transition from each
state but the final one to each but the entry. -/
structure Sparse (nfa : Nfa α) : Prop where
  nodup : ∀ state < nfa.size, (nfa.targets state).Nodup
  transitionCount_le : nfa.transitionCount ≤ (nfa.size - 1) * (nfa.size - 1)

theorem WellFormed.size_pos (h : nfa.WellFormed) : 0 < nfa.size :=
  (Array.getElem?_eq_some_iff.mp h.final).1

theorem WellFormed.mem_transitions (h : nfa.WellFormed) {state : Nat} (hstate : state < nfa.size)
    {t : Transition} (ht : t ∈ nfa.transitions state) : t ∈ nfa.table.transitions := by
  rw [← Array.mem_toList_iff, ← h.table.rows]
  exact List.mem_flatMap.mpr ⟨state, List.mem_range.mpr hstate, ht⟩

/-- Different targets are different states other than the entry. -/
theorem WellFormed.length_transitions_le (h : nfa.WellFormed) {state : Nat} (hstate : state < nfa.size)
    (hnodup : (nfa.targets state).Nodup) : (nfa.transitions state).length ≤ nfa.size - 1 := by
  have hentry : Nfa.entry ∈ List.range nfa.size :=
    List.mem_range.mpr (Array.getElem?_eq_some_iff.mp h.entry).1
  have hsubset : nfa.targets state ⊆ (List.range nfa.size).erase Nfa.entry := by
    intro target htarget
    obtain ⟨t, ht, rfl⟩ := List.mem_map.mp htarget
    have hmem := h.mem_transitions hstate ht
    exact (List.mem_erase_of_ne (h.target_ne t hmem)).mpr (List.mem_range.mpr (h.target_lt t hmem))
  have hlength := hnodup.length_le_of_subset hsubset
  rwa [targets, List.length_map, List.length_erase_of_mem hentry, List.length_range] at hlength

theorem length_flatMap_le {f : Nat → List Transition} {states : List Nat} {bound : Nat}
    (h : ∀ state ∈ states, (f state).length ≤ bound) :
    (states.flatMap f).length ≤ states.length * bound := by
  induction states with
  | nil => exact Nat.zero_le _
  | cons state states ih =>
    obtain ⟨hstate, hstates⟩ := List.forall_mem_cons.mp h
    rw [List.flatMap_cons, List.length_append, List.length_cons, Nat.succ_mul, Nat.add_comm]
    exact Nat.add_le_add (ih hstates) hstate

/-- The final state has no transitions, and no other has more than there are targets. -/
theorem WellFormed.sparse (h : nfa.WellFormed)
    (hnodup : ∀ state < nfa.size, (nfa.targets state).Nodup) : nfa.Sparse := by
  refine ⟨hnodup, ?_⟩
  obtain ⟨count, hcount⟩ := Nat.exists_eq_succ_of_ne_zero (Nat.ne_of_gt h.size_pos)
  have hfinal : nfa.table.row 0 = [] := h.transitions_final
  have hrows := h.table.rows
  rw [hcount, List.range_succ_eq_map, List.flatMap_cons, hfinal, List.nil_append] at hrows
  have hle : ∀ state ∈ (List.range count).map Nat.succ,
      (nfa.table.row state).length ≤ nfa.size - 1 := by
    intro state hstate
    obtain ⟨state, hlt, rfl⟩ := List.mem_map.mp hstate
    have hstate : state + 1 < nfa.size := hcount ▸ Nat.succ_lt_succ (List.mem_range.mp hlt)
    exact h.length_transitions_le hstate (hnodup _ hstate)
  have hlength := length_flatMap_le hle
  rw [hrows, List.length_map, List.length_range, Array.length_toList] at hlength
  rw [hcount] at hlength ⊢
  exact hlength

end Nfa

/-! ## The finished table -/

namespace Graph

variable {g : Graph α}

/-- The transitions of a state are irredundant. -/
theorem irredundant_ways (h : g.Proper) {state : Nat} (hstate : state < (Nfa.ofGraph g).size) :
    Irredundant ((Nfa.ofGraph g).ways state) := by
  obtain ⟨count, hthrifty, hsize⟩ := folding_induction (fun _ _ h ↦ Folding.Thrifty.rows h)
    (fun _ _ _ h hcount hsource ↦ Folding.Thrifty.addRow h hcount hsource)
    (Folding.thrifty_initial h.entry_lt h.entry_ne)
  have hlt : state < g.stateNodes.size := size_ofGraph g ▸ hstate
  have hirredundant := hthrifty.irredundant state (Nat.lt_of_lt_of_le hlt hsize)
  rw [← ways_eq_arrivals] at hirredundant
  exact (List.pairwise_map.mp hirredundant).imp fun hlater heq ↦
    hlater (congrArg (g.stateNodes.getD · 0) heq)

/-- Without assertion nodes there are no assertions on the way. -/
theorem not_conditional_of_unconditional (h : g.Proper) (hfree : g.Unconditional) {state : Nat}
    (hstate : state < (Nfa.ofGraph g).size) :
    ∀ way ∈ (Nfa.ofGraph g).ways state, ¬ Conditional way.2 := by
  rintro way hway ⟨index, hindex⟩
  obtain ⟨t, ht, rfl⟩ := List.mem_map.mp hway
  have hlt : state < g.stateNodes.size := size_ofGraph g ▸ hstate
  obtain ⟨source, kept, hrow⟩ := exists_row_of_lt h.entry_lt h.entry_ne hlt
  obtain ⟨p, hp, harrival⟩ := hrow.exists_path ht
  rw [work_ofGraph, ← harrival] at hindex
  obtain ⟨id, hid, -⟩ := exists_of_mem_map_relabel hindex
  obtain ⟨node, a, hnode, hkind⟩ := exists_of_mem_assertionNodes h (hrow.numbered p hp id hid)
  have hnone := hfree node (Array.mem_of_getElem? hnode)
  rw [hkind] at hnone
  cases hnone

/-- Without assertion nodes no two transitions of a state have one target. -/
theorem sparse_ofGraph (h : g.Proper) (hfree : g.Unconditional) : (Nfa.ofGraph g).Sparse := by
  refine (wellFormed_ofGraph h).sparse fun state hstate ↦ ?_
  have hnodup := (irredundant_ways h hstate).nodup_targets
    (not_conditional_of_unconditional h hfree hstate)
  rwa [Nfa.ways, List.map_map] at hnodup

/-- The transitions of a state to one target differ in their work, and only the last of them may be
without assertions. So a graph without assertions folds into an automaton with at most one transition from
each state to each other. -/
theorem transitions_irredundant [Atom α] :
    (∀ g : Graph α, g.Proper →
      (∀ state < (Nfa.ofGraph g).size, Irredundant ((Nfa.ofGraph g).ways state)) ∧
        (g.Unconditional → (Nfa.ofGraph g).Sparse)) ∧
      ∀ limit (sequence : List (Node α)) nfa, Nfa.compile limit sequence = .ok nfa →
        (∀ state < nfa.size, Irredundant (nfa.ways state)) ∧
          ((∀ node ∈ sequence, node.kind.assertion? = none) → nfa.Sparse) := by
  constructor
  · exact fun g h ↦ ⟨fun state hstate ↦ irredundant_ways h hstate, sparse_ofGraph h⟩
  · intro limit sequence nfa hcompile
    obtain ⟨g, hgraph, rfl⟩ := Nfa.exists_of_compile hcompile
    have h := proper_of_ofPostorder hgraph
    refine ⟨fun state hstate ↦ irredundant_ways h hstate, fun hfree ↦ ?_⟩
    have hsparse := sparse_ofGraph h (unconditional_of_ofPostorder hgraph hfree)
    exact ⟨hsparse.nodup, hsparse.transitionCount_le⟩

/-- A loop through an assertion, the same loop without it, and the expression `((a|b)*)*`. -/
theorem transitions_irredundant_of_loops :
    let loop (kind : Kind Char) : Graph Char := ⟨#[⟨.final, false, false, 0, []⟩,
      ⟨.atom 'a', false, false, 0, [2, 0]⟩, ⟨kind, false, false, 0, [3, 1]⟩,
      ⟨.groupStart, false, true, 1, [2, 1, 0]⟩, ⟨.entry, false, false, 0, [3, 2]⟩], 4, 1⟩
    let sequence : List (Node Char) :=
      [.atom 'a', .atom 'b', .alternate, .zeroOrMore true, .zeroOrMore true]
    ((loop (.assert 'b')).Proper ∧ ∀ state < (Nfa.ofGraph (loop (.assert 'b'))).size,
      Irredundant ((Nfa.ofGraph (loop (.assert 'b'))).ways state)) ∧
    ((loop .empty).Proper ∧ (loop .empty).Unconditional ∧ (Nfa.ofGraph (loop .empty)).Sparse) ∧
    ∃ nfa, Nfa.compile 10 sequence = .ok nfa ∧ (∀ state < nfa.size, Irredundant (nfa.ways state)) ∧
      (∀ node ∈ sequence, node.kind.assertion? = none) ∧ nfa.Sparse := by
  intro loop sequence
  have hfree : ∀ node ∈ sequence, node.kind.assertion? = none := by decide
  obtain ⟨nfa, hcompile⟩ : ∃ nfa, Nfa.compile 10 sequence = .ok nfa := ⟨_, rfl⟩
  obtain ⟨hways, hsparse⟩ := transitions_irredundant.2 10 sequence nfa hcompile
  refine ⟨⟨by decide, (transitions_irredundant.1 _ (by decide)).1⟩, ⟨by decide, by decide, ?_⟩,
    nfa, hcompile, hways, hfree, hsparse hfree⟩
  exact (transitions_irredundant.1 _ (by decide)).2 (by decide)

end Graph

end Lockstep
