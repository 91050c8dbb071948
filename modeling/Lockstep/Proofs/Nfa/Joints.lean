import Lockstep.Proofs.Closure.Joints
import Lockstep.Proofs.Graph.Search

/-!
# Folding without joints

A graph and the graph without its joints fold to one and the same automaton. The states are discovered
in the same order under other names, so the tables are equal, with the same work and with assertions
numbered alike.
-/

namespace Lockstep

universe u v

variable {α : Type u} {nodes' nodes : Array (Node α)} {name? : Nat → Option Nat}
  {image : Nat → List Nat}

/-! ## Rows -/

/-- Two rows under construction are the same but for the names of the states' nodes. -/
structure RowBuilder.InStep (nodes' nodes : Array (Node α)) (name? : Nat → Option Nat)
    (r' r : RowBuilder) : Prop where
  order : r'.order.Renames name? r.order
  capacity' : r'.order.capacity = nodes'.size
  capacity : r.order.capacity = nodes.size
  closures : r'.closures = r.closures
  transitions : r'.transitions = r.transitions

namespace RowBuilder.InStep

variable {r' r : RowBuilder} {arrivals' arrivals : List Arrival}

/-- One arrival adds the same transition to both. -/
theorem add (h : InStep nodes' nodes name? r' r) (hjoints : Jointed nodes' nodes name? image)
    {id name : Nat} (hname : name? id = some name) (hid : id < nodes'.size) (work : List ZeroWidth) :
    InStep nodes' nodes name? (r'.add ⟨id, work⟩) (r.add ⟨name, work⟩) := by
  obtain ⟨order', closures, transitions⟩ := r'
  obtain ⟨order, closures₂, transitions₂⟩ := r
  obtain ⟨horder, hcapacity', hcapacity, rfl, rfl⟩ := h
  have hinsert := horder.insert hjoints.naming hname (hcapacity'.symm ▸ hid)
    (hcapacity.symm ▸ hjoints.name_lt hname hid)
  have hposition := hinsert.position?_eq hjoints.naming hname
  have hcapacity' := (order'.capacity_insert id).trans hcapacity'
  have hcapacity := (order.capacity_insert name).trans hcapacity
  cases work with
  | nil => exact ⟨hinsert, hcapacity', hcapacity, rfl, by simp only [RowBuilder.add, hposition]⟩
  | cons op work =>
    exact ⟨hinsert, hcapacity', hcapacity, rfl, by simp only [RowBuilder.add, hposition]⟩

theorem foldl_add (h : InStep nodes' nodes name? r' r) (hjoints : Jointed nodes' nodes name? image)
    (harrivals : arrivals'.map (fun a ↦ (name? a.target, a.work)) =
      arrivals.map fun a ↦ (some a.target, a.work))
    (hlt : ∀ a ∈ arrivals', a.target < nodes'.size) :
    InStep nodes' nodes name? (arrivals'.foldl RowBuilder.add r')
      (arrivals.foldl RowBuilder.add r) := by
  induction arrivals' generalizing arrivals r' r with
  | nil =>
    cases List.map_eq_nil_iff.mp harrivals.symm
    exact h
  | cons a' arrivals' ih =>
    cases arrivals with
    | nil => cases harrivals
    | cons a arrivals =>
      obtain ⟨target', work'⟩ := a'
      obtain ⟨target, work⟩ := a
      rw [List.map_cons, List.map_cons] at harrivals
      obtain ⟨hfirst, hrest⟩ := List.cons.inj harrivals
      obtain ⟨hname, rfl⟩ := Prod.mk.inj hfirst
      have hlt' : target' < nodes'.size := hlt _ List.mem_cons_self
      rw [List.foldl_cons, List.foldl_cons]
      exact ih (h.add hjoints hname hlt' _) hrest fun a ha ↦ hlt a (List.mem_cons_of_mem _ ha)

end RowBuilder.InStep

/-! ## Foldings -/

/-- Two automata under construction are the same but for the names of the states' nodes. -/
structure Folding.InStep (nodes' nodes : Array (Node α)) (name? : Nat → Option Nat)
    (image : Nat → List Nat) (f' f : Folding) : Prop where
  order : f'.order.Renames name? f.order
  capacity' : f'.order.capacity = nodes'.size
  capacity : f.order.capacity = nodes.size
  closures : f'.closures = f.closures
  table : f'.table = f.table
  walker : Lockstep.InStep nodes' nodes name? image [] f'.walker f.walker
  states : ∀ id ∈ f'.order.toList, ∃ node, nodes'[id]? = some node ∧ node.kind ≠ .alternate

namespace Folding.InStep

variable {f' f : Folding} {id name : Nat}

theorem mem_foldl_add {arrivals : List Arrival} {r : RowBuilder}
    (h : id ∈ (arrivals.foldl RowBuilder.add r).order.toList) :
    id ∈ r.order.toList ∨ ∃ a ∈ arrivals, a.target = id := by
  induction arrivals generalizing r with
  | nil => exact .inl h
  | cons a arrivals ih =>
    rcases ih h with hid | ⟨a', ha', htarget⟩
    · obtain ⟨order, closures, transitions⟩ := r
      obtain ⟨target, work⟩ := a
      have hinsert : id ∈ (order.insert target).2.toList := by cases work <;> exact hid
      rcases SparseSet.mem_toList_insert hinsert with hid | rfl
      · exact .inl hid
      · exact .inr ⟨_, List.mem_cons_self, rfl⟩
    · exact .inr ⟨a', List.mem_cons_of_mem _ ha', htarget⟩

/-- The rows of a node and of its name are the same. -/
theorem addRow (h : InStep nodes' nodes name? image f' f) (hjoints : Jointed nodes' nodes name? image)
    (hid : id ∈ f'.order.toList) (hname : name? id = some name) :
    InStep nodes' nodes name? image (f'.addRow nodes' id) (f.addRow nodes name) := by
  obtain ⟨node, hnode, hkind⟩ := h.states id hid
  obtain ⟨order', closures, table, walker'⟩ := f'
  obtain ⟨order, closures₂, table₂, walker⟩ := f
  obtain ⟨horder, hcapacity', hcapacity, rfl, rfl, hwalker, hstates⟩ := h
  have hexplore := hwalker.explore hjoints hname hnode hkind
  have hstart : RowBuilder.InStep nodes' nodes name? ⟨order', closures, #[]⟩ ⟨order, closures, #[]⟩ :=
    ⟨horder, hcapacity', hcapacity, rfl, rfl⟩
  have hrow := hstart.foldl_add hjoints hexplore.reached fun a ha ↦ by
    obtain ⟨node', hnode', -⟩ := hexplore.consuming a ha
    exact (Array.getElem?_eq_some_iff.mp hnode').1
  rw [Array.foldl_toList, Array.foldl_toList] at hrow
  refine ⟨hrow.order, hrow.capacity', hrow.capacity, hrow.closures, ?_, hexplore, fun id' hid' ↦ ?_⟩
  · exact congrArg table.addRow hrow.transitions
  · rw [Folding.addRow, ← Array.foldl_toList] at hid'
    rcases mem_foldl_add hid' with hid' | ⟨a, ha, rfl⟩
    · exact hstates id' hid'
    · obtain ⟨node', hnode', hcons⟩ := hexplore.consuming a ha
      refine ⟨node', hnode', fun hkind' ↦ ?_⟩
      rw [Node.isConsuming, hkind'] at hcons
      cases hcons

/-- When all states have their rows, more rounds add none. -/
theorem addRows_of_size_le {nodes : Array (Node α)} {f : Folding} {state : Nat}
    (h : f.order.size ≤ state) (rounds : Nat) : f.addRows nodes rounds state = f := by
  cases rounds with
  | zero => rfl
  | succ rounds => rw [Folding.addRows, Array.getElem?_eq_none h]

theorem size_eq (h : InStep nodes' nodes name? image f' f) : f.order.size = f'.order.size := by
  have hlength := congrArg List.length h.order
  rw [List.length_map, List.length_map, SparseSet.length_toList, SparseSet.length_toList] at hlength
  exact hlength.symm

/-- The same states are there in both. -/
theorem exists_member (h : InStep nodes' nodes name? image f' f) {state : Nat}
    (hstate : state < f'.order.size) : ∃ id name, f'.order.members[state]? = some id ∧
      f.order.members[state]? = some name ∧ name? id = some name := by
  have hmember' : f'.order.members[state]? = some _ := Array.getElem?_eq_getElem hstate
  have hstate' : state < f.order.size := h.size_eq.symm ▸ hstate
  have hmember : f.order.members[state]? = some _ := Array.getElem?_eq_getElem hstate'
  have hget := congrArg (·[state]?) h.order
  simp only [List.getElem?_map, SparseSet.toList, Array.getElem?_toList, hmember', hmember,
    Option.map_some] at hget
  exact ⟨_, _, hmember', hmember, Option.some.inj hget⟩

theorem addRows (h : InStep nodes' nodes name? image f' f) (hjoints : Jointed nodes' nodes name? image)
    {rounds' rounds state : Nat} (hrounds' : nodes'.size ≤ state + rounds')
    (hrounds : nodes.size ≤ state + rounds) :
    InStep nodes' nodes name? image (f'.addRows nodes' rounds' state)
      (f.addRows nodes rounds state) := by
  induction rounds' generalizing rounds state f' f with
  | zero =>
    have hle : f'.order.size ≤ state :=
      Nat.le_trans f'.order.size_le_capacity (h.capacity'.symm ▸ hrounds')
    rwa [addRows_of_size_le hle, addRows_of_size_le (h.size_eq ▸ hle)]
  | succ rounds' ih =>
    by_cases hle : f'.order.size ≤ state
    · rwa [addRows_of_size_le hle, addRows_of_size_le (h.size_eq ▸ hle)]
    · obtain ⟨id, name, hid, hmember, hname⟩ := h.exists_member (Nat.not_le.mp hle)
      have hmem : id ∈ f'.order.toList := Array.mem_toList_iff.mpr (Array.mem_of_getElem? hid)
      cases rounds with
      | zero =>
        have hsize := Nat.le_trans f.order.size_le_capacity (h.capacity.symm ▸ hrounds)
        exact absurd (h.size_eq ▸ hsize) hle
      | succ rounds =>
        rw [Folding.addRows, Folding.addRows, hid, hmember]
        exact ih (h.addRow hjoints hmem hname) (by omega) (by omega)

end Folding.InStep

/-! ## Automata -/

/-- What is told of nodes is told alike of their names. -/
theorem map_eq_of_names {β : Type v} {ids names : List Nat} (h : ids.map name? = names.map some)
    {f' f : Nat → β} (hf : ∀ id ∈ ids, ∀ name, name? id = some name → f' id = f name) :
    ids.map f' = names.map f := by
  induction ids generalizing names with
  | nil =>
    cases List.map_eq_nil_iff.mp h.symm
    rfl
  | cons id ids ih =>
    cases names with
    | nil => cases h
    | cons name names =>
      rw [List.map_cons, List.map_cons] at h
      obtain ⟨hname, hrest⟩ := List.cons.inj h
      rw [List.map_cons, List.map_cons, hf id List.mem_cons_self name hname,
        ih hrest fun id' hid' ↦ hf id' (List.mem_cons_of_mem _ hid')]

namespace Graph

variable {g' g : Graph α}

/-- Folding begins with the final node and the entry. -/
theorem inStep_initial (hjoints : Jointed g'.nodes g.nodes name? image) (hwf : g'.WellFormed)
    (hfinal : name? final = some final) (hentry : name? g'.entry = some g.entry) :
    Folding.InStep g'.nodes g.nodes name? image (Folding.initial g') (Folding.initial g) := by
  obtain ⟨fnode, hfnode, hfkind⟩ := Option.map_eq_some_iff.mp hwf.final
  obtain ⟨enode, henode, hekind⟩ := Option.map_eq_some_iff.mp hwf.entry
  have hflt := (Array.getElem?_eq_some_iff.mp hfnode).1
  have hempty : (SparseSet.ofCapacity g'.nodes.size).Renames name? (.ofCapacity g.nodes.size) := rfl
  have hfirst := hempty.insert hjoints.naming hfinal (by simpa using hflt)
    (by simpa using hjoints.name_lt hfinal hflt)
  have hboth := hfirst.insert hjoints.naming hentry (by simpa using hwf.entry_lt)
    (by simpa using hjoints.name_lt hentry hwf.entry_lt)
  refine ⟨hboth, by simp [Folding.initial], by simp [Folding.initial], rfl, rfl,
    .ofCount _ _ _ _, fun id hid ↦ ?_⟩
  rcases SparseSet.mem_toList_insert hid with hid | rfl
  · rcases SparseSet.mem_toList_insert hid with hid | rfl
    · cases hid
    · exact ⟨fnode, hfnode, by simp [hfkind]⟩
  · exact ⟨enode, henode, by simp [hekind]⟩

/-- A graph folds to the same automaton as the graph without its joints. -/
theorem ofGraph_eq_of_jointed (hjoints : Jointed g'.nodes g.nodes name? image) (hwf : g'.WellFormed)
    (hfinal : name? final = some final) (hentry : name? g'.entry = some g.entry)
    (hgroups : g'.groups = g.groups) : Nfa.ofGraph g' = Nfa.ofGraph g := by
  have hfold : Folding.InStep g'.nodes g.nodes name? image g'.folding g.folding :=
    (inStep_initial hjoints hwf hfinal hentry).addRows hjoints (by omega) (by omega)
  have hstates : (Nfa.ofGraph g').states = (Nfa.ofGraph g).states := by
    apply Array.toList_inj.mp
    simp only [Nfa.ofGraph, Array.toList_map]
    refine map_eq_of_names hfold.order fun id hid name hname ↦ ?_
    obtain ⟨node, hnode, -⟩ := hfold.states id hid
    rw [hnode, hjoints.stays hnode hname]
    rfl
  have hassertions : (Nfa.ofGraph g').assertions = (Nfa.ofGraph g).assertions := by
    apply Array.toList_inj.mp
    simp only [Nfa.ofGraph, Folding.assertions, Array.toList_filterMap]
    let atomOf? : Array (Node α) → Nat → Option α := fun nodes id ↦
      nodes[id]?.bind fun n ↦ n.kind.assertion?
    have hatoms : g'.folding.walker.assertions.toList.map (atomOf? g'.nodes) =
        g.folding.walker.assertions.toList.map (atomOf? g.nodes) := by
      refine map_eq_of_names hfold.walker.assertions fun id hid name hname ↦ ?_
      have hlt : id < g'.nodes.size := hfold.walker.capacity'.2 ▸ SparseSet.lt_capacity hid
      have hnode := Array.getElem?_eq_getElem hlt
      simp only [atomOf?, hnode, hjoints.stays hnode hname]
      rfl
    have hfiltered := congrArg (List.filterMap id) hatoms
    rwa [List.filterMap_map, List.filterMap_map, Function.id_comp, Function.id_comp] at hfiltered
  simp only [Nfa.ofGraph, Nfa.mk.injEq]
  exact ⟨hstates, hfold.table, hfold.closures, hassertions, hgroups, trivial⟩

end Graph

end Lockstep
