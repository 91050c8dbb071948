import Lockstep.Proofs.Nfa.Rows

/-!
# Depth-first search of a graph

The search that the table stands for, on the graph itself: from a node, the paths that leave it are
tried in order. Folding the graph makes no difference to what a search finds, because the paths
that it leaves out end in a node that an earlier path came to in vain.
-/

namespace Lockstep

universe u v w

variable {α : Type u}

namespace Graph

/-- Node 0 is a final node, and the entry is an entry. -/
structure WellFormed (g : Graph α) : Prop where
  final : g.nodes[Graph.final]?.map Node.kind = some .final
  entry : g.nodes[g.entry]?.map Node.kind = some .entry

variable {g : Graph α}

theorem WellFormed.entry_lt (h : g.WellFormed) : g.entry < g.nodes.size := by
  obtain ⟨node, hnode, -⟩ := Option.map_eq_some_iff.mp h.entry
  exact (Array.getElem?_eq_some_iff.mp hnode).1

theorem WellFormed.entry_ne (h : g.WellFormed) : g.entry ≠ Graph.final := by
  intro heq
  have hentry := h.entry
  rw [heq, h.final] at hentry
  cases hentry

/-- A node of another kind is not the final one. -/
theorem ne_final_of_kind {nodes : Array (Node α)} {id : Nat} {node : Node α}
    (hfinal : ∃ node, nodes[final]? = some node ∧ node.kind = .final) (hnode : nodes[id]? = some node)
    (hkind : node.kind ≠ .final) : id ≠ final := by
  rintro rfl
  obtain ⟨fnode, hfnode, hfkind⟩ := hfinal
  cases hnode.symm.trans hfnode
  exact hkind hfkind

theorem getElem?_stateNodes {state : Nat} (h : state < g.stateNodes.size) :
    g.stateNodes[state]? = some (g.stateNodes.getD state 0) := by
  rw [Array.getD_eq_getD_getElem?, Array.getElem?_eq_getElem h, Option.getD_some]

theorem stateNodes_eq_final_iff (h : g.WellFormed) {state : Nat} (hstate : state < g.stateNodes.size) :
    g.stateNodes.getD state 0 = final ↔ state = Nfa.final := by
  have hfinal := stateNodes_final h.entry_lt h.entry_ne
  have hgetD : g.stateNodes.getD Nfa.final 0 = final := by
    rw [Array.getD_eq_getD_getElem?, hfinal, Option.getD_some]
  constructor
  · exact fun heq ↦ stateNodes_injective hstate (Array.getElem?_eq_some_iff.mp hfinal).1
      (heq.trans hgetD.symm)
  · rintro rfl
    exact hgetD

variable [Atom α]

/-- Whether the assertion that a node is holds at a boundary. -/
def holdsAt (nodes : Array (Node α)) (b : Boundary) (id : Nat) : Bool :=
  (nodes[id]?.bind fun node ↦ node.kind.assertion?).all (Atom.check · b.prev b.next)

/-- The assertions passed hold if they hold node by node. -/
theorem allows_passedWork (nodes : Array (Node α)) (b : Boundary) (ids : List Nat) :
    allows (holdsAt nodes b) (passedWork nodes ids) = ids.all (holdsAt nodes b) := by
  induction ids with
  | nil => rfl
  | cons id ids ih =>
    rw [List.all_cons, ← ih]
    cases hnode : nodes[id]? with
    | none => simp [passedWork, holdsAt, hnode]
    | some node =>
      rw [passedWork_cons hnode, allows_append]
      congr 1
      obtain ⟨kind, greedy, capturing, group, out⟩ := node
      cases kind <;> cases capturing <;>
        simp [ZeroWidth.ofNode?, allows, holdsAt, hnode, Kind.assertion?]

/-- Whether a node may be entered before `next`. -/
def admits (nodes : Array (Node α)) (id : Nat) (next : Option Char) : Bool :=
  id == final ||
    match nodes[id]?.map Node.kind, next with
    | some (.atom a), some c => Atom.accepts a c
    | _, _ => false

/-- Depth-first search for the final node: where the first match stops, and the marks on the way
there. -/
def search (g : Graph α) : Ahead → Nat → Option (Ahead × List Mark)
  | [], _ => none
  | b :: rest, source =>
    (g.paths source).findSome? fun p ↦
      if allows (holdsAt g.nodes b) (p.work g.nodes) && admits g.nodes p.target b.next then
        (if p.target = final then some (b :: rest, []) else g.search rest p.target).map
          fun r ↦ (r.1, marksAt b.offset (p.work g.nodes) ++ r.2)
      else none

/-- What the search finds behind a node. -/
def beyond (g : Graph α) (b : Boundary) (rest : Ahead) (target : Nat) :
    Option (Ahead × List Mark) :=
  if admits g.nodes target b.next then
    if target = final then some (b :: rest, []) else g.search rest target
  else none

/-- What is found after group boundaries at `b`, and their marks before. -/
def precede (b : Boundary) (passed : List (Side × Nat)) (r : Ahead × List Mark) :
    Ahead × List Mark :=
  (r.1, passed.map (fun m ↦ ⟨m.1, m.2, b.offset⟩) ++ r.2)

variable {b : Boundary} {rest : Ahead}

theorem findSome?_congr {β γ : Type u} {f f' : β → Option γ} {l : List β} (h : ∀ x ∈ l, f x = f' x) :
    l.findSome? f = l.findSome? f' := by
  induction l with
  | nil => rfl
  | cons x l ih =>
    rw [List.findSome?_cons, List.findSome?_cons, h x List.mem_cons_self,
      ih fun y hy ↦ h y (List.mem_cons_of_mem _ hy)]

theorem findSome?_taken {γ : Type u} (truth : Nat → Bool) (f : Nat → List (Side × Nat) → Option γ)
    (ways : List (Nat × List ZeroWidth)) :
    (taken truth ways).findSome? (fun way ↦ f way.1 way.2) =
      ways.findSome? fun way ↦ if allows truth way.2 then f way.1 (markers way.2) else none := by
  induction ways with
  | nil => rfl
  | cons way ways ih =>
    rw [List.findSome?_cons, ← ih, taken_cons]
    by_cases h : allows truth way.2 = true
    · rw [if_pos h, if_pos h, List.findSome?_cons]
    · rw [if_neg h, if_neg h]

/-- Only the first way to each target counts in a search of what is behind the targets. -/
theorem findSome?_ways (truth : Nat → Bool) (b : Boundary)
    (behind : Nat → Option (Ahead × List Mark)) (ways : List (Nat × List ZeroWidth)) :
    (firstPerTarget (taken truth ways)).findSome?
        (fun way ↦ (behind way.1).map (precede b way.2)) =
      ways.findSome? fun way ↦
        if allows truth way.2 then (behind way.1).map (precede b (markers way.2)) else none := by
  let f : Nat → List (Side × Nat) → Option (Ahead × List Mark) := fun target passed ↦
    (behind target).map (precede b passed)
  have hf (target : Nat) (passed passed' : List (Side × Nat)) (h : f target passed = none) :
      f target passed' = none := by
    rw [Option.map_eq_none_iff] at h ⊢
    exact h
  exact (findSome?_firstPerTarget f _ hf).trans (findSome?_taken truth f ways)

/-- A search tries one path after the other. -/
theorem search_cons (g : Graph α) (b : Boundary) (rest : Ahead) (source : Nat) :
    g.search (b :: rest) source = (g.paths source).findSome? fun p ↦
      if allows (holdsAt g.nodes b) (p.work g.nodes) then
        (g.beyond b rest p.target).map (precede b (markers (p.work g.nodes)))
      else none := by
  rw [search]
  apply congrArg (List.findSome? · _)
  funext p
  unfold beyond
  by_cases h : allows (holdsAt g.nodes b) (p.work g.nodes) = true
  · by_cases hadmits : admits g.nodes p.target b.next = true
    · rw [h, hadmits]
      rfl
    · simp [h, hadmits]
  · simp [h]

/-- Only the first path to each target counts. -/
theorem search_eq_findSome?_firstPerTarget (g : Graph α) (b : Boundary) (rest : Ahead)
    (source : Nat) : g.search (b :: rest) source =
      (firstPerTarget (taken (holdsAt g.nodes b)
        ((g.paths source).map (Path.outline g.nodes)))).findSome?
          fun way ↦ (g.beyond b rest way.1).map (precede b way.2) := by
  rw [search_cons, findSome?_ways _ b (g.beyond b rest), List.findSome?_map]
  rfl

/-! ## The search of the table -/

/-- What the search of a table finds behind a state. -/
def statesBeyond (nfa : Nfa α) (b : Boundary) (rest : Ahead) (target : Nat) :
    Option (Ahead × List Mark) :=
  if nfa.admits target b.next then nfa.beyond b rest target else none

theorem getElem?_filterMap_of_isSome {β : Type v} {γ : Type w} {f : β → Option γ} {l : List β}
    (h : ∀ x ∈ l, (f x).isSome) (i : Nat) : (l.filterMap f)[i]? = l[i]?.bind f := by
  induction l generalizing i with
  | nil => rfl
  | cons x l ih =>
    obtain ⟨y, hy⟩ := Option.isSome_iff_exists.mp (h x List.mem_cons_self)
    rw [List.filterMap_cons_some hy]
    cases i with
    | zero => exact hy.symm
    | succ i => exact ih (fun x' hx' ↦ h x' (List.mem_cons_of_mem _ hx')) i

/-- The assertion that has a number is that of its node. -/
theorem all_assertions_ofGraph (h : g.WellFormed) (b : Boundary) (i : Nat) :
    ((Nfa.ofGraph g).assertions[i]?).all (Atom.check · b.prev b.next) =
      holdsAt g.nodes b (g.assertionNodes.getD i 0) := by
  obtain ⟨count, hrows, -⟩ := exists_rows_folding h.entry_lt h.entry_ne
  let f : Nat → Option α := fun id ↦ g.nodes[id]?.bind fun node ↦ node.kind.assertion?
  have hsome : ∀ id ∈ g.assertionNodes.toList, (f id).isSome := by
    intro id hid
    obtain ⟨node, a, hnode, hkind⟩ := hrows.idle.asserting id hid
    simp [f, hnode, hkind, Kind.assertion?]
  have hget : (Nfa.ofGraph g).assertions[i]? = g.assertionNodes[i]?.bind f := by
    have htoList : (Nfa.ofGraph g).assertions.toList = g.assertionNodes.toList.filterMap f :=
      Array.toList_filterMap
    rw [← Array.getElem?_toList, htoList, getElem?_filterMap_of_isSome hsome, Array.getElem?_toList]
  rw [hget, holdsAt, Array.getD_eq_getD_getElem?]
  cases g.assertionNodes[i]? with
  | some id => rfl
  | none =>
    -- no number stands for no node; the final node, which takes its place, is no assertion
    obtain ⟨node, hnode, hkind⟩ := Option.map_eq_some_iff.mp h.final
    simp [hnode, hkind, Kind.assertion?]

/-- A state admits a character if its node does. -/
theorem admits_ofGraph (h : g.WellFormed) {state : Nat} (hstate : state < g.stateNodes.size)
    (next : Option Char) :
    (Nfa.ofGraph g).admits state next = admits g.nodes (g.stateNodes.getD state 0) next := by
  have hbeq : (state == Nfa.final) = (g.stateNodes.getD state 0 == final) := by
    rw [Bool.eq_iff_iff, beq_iff_eq, beq_iff_eq, stateNodes_eq_final_iff h hstate]
  have hget : (Nfa.ofGraph g).states[state]? =
      some (g.nodes[g.stateNodes.getD state 0]?.elim .entry fun n ↦ State.ofKind n.kind) := by
    rw [states_ofGraph, Array.getElem?_map, getElem?_stateNodes hstate, Option.map_some]
  unfold Nfa.admits admits
  rw [hbeq, hget]
  cases g.nodes[g.stateNodes.getD state 0]? with
  | none => rfl
  | some node =>
    obtain ⟨kind, greedy, capturing, group, out⟩ := node
    cases kind <;> cases next <;> rfl

/-- The search of a table tries one transition after the other. -/
theorem search_eq_findSome?_ways (h : g.WellFormed) (b : Boundary) (rest : Ahead) (state : Nat) :
    (Nfa.ofGraph g).search (b :: rest) state = ((Nfa.ofGraph g).ways state).findSome? fun way ↦
      if allows (fun i ↦ holdsAt g.nodes b (g.assertionNodes.getD i 0)) way.2 then
        (statesBeyond (Nfa.ofGraph g) b rest way.1).map (precede b (markers way.2))
      else none := by
  rw [Nfa.search_cons, Nfa.ways, List.findSome?_map]
  apply congrArg (List.findSome? · _)
  funext t
  have hholds : (Nfa.ofGraph g).holds ((Nfa.ofGraph g).work t) b.prev b.next =
      allows (fun i ↦ holdsAt g.nodes b (g.assertionNodes.getD i 0)) ((Nfa.ofGraph g).work t) := by
    rw [← funext (all_assertions_ofGraph h b)]
    rfl
  simp only [Function.comp_apply, Nfa.along, Nfa.enabled, hholds, statesBeyond]
  cases (Nfa.ofGraph g).admits t.target b.next with
  | false => simp
  | true =>
    rw [Bool.true_and, if_pos rfl]
    rfl

/-- The search of the table finds what the search of the graph finds. -/
theorem search_ofGraph (h : g.WellFormed) {bs : Ahead} {state source : Nat}
    (hsource : g.stateNodes[state]? = some source) :
    (Nfa.ofGraph g).search bs state = g.search bs source := by
  induction bs generalizing state source with
  | nil => rfl
  | cons b rest ih =>
    obtain ⟨kept, hrow⟩ := exists_row_folding h.entry_lt h.entry_ne hsource
    rw [search_eq_findSome?_ways h, ← findSome?_ways, search_eq_findSome?_firstPerTarget,
      ← firstPerTarget_row hrow, List.findSome?_map]
    refine findSome?_congr fun way hway ↦ ?_
    have hlt := lt_of_mem_taken_ways hrow (mem_of_mem_firstPerTarget hway)
    simp only [Function.comp_apply, statesBeyond, beyond, admits_ofGraph h hlt, Nfa.beyond,
      ih (getElem?_stateNodes hlt), stateNodes_eq_final_iff h hlt]

end Graph

end Lockstep
