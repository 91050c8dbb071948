import Mathlib.Data.List.Basic
import Lockstep.Proofs.Graph.Backtrack
import Lockstep.Proofs.Graph.Run

/-!
# Searches in a part of a graph

What a search finds from a node is decided by the nodes that edges lead to from there, and by what
they do: how a node that only leads on is called makes no difference. So two graphs with a part in
common that no edge leaves search alike in it.
-/

namespace Lockstep

universe u

variable {α : Type u}

namespace Graph

/-- The edges of the nodes below `hi` lead to nodes below `hi`. -/
def Closed (nodes : Array (Node α)) (hi : Nat) : Prop :=
  ∀ id < hi, ∀ node, nodes[id]? = some node → ∀ next ∈ node.out, next < hi

/-- A node with its name left out, if it only leads on. -/
def nameless (node : Node α) : Node α :=
  match node.kind with
  | .atom _ | .assert _ | .groupStart | .groupEnd | .final => node
  | _ => { Node.empty with out := node.out }

@[simp] theorem out_nameless (node : Node α) : (nameless node).out = node.out := by
  unfold nameless
  split <;> rfl

@[simp] theorem isConsuming_nameless (node : Node α) :
    (nameless node).isConsuming = node.isConsuming := by
  obtain ⟨kind, greedy, capturing, group, out⟩ := node
  cases kind <;> rfl

@[simp] theorem assertion?_nameless (node : Node α) :
    (nameless node).kind.assertion? = node.kind.assertion? := by
  obtain ⟨kind, greedy, capturing, group, out⟩ := node
  cases kind <;> rfl

@[simp] theorem ofNode?_nameless (node : Node α) (id : Nat) :
    ZeroWidth.ofNode? (nameless node) id = ZeroWidth.ofNode? node id := by
  obtain ⟨kind, greedy, capturing, group, out⟩ := node
  cases kind <;> rfl

@[simp] theorem kind_nameless_eq_atom {node : Node α} {a : α} :
    (nameless node).kind = .atom a ↔ node.kind = .atom a := by
  obtain ⟨kind, greedy, capturing, group, out⟩ := node
  cases kind <;> simp [nameless, Node.empty]

/-- The nodes below `hi` are the same but for their names, and no edge leaves them. -/
structure Shares (nodes nodes' : Array (Node α)) (hi : Nat) : Prop where
  same : ∀ id < hi, nodes'[id]?.map nameless = nodes[id]?.map nameless
  closed : Closed nodes hi

namespace Shares

variable {nodes nodes' : Array (Node α)} {avoid via : List Nat} {hi id target : Nat}

/-- A node consumes and leads on as the node with its number does. -/
theorem exists_node (h : Shares nodes nodes' hi) (hid : id < hi) {node : Node α}
    (hnode : nodes[id]? = some node) : ∃ node', nodes'[id]? = some node' ∧
      node'.isConsuming = node.isConsuming ∧ node'.out = node.out := by
  have hsame := h.same id hid
  rw [hnode, Option.map_some] at hsame
  obtain ⟨node', hnode', heq⟩ := Option.map_eq_some_iff.mp hsame
  refine ⟨node', hnode', ?_, ?_⟩
  · rw [← isConsuming_nameless, heq, isConsuming_nameless]
  · rw [← out_nameless, heq, out_nameless]

theorem getElem?_eq_none (h : Shares nodes nodes' hi) (hid : id < hi) (hnode : nodes[id]? = none) :
    nodes'[id]? = none := by
  have hsame := h.same id hid
  rw [hnode] at hsame
  exact Option.map_eq_none_iff.mp hsame

theorem pathsFrom_eq (h : Shares nodes nodes' hi) (hid : id < hi) :
    pathsFrom nodes' avoid id = pathsFrom nodes avoid id := by
  fun_induction pathsFrom nodes avoid id with
  | case1 avoid id hnode => exact pathsFrom_of_none (h.getElem?_eq_none hid hnode)
  | case2 avoid id node hnode hcons =>
    obtain ⟨node', hnode', hcons', -⟩ := h.exists_node hid hnode
    exact pathsFrom_of_consuming hnode' (hcons'.trans hcons)
  | case3 avoid id node hnode hcons hmem =>
    obtain ⟨node', hnode', hcons', -⟩ := h.exists_node hid hnode
    exact pathsFrom_of_mem hnode' (hcons'.trans (by simpa using hcons)) hmem
  | case4 avoid id node hnode hcons hnew ih =>
    obtain ⟨node', hnode', hcons', hout⟩ := h.exists_node hid hnode
    rw [pathsFrom_of_notMem hnode' (hcons'.trans (by simpa using hcons)) hnew, hout]
    exact List.flatMap_congr fun next hnext ↦ ih next (h.closed id hid node hnode next hnext)

theorem passedWork_eq (h : Shares nodes nodes' hi) {ids : List Nat} (hids : ∀ id ∈ ids, id < hi) :
    passedWork nodes' ids = passedWork nodes ids := by
  refine List.filterMap_congr fun id hid ↦ ?_
  have hbind : ∀ nodes : Array (Node α), nodes[id]?.bind (ZeroWidth.ofNode? · id) =
      (nodes[id]?.map nameless).bind (ZeroWidth.ofNode? · id) := fun nodes ↦ by
    cases nodes[id]? with
    | none => rfl
    | some node => exact (ofNode?_nameless node id).symm
  rw [hbind, hbind, h.same id (hids id hid)]

/-- Paths stay in a part that no edge leaves. -/
theorem lt_of_leads (h : Shares nodes nodes' hi) (hleads : Leads nodes avoid id via target)
    (hid : id < hi) : (∀ x ∈ via, x < hi) ∧ target < hi := by
  induction hleads with
  | arrive => exact ⟨fun x hx ↦ absurd hx List.not_mem_nil, hid⟩
  | pass hnode hcons hnew hnext hrest ih =>
    obtain ⟨hvia, htarget⟩ := ih (h.closed _ hid _ hnode _ hnext)
    exact ⟨List.forall_mem_cons.mpr ⟨hid, hvia⟩, htarget⟩

variable [Atom α] {b : Boundary} {rest : Ahead}

theorem holdsAt_eq (h : Shares nodes nodes' hi) (hid : id < hi) (b : Boundary) :
    holdsAt nodes' b id = holdsAt nodes b id := by
  have hbind : ∀ nodes : Array (Node α), (nodes[id]?.bind fun node ↦ node.kind.assertion?) =
      (nodes[id]?.map nameless).bind fun node ↦ node.kind.assertion? := fun nodes ↦ by
    cases nodes[id]? with
    | none => rfl
    | some node => exact (assertion?_nameless node).symm
  rw [holdsAt, holdsAt, hbind, hbind, h.same id hid]

theorem admits_eq (h : Shares nodes nodes' hi) (hid : id < hi) (next : Option Char) :
    admits nodes' id next = admits nodes id next := by
  have hiff : ∀ nodes : Array (Node α), admits nodes id next = true ↔
      id = final ∨ ∃ node a c, nodes[id]?.map nameless = some node ∧ node.kind = .atom a ∧
        next = some c ∧ Atom.accepts a c = true := fun nodes ↦ by
    simp [admits_eq_true_iff]
  rw [Bool.eq_iff_iff, hiff, hiff, h.same id hid]

variable {g g' : Graph α}

/-- What is found along a path in a common part is the same, if searches from there find the same. -/
theorem alongPath_eq (h : Shares g.nodes g'.nodes hi)
    (hsearch : ∀ id < hi, g'.search rest id = g.search rest id) (hid : id < hi) :
    ∀ p ∈ pathsFrom g.nodes [] id, g'.alongPath b rest p = g.alongPath b rest p := by
  intro p hp
  obtain ⟨via, hleads, hpassed⟩ := mem_pathsFrom.mp hp
  obtain ⟨hvia, htarget⟩ := h.lt_of_leads hleads hid
  have hwork : p.work g'.nodes = p.work g.nodes := by
    rw [Path.work, Path.work, hpassed]
    exact h.passedWork_eq hvia
  have hallows : allows (holdsAt g'.nodes b) (p.work g'.nodes) =
      allows (holdsAt g.nodes b) (p.work g.nodes) := by
    rw [Path.work, Path.work, hpassed, allows_passedWork, allows_passedWork, Bool.eq_iff_iff,
      List.all_eq_true, List.all_eq_true]
    exact forall₂_congr fun x hx ↦ by rw [h.holdsAt_eq (hvia x hx)]
  have hbeyond : g'.beyond b rest p.target = g.beyond b rest p.target := by
    rw [beyond, beyond, h.admits_eq htarget, hsearch p.target htarget]
  rw [alongPath, alongPath, hallows, hwork, hbeyond]

/-- Paths into a common part lead to the same, if searches from there find the same. -/
theorem findSome?_eq (h : Shares g.nodes g'.nodes hi)
    (hsearch : ∀ id < hi, g'.search rest id = g.search rest id) {ids : List Nat}
    (hids : ∀ id ∈ ids, id < hi) :
    (ids.flatMap (pathsFrom g'.nodes [])).findSome? (g'.alongPath b rest) =
      (ids.flatMap (pathsFrom g.nodes [])).findSome? (g.alongPath b rest) := by
  rw [List.flatMap_congr fun id hid ↦ h.pathsFrom_eq (hids id hid)]
  refine findSome?_congr fun p hp ↦ ?_
  obtain ⟨id, hid, hp⟩ := List.mem_flatMap.mp hp
  exact h.alongPath_eq hsearch (hids id hid) p hp

/-- Two graphs search alike in a common part. -/
theorem search_eq (h : Shares g.nodes g'.nodes hi) (hid : id < hi) (bs : Ahead) :
    g'.search bs id = g.search bs id := by
  induction bs generalizing id with
  | nil => rfl
  | cons b rest ih =>
    by_cases hfinal : id = final
    · rw [search_cons, search_cons, paths, paths, if_pos hfinal, if_pos hfinal]
      rfl
    cases hnode : g.nodes[id]? with
    | none =>
      rw [search_cons, search_cons, paths, paths, hnode, h.getElem?_eq_none hid hnode]
      simp
    | some node =>
      obtain ⟨node', hnode', -, hout⟩ := h.exists_node hid hnode
      rw [search_of_ne_final hfinal hnode, search_of_ne_final hfinal hnode', hout]
      exact h.findSome?_eq (fun _ hid ↦ ih hid) (h.closed id hid node hnode)

theorem beyond_eq (h : Shares g.nodes g'.nodes hi) (hid : id < hi) :
    g'.beyond b rest id = g.beyond b rest id := by
  rw [beyond, beyond, h.admits_eq hid, h.search_eq hid]

end Shares

end Graph

end Lockstep
