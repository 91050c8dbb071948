import Lockstep.Proofs.Graph.Region
import Lockstep.Proofs.Pattern.Wired

/-!
# The rest of a path

A search looks at whole paths. What it finds along the rest of a path, when some nodes have been
passed, follows the edges: the nodes passed before are left alone, and all else is the same as at the
beginning.
-/

namespace Lockstep

universe u v w

variable {α : Type u}

namespace Graph

open Pattern (branches)

/-! ## The first of several finds -/

theorem findSome?_flatMap {β : Type u} {γ : Type v} {δ : Type w} (l : List β) (f : β → List γ)
    (attempt : γ → Option δ) :
    (l.flatMap f).findSome? attempt = l.findSome? fun x ↦ (f x).findSome? attempt := by
  induction l with
  | nil => rfl
  | cons x l ih =>
    rw [List.flatMap_cons, List.findSome?_append, ih, List.findSome?_cons]
    cases (f x).findSome? attempt <;> rfl

section

variable {β : Type} {greedy : Bool}

/-- What is found first in one of two branches, the one to another iteration and the one behind the
loop. -/
def prefer (greedy : Bool) (x y : Option β) : Option β := if greedy then x.or y else y.or x

@[simp] theorem prefer_none_left (y : Option β) : prefer greedy none y = y := by
  cases greedy <;> simp [prefer]

@[simp] theorem prefer_none_right (x : Option β) : prefer greedy x none = x := by
  cases greedy <;> simp [prefer]

/-- To try a branch again finds nothing new. -/
@[simp] theorem prefer_prefer_self_left (x y : Option β) :
    prefer greedy x (prefer greedy x y) = prefer greedy x y := by
  cases greedy <;> cases x <;> cases y <;> rfl

@[simp] theorem prefer_prefer_self_right (x y : Option β) :
    prefer greedy (prefer greedy x y) y = prefer greedy x y := by
  cases greedy <;> cases x <;> cases y <;> rfl

theorem findSome?_pair (f : Nat → Option β) (id id' : Nat) :
    [id, id'].findSome? f = (f id).or (f id') := by
  rw [List.findSome?_cons, List.findSome?_singleton]
  cases f id <;> rfl

theorem findSome?_branches (f : Nat → Option β) (body exit : Nat) :
    (branches greedy body exit).findSome? f = prefer greedy (f body) (f exit) := by
  cases greedy
  · exact findSome?_pair f exit body
  · exact findSome?_pair f body exit

end

/-! ## Along the edges -/

variable [Atom α]

/-- What a search finds from a node on, when `passed` are the nodes passed, the last of which comes
first. -/
def onward (g : Graph α) (b : Boundary) (rest : Ahead) (passed : List Nat) (id : Nat) :
    Option (Ahead × List Mark) :=
  (pathsFrom g.nodes passed id).findSome? fun p ↦
    g.alongPath b rest ⟨p.passed.drop passed.length, p.target⟩

variable {g : Graph α} {b : Boundary} {rest : Ahead} {passed : List Nat} {id : Nat} {node : Node α}

theorem onward_of_none (hnode : g.nodes[id]? = none) : g.onward b rest passed id = none := by
  rw [onward, pathsFrom_of_none hnode]
  rfl

/-- A path ends at a node that consumes. -/
theorem onward_of_consuming (hnode : g.nodes[id]? = some node) (hcons : node.isConsuming = true) :
    g.onward b rest passed id = g.beyond b rest id := by
  rw [onward, pathsFrom_of_consuming hnode hcons, List.findSome?_singleton, ← List.length_reverse,
    List.drop_length]
  exact precede_nil b _

/-- No path goes on over a node that it has passed. -/
theorem onward_of_mem (hcons : ∀ node, g.nodes[id]? = some node → node.isConsuming = false)
    (hmem : id ∈ passed) : g.onward b rest passed id = none := by
  cases hnode : g.nodes[id]? with
  | none => exact onward_of_none hnode
  | some node =>
    rw [onward, pathsFrom_of_mem hnode (hcons node hnode) hmem]
    rfl

/-- What is found along a path is found along its rest, if its first node is passed. -/
theorem alongPath_cons (hnode : g.nodes[id]? = some node) (via : List Nat) (target : Nat) :
    g.alongPath b rest ⟨id :: via, target⟩ =
      if holdsAt g.nodes b id then
        (g.alongPath b rest ⟨via, target⟩).map (precede b (passing node id))
      else none := by
  have hmarkers : markers (passedWork g.nodes (id :: via)) =
      passing node id ++ markers (passedWork g.nodes via) := by
    rw [passedWork_cons hnode, markers, List.filterMap_append]
    rfl
  simp only [alongPath, Path.work, allows_passedWork, List.all_cons, hmarkers]
  cases holdsAt g.nodes b id with
  | false => rfl
  | true =>
    rw [Bool.true_and, if_pos rfl]
    split
    · exact precede_append b _ _ _
    · rfl

/-- A path goes on over a node that is new, along its edges. -/
theorem onward_of_notMem (hnode : g.nodes[id]? = some node) (hcons : node.isConsuming = false)
    (hnew : id ∉ passed) : g.onward b rest passed id =
      if holdsAt g.nodes b id then
        (node.out.findSome? (g.onward b rest (id :: passed))).map (precede b (passing node id))
      else none := by
  have hdrop : ∀ p ∈ node.out.flatMap (pathsFrom g.nodes (id :: passed)),
      g.alongPath b rest ⟨p.passed.drop passed.length, p.target⟩ =
        if holdsAt g.nodes b id then
          (g.alongPath b rest ⟨p.passed.drop (id :: passed).length, p.target⟩).map
            (precede b (passing node id))
        else none := by
    intro p hp
    obtain ⟨next, -, hp⟩ := List.mem_flatMap.mp hp
    obtain ⟨via, -, hpassed⟩ := mem_pathsFrom.mp hp
    rw [← alongPath_cons hnode, hpassed, List.drop_left' List.length_reverse, List.reverse_cons,
      List.append_assoc, List.drop_left' List.length_reverse]
    rfl
  rw [onward, pathsFrom_of_notMem hnode hcons hnew, findSome?_congr hdrop]
  cases holdsAt g.nodes b id with
  | false => simp
  | true =>
    simp only [if_true]
    rw [← Function.comp_def, ← List.map_findSome?, findSome?_flatMap]
    rfl

/-- A path goes on over a new node with one successor, if nothing is asserted there. -/
theorem onward_of_out_eq {next : Nat} (hnode : g.nodes[id]? = some node)
    (hcons : node.isConsuming = false) (hassert : node.kind.assertion? = none)
    (hout : node.out = [next]) (hnew : id ∉ passed) : g.onward b rest passed id =
      (g.onward b rest (id :: passed) next).map (precede b (passing node id)) := by
  have hholds : holdsAt g.nodes b id = true := by simp [holdsAt, hnode, hassert]
  rw [onward_of_notMem hnode hcons hnew, if_pos hholds, hout, List.findSome?_singleton]

/-- A search from a node follows its edges. -/
theorem search_eq_onward {source : Nat} (hsource : source ≠ final)
    (hnode : g.nodes[source]? = some node) :
    g.search (b :: rest) source = node.out.findSome? (g.onward b rest []) := by
  rw [search_of_ne_final hsource hnode, findSome?_flatMap]
  rfl

/-- A fork leads on to its branches. -/
theorem Forks.onward {out : List Nat} (h : Forks g.nodes id out) (hnew : id ∉ passed) :
    g.onward b rest passed id = out.findSome? (g.onward b rest (id :: passed)) := by
  obtain ⟨-, node, hnode, hcons, hassert, hpassing, rfl⟩ := h
  have hholds : holdsAt g.nodes b id = true := by simp [holdsAt, hnode, hassert]
  rw [onward_of_notMem hnode hcons hnew, if_pos hholds, hpassing, precede_nil]

theorem Forks.onward_of_mem {out : List Nat} (h : Forks g.nodes id out) (hmem : id ∈ passed) :
    g.onward b rest passed id = none := by
  obtain ⟨-, node, hnode, hcons, -⟩ := h
  refine Graph.onward_of_mem (fun node' hnode' ↦ ?_) hmem
  cases hnode.symm.trans hnode'
  exact hcons

end Graph

end Lockstep
