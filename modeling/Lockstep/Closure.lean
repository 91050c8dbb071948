import Lockstep.Capture.Mark
import Lockstep.Graph
import Lockstep.SparseSet

/-!
# Closures

What can be consumed next after a node, and what is passed on the way there. The walk is
depth-first, preferred edges first, over paths that pass no node twice. A path that meets no
assertion settles the nodes on it: whatever a later path could reach through them is reached
already, by a preferred path that no later one outlasts.
-/

namespace Lockstep

universe u

variable {α : Type u}

/-- What is done at a boundary without consuming: recording a mark, or testing the assertion with
an index. -/
inductive ZeroWidth where
  | mark (side : Side) (group : Nat)
  | assert (index : Nat)
deriving DecidableEq, Repr

/-- A consuming node and what is done on a path to it, in order. -/
structure Arrival where
  target : Nat
  work : List ZeroWidth
deriving DecidableEq, Repr

/-- What a walk has yet to do. -/
inductive WalkTask where
  | visit (id : Nat)
  /-- Takes a node off the path, and its work with it if it did any. -/
  | leave (id : Nat) (passed : Bool)
deriving DecidableEq, Repr

/-- The state of a walk. -/
structure Walker where
  onPath : Array Bool
  /-- The nodes reached by a path without assertions. -/
  settled : SparseSet
  /-- The assertion nodes met by any walk. An assertion's index is its place among them. -/
  assertions : SparseSet
  /-- What the nodes on the path do, the last one first. -/
  work : List ZeroWidth
  /-- The number of assertions on the path. -/
  pending : Nat
  reached : Array Arrival
deriving Repr

namespace Walker

/-- A walker over `count` nodes. -/
def ofCount (count : Nat) : Walker :=
  ⟨Array.replicate count false, .ofCapacity count, .ofCapacity count, [], 0, #[]⟩

/-- What a node that consumes nothing does, given the assertions numbered so far. -/
def passing (node : Node α) (id : Nat) (assertions : SparseSet) : Option ZeroWidth × SparseSet :=
  match node.kind with
  | .groupStart => (if node.capturing then some (.mark .opening node.group) else none, assertions)
  | .groupEnd => (if node.capturing then some (.mark .closing node.group) else none, assertions)
  | .assert _ =>
    let assertions := (assertions.insert id).2
    (some (.assert ((assertions.position? id).getD 0)), assertions)
  | _ => (none, assertions)

/-- The work with one more operation, and the number of assertions in it. -/
def pushWork (work : List ZeroWidth) (pending : Nat) : Option ZeroWidth → List ZeroWidth × Nat
  | none => (work, pending)
  | some (.mark side group) => (.mark side group :: work, pending)
  | some (.assert index) => (.assert index :: work, pending + 1)

/-- The work without its last operation, and the number of assertions in it. -/
def popWork (work : List ZeroWidth) (pending : Nat) : List ZeroWidth × Nat :=
  match work with
  | .assert _ :: work => (work, pending - 1)
  | .mark _ _ :: work => (work, pending)
  | [] => ([], pending)

/-- Records an arrival, once. -/
def arrive (reached : Array Arrival) (a : Arrival) : Array Arrival :=
  if reached.contains a then reached else reached.push a

/-- Visits a node that is neither on the path nor settled: a consuming node is reached, any other
is put on the path, with its successors to visit before it is left. -/
def visit (nodes : Array (Node α)) (id : Nat) : Walker → List WalkTask × Walker
  | ⟨onPath, settled, assertions, work, pending, reached⟩ =>
    if onPath[id]? ≠ some false ∨ settled.contains id = true then
      ([], ⟨onPath, settled, assertions, work, pending, reached⟩)
    else
      let settled := if pending = 0 then (settled.insert id).2 else settled
      match nodes[id]? with
      | none => ([], ⟨onPath, settled, assertions, work, pending, reached⟩)
      | some node =>
        if node.isConsuming then
          let reached := arrive reached ⟨id, work.reverse⟩
          ([], ⟨onPath, settled, assertions, work, pending, reached⟩)
        else
          let (op, assertions) := passing node id assertions
          let (work, pending) := pushWork work pending op
          (node.out.map .visit ++ [.leave id op.isSome],
            ⟨onPath.setIfInBounds id true, settled, assertions, work, pending, reached⟩)

/-- Takes a node off the path. -/
def leave (id : Nat) (passed : Bool) : Walker → Walker
  | ⟨onPath, settled, assertions, work, pending, reached⟩ =>
    let (work, pending) := if passed then popWork work pending else (work, pending)
    ⟨onPath.setIfInBounds id false, settled, assertions, work, pending, reached⟩

/-- The number of nodes that are off the path. -/
def room (w : Walker) : Nat := w.onPath.count false

end Walker

namespace WalkTask

/-- A bound on the tasks that a visit to `id` leads to while `room` nodes are off the path. -/
def visitCost (nodes : Array (Node α)) : (room id : Nat) → Nat
  | 0, _ => 1
  | room + 1, id =>
    2 + (nodes[id]?.elim [] Node.out).foldr (fun next cost ↦ visitCost nodes room next + cost) 0

/-- A bound on the tasks that a list of tasks leads to while `room` nodes are off the path. -/
def totalCost (nodes : Array (Node α)) : (room : Nat) → List WalkTask → Nat
  | _, [] => 0
  | room, .visit id :: rest => visitCost nodes room id + totalCost nodes room rest
  | room, .leave _ _ :: rest => 1 + totalCost nodes (room + 1) rest

theorem visitCost_pos (nodes : Array (Node α)) (room id : Nat) : 0 < visitCost nodes room id := by
  cases room with
  | zero => exact Nat.zero_lt_one
  | succ room => exact Nat.add_pos_left (Nat.zero_lt_succ 1) _

private theorem foldr_add_le {f g : Nat → Nat} (h : ∀ n, f n ≤ g n) (l : List Nat) :
    l.foldr (fun n cost ↦ f n + cost) 0 ≤ l.foldr (fun n cost ↦ g n + cost) 0 := by
  induction l with
  | nil => exact Nat.le_refl _
  | cons n l ih => exact Nat.add_le_add (h n) ih

theorem visitCost_le_succ (nodes : Array (Node α)) (room id : Nat) :
    visitCost nodes room id ≤ visitCost nodes (room + 1) id := by
  induction room generalizing id with
  | zero =>
    simp only [visitCost]
    omega
  | succ room ih =>
    rw [visitCost, visitCost]
    exact Nat.add_le_add_left (foldr_add_le ih _) 2

theorem totalCost_le_succ (nodes : Array (Node α)) (room : Nat) (tasks : List WalkTask) :
    totalCost nodes room tasks ≤ totalCost nodes (room + 1) tasks := by
  induction tasks generalizing room with
  | nil => exact Nat.le_refl _
  | cons task tasks ih =>
    cases task with
    | visit id => exact Nat.add_le_add (visitCost_le_succ nodes room id) (ih room)
    | leave id passed => exact Nat.add_le_add_left (ih (room + 1)) 1

theorem totalCost_le {nodes : Array (Node α)} {room room' : Nat} (h : room ≤ room')
    (tasks : List WalkTask) : totalCost nodes room tasks ≤ totalCost nodes room' tasks := by
  induction h with
  | refl => exact Nat.le_refl _
  | step _ ih => exact Nat.le_trans ih (totalCost_le_succ nodes _ tasks)

theorem totalCost_visits (nodes : Array (Node α)) (room id : Nat) (passed : Bool)
    (out : List Nat) (rest : List WalkTask) :
    totalCost nodes room (out.map .visit ++ .leave id passed :: rest) =
      out.foldr (fun next cost ↦ visitCost nodes room next + cost) 0 + 1 +
        totalCost nodes (room + 1) rest := by
  induction out with
  | nil => simp [totalCost]
  | cons next out ih => simp [totalCost, ih, Nat.add_assoc]

end WalkTask

namespace Walker

open WalkTask

theorem room_leave_le (w : Walker) (id : Nat) (passed : Bool) :
    (w.leave id passed).room ≤ w.room + 1 := by
  simp only [leave, room]
  by_cases h : id < w.onPath.size
  · simp only [Array.setIfInBounds, h, dif_pos]
    rw [Array.count_set]
    simp
  · simp [Array.setIfInBounds, h]

theorem totalCost_leave_lt (nodes : Array (Node α)) (w : Walker) (id : Nat) (passed : Bool)
    (rest : List WalkTask) :
    totalCost nodes (w.leave id passed).room rest <
      totalCost nodes w.room (.leave id passed :: rest) := by
  have h : totalCost nodes _ rest ≤ totalCost nodes _ rest :=
    totalCost_le (room_leave_le w id passed) rest
  simp only [totalCost]
  omega

theorem totalCost_visit_lt (nodes : Array (Node α)) (w : Walker) (id : Nat) (rest : List WalkTask) :
    totalCost nodes (w.visit nodes id).2.room ((w.visit nodes id).1 ++ rest) <
      totalCost nodes w.room (.visit id :: rest) := by
  obtain ⟨onPath, settled, assertions, work, pending, reached⟩ := w
  have hpos := visitCost_pos nodes (onPath.count false) id
  by_cases hskip : onPath[id]? ≠ some false ∨ settled.contains id = true
  · simp [visit, hskip, totalCost, room, hpos]
  · have hfalse : onPath[id]? = some false := by simp_all
    obtain ⟨hid, hget⟩ := Array.getElem?_eq_some_iff.mp hfalse
    cases hnode : nodes[id]? with
    | none => simp [visit, hskip, hnode, totalCost, room, hpos]
    | some node =>
      by_cases hcons : node.isConsuming = true
      · simp [visit, hskip, hnode, hcons, totalCost, room, hpos]
      · have hcount : 0 < onPath.count false := by
          rw [Array.count_pos_iff]
          exact hget ▸ Array.getElem_mem hid
        obtain ⟨room', hroom⟩ := Nat.exists_eq_add_one_of_ne_zero (Nat.ne_of_gt hcount)
        have hset : (onPath.setIfInBounds id true).count false = room' := by
          simp [Array.setIfInBounds, hid, Array.count_set, hget, hroom]
        simp [visit, hskip, hnode, hcons, room, hset, hroom, totalCost_visits, totalCost, visitCost]
        omega

/-- Does the tasks in turn. Each visit that puts a node on the path leaves fewer nodes off it
until the node is left, so the walk ends on every graph. -/
def run (nodes : Array (Node α)) (tasks : List WalkTask) (w : Walker) : Walker :=
  match tasks with
  | [] => w
  | .leave id passed :: rest => run nodes rest (w.leave id passed)
  | .visit id :: rest =>
    let next := w.visit nodes id
    run nodes (next.1 ++ rest) next.2
termination_by totalCost nodes w.room tasks
decreasing_by
  · exact totalCost_leave_lt nodes w id passed rest
  · exact totalCost_visit_lt nodes w id rest

/-- Walks from the successors of `source`. Afterwards `reached` holds the consuming nodes that
follow `source`, in order of preference. -/
def explore (nodes : Array (Node α)) (w : Walker) (source : Nat) : Walker :=
  match w with
  | ⟨onPath, settled, assertions, _, _, _⟩ =>
    run nodes ((nodes[source]?.elim [] Node.out).map .visit)
      ⟨onPath, settled.clear, assertions, [], 0, #[]⟩

end Walker

end Lockstep
