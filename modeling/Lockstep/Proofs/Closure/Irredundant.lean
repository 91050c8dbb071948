import Lockstep.Proofs.Closure.Walk

/-!
# Irredundant arrivals

A walk follows one path after the other, and there may be exponentially many. What it reaches is far
less: it comes to a target twice only if the first time some assertion was pending, and never with the
same work. The invariant behind it is that a target reached without assertions is settled, so that no
later visit gets there, and that the walk counts the assertions that are pending.
-/

namespace Lockstep

universe u

variable {α : Type u} {nodes : Array (Node α)}

/-- Some assertion is tested in `work`. -/
def Conditional (work : List ZeroWidth) : Prop := ∃ index, .assert index ∈ work

theorem conditional_iff {work : List ZeroWidth} :
    Conditional work ↔ work.countP ZeroWidth.isAssert ≠ 0 := by
  rw [← Nat.pos_iff_ne_zero, List.countP_pos_iff]
  constructor
  · rintro ⟨index, hmem⟩
    exact ⟨_, hmem, rfl⟩
  · rintro ⟨_ | index, hmem, hassert⟩
    · cases hassert
    · exact ⟨index, hmem⟩

/-- Two ways to one target differ in their work, and the earlier one has an assertion. -/
def Irredundant (ways : List (Nat × List ZeroWidth)) : Prop :=
  ways.Pairwise fun way later ↦ way.1 = later.1 → way.2 ≠ later.2 ∧ Conditional way.2

/-- Without assertions no two ways lead to one target. -/
theorem Irredundant.nodup_targets {ways : List (Nat × List ZeroWidth)} (h : Irredundant ways)
    (hways : ∀ way ∈ ways, ¬ Conditional way.2) : (ways.map (·.1)).Nodup := by
  apply List.pairwise_map.mpr
  exact List.Pairwise.imp_of_mem (fun hway _ hlater heq ↦ hways _ hway (hlater heq).2) h

namespace Walker

variable {w : Walker} {id : Nat} {node : Node α}

/-- A visit beyond the nodes settles at most. -/
theorem visit_none (hnew : ¬ (w.onPath[id]? ≠ some false ∨ w.settled.contains id = true))
    (hnode : nodes[id]? = none) : w.visit nodes id = ([], { w with settled := w.settle id }) := by
  simp only [visit]
  rw [if_neg hnew]
  simp only [hnode]
  rfl

/-- What is kept by every visit and every leaving of a node is kept by a walk. -/
theorem run_induction {P : Walker → Prop} (hvisit : ∀ w id, P w → P (visit nodes id w).2)
    (hleave : ∀ w id passed, P w → P (leave id passed w)) (tasks : List WalkTask) (h : P w) :
    P (run nodes tasks w) := by
  fun_induction run nodes tasks w with
  | case1 w => exact h
  | case2 w id passed rest ih => exact ih (hleave w id passed h)
  | case3 w id rest next ih => exact ih (hvisit w id h)

/-- The walker knows how many assertions are pending, and it has reached nothing in vain. -/
structure Thrifty (nodes : Array (Node α)) (w : Walker) : Prop where
  capacity : w.settled.capacity = nodes.size
  pending : w.pending = w.work.countP ZeroWidth.isAssert
  settled : ∀ a ∈ w.reached.toList, ¬ Conditional a.work → a.target ∈ w.settled.toList
  irredundant : Irredundant (w.reached.toList.map Arrival.way)

namespace Thrifty

/-- More nodes may be settled. -/
theorem settle (h : w.Thrifty nodes) (id : Nat) : Thrifty nodes { w with settled := w.settle id } :=
  { h with
    capacity := (w.capacity_settle id).trans h.capacity
    settled := fun a ha hfree ↦ (w.prefix_settle id).subset (h.settled a ha hfree) }

/-- A consuming node that is not settled has not been reached without assertions. -/
theorem arrive (h : w.Thrifty nodes) (hid : id < nodes.size) (hnew : id ∉ w.settled.toList) :
    Thrifty nodes
      { w with settled := w.settle id, reached := Walker.arrive w.reached ⟨id, w.work.reverse⟩ } := by
  unfold Walker.arrive
  split
  · exact h.settle id
  · rename_i hfresh
    refine { h.settle id with settled := fun a ha hfree ↦ ?_, irredundant := ?_ }
    · rw [Array.toList_push] at ha
      rcases List.mem_append.mp ha with ha | ha
      · exact (h.settle id).settled a ha hfree
      · cases List.mem_singleton.mp ha
        -- nothing is pending where the work asks for nothing
        rw [conditional_iff, List.countP_reverse, ← h.pending, Classical.not_not] at hfree
        exact (mem_settle_iff (h.capacity ▸ hid)).mpr (.inr ⟨hfree, rfl⟩)
    · rw [Array.toList_push, List.map_append]
      refine List.pairwise_append.mpr ⟨h.irredundant, List.pairwise_singleton _ _, ?_⟩
      intro way hway later hlater htarget
      obtain ⟨a, ha, rfl⟩ := List.mem_map.mp hway
      cases List.mem_singleton.mp hlater
      refine ⟨fun hwork ↦ hfresh ?_, Classical.byContradiction fun hfree ↦ hnew ?_⟩
      · obtain ⟨target, work⟩ := a
        cases htarget
        cases hwork
        exact Array.contains_iff_mem.mpr (Array.mem_toList_iff.mp ha)
      · have hsettled := h.settled a ha hfree
        rwa [show a.target = id from htarget] at hsettled

theorem enter (h : w.Thrifty nodes) (node : Node α) (id : Nat) : Thrifty nodes (w.enter node id) where
  capacity := (h.settle id).capacity
  pending := by
    dsimp only [Walker.enter]
    rw [List.countP_append, h.pending]
  settled := (h.settle id).settled
  irredundant := h.irredundant

theorem visit (h : w.Thrifty nodes) (id : Nat) : Thrifty nodes (w.visit nodes id).2 := by
  by_cases hskip : w.onPath[id]? ≠ some false ∨ w.settled.contains id = true
  · rw [visit_skip hskip]
    exact h
  · cases hnode : nodes[id]? with
    | none =>
      rw [visit_none hskip hnode]
      exact h.settle id
    | some node =>
      cases hcons : node.isConsuming with
      | true =>
        rw [visit_consuming hskip hnode hcons]
        exact h.arrive (Array.getElem?_eq_some_iff.mp hnode).1 fun hid ↦
          hskip (.inr (SparseSet.contains_iff_mem.mpr hid))
      | false =>
        rw [visit_passing hskip hnode hcons]
        exact h.enter node id

theorem leave (h : w.Thrifty nodes) (id : Nat) (passed : Bool) :
    Thrifty nodes (w.leave id passed) := by
  obtain ⟨onPath, settled, assertions, work, pending, reached⟩ := w
  refine ⟨h.capacity, ?_, h.settled, h.irredundant⟩
  have hpending : pending = work.countP ZeroWidth.isAssert := h.pending
  cases passed with
  | false => exact hpending
  | true =>
    obtain _ | ⟨_ | _, work⟩ := work
    · exact hpending
    · rwa [List.countP_cons_of_neg (by simp [ZeroWidth.isAssert])] at hpending
    · rw [List.countP_cons_of_pos (by simp [ZeroWidth.isAssert])] at hpending
      exact Nat.sub_eq_of_eq_add hpending

end Thrifty

/-- A walk reaches nothing in vain. -/
theorem thrifty_explore (hcapacity : w.settled.capacity = nodes.size) (source : Nat) :
    Thrifty nodes (w.explore nodes source) := by
  obtain ⟨onPath, settled, assertions, work, pending, reached⟩ := w
  refine run_induction (fun _ id h ↦ h.visit id) (fun _ id passed h ↦ h.leave id passed) _ ?_
  exact ⟨hcapacity, rfl, nofun, .nil⟩

end Walker

end Lockstep
