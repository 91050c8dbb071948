import Lockstep.Proofs.Scan.Advance

/-!
# The states of a generation

A generation keeps its threads in a list, and their states in a set. The set lists the states in the
order of the threads, so asking it comes to the same as looking for a thread. What an earlier scan
left in the set does not show.
-/

namespace Lockstep

namespace Generation

/-- The set holds the states of the threads, in their order, and has room for `count` states. -/
structure Lists (g : Generation) (count : Nat) : Prop where
  states : g.states.toList = g.threads.toList.map Thread.state
  capacity : count ≤ g.states.capacity

@[simp] theorem toList_threads_clear (g : Generation) : g.clear.threads.toList = [] := rfl

@[simp] theorem toList_threads_reset (g : Generation) (count : Nat) :
    (g.reset count).threads.toList = [] := rfl

theorem contains_clear (g : Generation) (state : Nat) : g.clear.contains state = false := by
  refine Bool.eq_false_iff.mpr fun hcontains ↦ ?_
  cases SparseSet.contains_iff_mem.mp hcontains

theorem lists_reset (g : Generation) (count : Nat) : (g.reset count).Lists count where
  states := rfl
  capacity := by
    have hcapacity := SparseSet.capacity_reserve g.states count
    exact Nat.le_trans (Nat.le_max_right _ _) (Nat.le_of_eq hcapacity.symm)

variable {g g' : Generation} {count count' state : Nat} {t : Thread}

theorem Lists.clear (h : g.Lists count) : g.clear.Lists count := ⟨rfl, h.capacity⟩

theorem Lists.contains_iff (h : g.Lists count) :
    g.contains state = true ↔ ∃ thread ∈ g.threads.toList, thread.state = state := by
  rw [contains, SparseSet.contains_iff_mem, h.states, List.mem_map]

/-- Generations with threads in the same states answer alike. -/
theorem Lists.contains_congr (h : g.Lists count) (h' : g'.Lists count')
    (hstates : g'.threads.toList.map Thread.state = g.threads.toList.map Thread.state) :
    g'.contains state = g.contains state := by
  rw [Bool.eq_iff_iff, contains, contains, SparseSet.contains_iff_mem, SparseSet.contains_iff_mem,
    h.states, h'.states, hstates]

/-- No two threads are in the same state. -/
theorem Lists.nodup (h : g.Lists count) : (g.threads.toList.map Thread.state).Nodup :=
  h.states ▸ g.states.nodup_toList

theorem Lists.add (h : g.Lists count) (hlt : t.state < count) (hnew : g.contains t.state = false) :
    (g.add t).Lists count := by
  have hstate : t.state < g.states.capacity := Nat.lt_of_lt_of_le hlt h.capacity
  have hmem : t.state ∉ g.states.toList := fun hmem ↦ by
    have hcontains : g.contains t.state = true := SparseSet.contains_iff_mem.mpr hmem
    rw [hnew] at hcontains
    cases hcontains
  constructor
  · calc
      (g.add t).states.toList = g.states.toList ++ [t.state] := SparseSet.toList_insert hstate hmem
      _ = (g.add t).threads.toList.map Thread.state := by simp [h.states]
  · have hcapacity : (g.add t).states.capacity = g.states.capacity := SparseSet.capacity_insert _ _
    exact hcapacity ▸ h.capacity

end Generation

end Lockstep
