import Lockstep.Proofs.Nfa.Rows
import Mathlib.Logic.Function.Iterate
import Mathlib.Logic.Relation

/-!
# The order of discovery

The states are numbered in the order in which a breadth-first search from the entry finds them, and the
rows of the table are made in that order, one behind the other. So the table is the queue of the search:
the next row is that of the next state to be left, and the search ends when each state has its row.
-/

namespace Lockstep

universe u

variable {α : Type u}

/-! ## Rows one behind the other -/

namespace Table

/-- The `count` rows of the table are all its transitions. -/
structure Tiled (t : Table) (count : Nat) : Prop extends t.Holds count where
  first : t.starts[0]? = some 0
  sorted : t.starts.toList.Pairwise (· ≤ ·)
  rows : (List.range count).flatMap t.row = t.transitions.toList

variable {t : Table} {count : Nat}

theorem tiled_empty : empty.Tiled 0 :=
  { holds_empty with
    first := rfl
    sorted := List.pairwise_singleton _ _
    rows := rfl }

theorem Tiled.addRow (h : t.Tiled count) (row : Array Transition) :
    (t.addRow row).Tiled (count + 1) where
  toHolds := h.toHolds.addRow row
  first := by
    have hsize : 0 < t.starts.size := h.size ▸ Nat.succ_pos _
    rw [← h.first]
    exact (Array.getElem?_push_lt hsize).trans (Array.getElem?_eq_getElem hsize).symm
  sorted := by
    rw [Table.addRow, Array.toList_push]
    refine List.pairwise_append.mpr ⟨h.sorted, List.pairwise_singleton _ _, fun start hstart last hlast ↦ ?_⟩
    obtain ⟨state, hstate⟩ := List.mem_iff_getElem?.mp hstart
    have hle := h.le state
    rw [Array.getD_eq_getD_getElem?, ← Array.getElem?_toList, hstate, Option.getD_some] at hle
    cases List.mem_singleton.mp hlast
    rw [Array.size_append]
    exact Nat.le_add_right_of_le hle
  rows := by
    have hold : (List.range count).flatMap (t.addRow row).row = (List.range count).flatMap t.row := by
      rw [List.flatMap_def, List.flatMap_def]
      exact congrArg List.flatten (List.map_congr_left fun state hstate ↦
        h.toHolds.row_addRow row (List.mem_range.mp hstate))
    rw [List.range_succ, List.flatMap_append, List.flatMap_singleton, hold, h.rows,
      h.toHolds.row_addRow_self]
    exact Array.toList_append.symm

end Table

/-! ## Breadth-first search -/

/-- A breadth-first search on its way. -/
structure BreadthFirst where
  /-- The states that are found but not left yet. -/
  queue : List Nat
  /-- The states found so far, in the order in which they were found. -/
  found : List Nat
deriving DecidableEq, Repr

namespace BreadthFirst

/-- The search sets out from the entry. The final state is known from the start and never left. -/
def initial : BreadthFirst := ⟨[Nfa.entry], [Nfa.final, Nfa.entry]⟩

/-- Leaves the first state of the queue, and queues what it leads to for the first time. -/
def step (next : Nat → List Nat) : BreadthFirst → BreadthFirst
  | ⟨[], found⟩ => ⟨[], found⟩
  | ⟨state :: queue, found⟩ =>
    let new := ((next state).filter (· ∉ found)).eraseDups
    ⟨queue ++ new, found ++ new⟩

end BreadthFirst

theorem range'_append_of_le {start middle stop : Nat} (h : start ≤ middle) (h' : middle ≤ stop) :
    List.range' start (middle - start) ++ List.range' middle (stop - middle) =
      List.range' start (stop - start) := by
  obtain ⟨count, rfl⟩ := Nat.exists_eq_add_of_le h
  rw [Nat.add_sub_cancel_left, List.range'_append_1]
  congr 1
  omega

/-- The states before `state` lead to the states below `known`, and to each new one in the order of the
numbers. -/
inductive Discovers (next : Nat → List Nat) : (state known : Nat) → Prop where
  | entry : Discovers next Nfa.entry 2
  | row {state known known' : Nat} (h : Discovers next state known) (hlt : state < known)
      (hle : known ≤ known')
      (hnew : ((next state).filter (known ≤ ·)).eraseDups = List.range' known (known' - known)) :
      Discovers next (state + 1) known'

namespace Discovers

variable {next next' : Nat → List Nat} {state known : Nat}

theorem pos (h : Discovers next state known) : 0 < state := by
  cases h with
  | entry => exact Nat.zero_lt_one
  | row => exact Nat.succ_pos _

theorem le (h : Discovers next state known) : state ≤ known := by
  cases h with
  | entry => exact Nat.le_succ 1
  | row h hlt hle => exact Nat.le_trans hlt hle

/-- It is a matter of what the states before `state` lead to. -/
theorem congr (h : Discovers next state known) (hnext : ∀ before < state, next' before = next before) :
    Discovers next' state known := by
  induction h with
  | entry => exact .entry
  | @row state known known' h hlt hle hnew ih =>
    refine .row (ih fun before hbefore ↦ hnext before (Nat.lt_succ_of_lt hbefore)) hlt hle ?_
    rw [hnext state (Nat.lt_succ_self state), hnew]

/-- A breadth-first search has found the states below `known` when it comes to leave `state`. -/
theorem iterate_step (h : Discovers next state known) :
    (BreadthFirst.step next)^[state - 1] .initial =
      ⟨List.range' state (known - state), List.range known⟩ := by
  induction h with
  | entry => rfl
  | @row state known known' h hlt hle hnew ih =>
    have hqueue : List.range' state (known - state) =
        state :: List.range' (state + 1) (known - (state + 1)) := by
      rw [show known - state = known - (state + 1) + 1 by omega, List.range'_succ]
    have hfilter : (next state).filter (· ∉ List.range known) = (next state).filter (known ≤ ·) :=
      List.filter_congr fun target _ ↦ by simp
    rw [Nat.add_sub_cancel, ← Nat.sub_add_cancel h.pos, Function.iterate_succ_apply', ih, hqueue,
      BreadthFirst.step, hfilter, hnew, Nat.sub_add_cancel h.pos]
    congr 1
    · exact range'_append_of_le hlt hle
    · rw [List.range_eq_range', List.range_eq_range']
      exact range'_append_of_le (Nat.zero_le known) hle

/-- The search ends when every state that it has found is left. -/
theorem iterate_step_of_le (h : Discovers next known known) {rounds : Nat} (hrounds : known ≤ rounds) :
    (BreadthFirst.step next)^[rounds] .initial = ⟨[], List.range known⟩ := by
  have hend : (BreadthFirst.step next)^[known - 1] .initial = ⟨[], List.range known⟩ := by
    rw [h.iterate_step, Nat.sub_self, List.range'_zero]
  have hstay : BreadthFirst.step next ⟨[], List.range known⟩ = ⟨[], List.range known⟩ := rfl
  obtain ⟨more, rfl⟩ := Nat.exists_eq_add_of_le (Nat.le_trans (Nat.sub_le known 1) hrounds)
  rw [Nat.add_comm, Function.iterate_add_apply, hend]
  exact Function.iterate_fixed hstay more

/-- Each state found is one that an earlier state leads to. -/
theorem exists_mem (h : Discovers next state known) {target : Nat} (hle : 2 ≤ target)
    (hlt : target < known) : ∃ before < state, 0 < before ∧ before < target ∧ target ∈ next before := by
  induction h with
  | entry => omega
  | @row state known known' h hstate hle' hnew ih =>
    rcases Nat.lt_or_ge target known with hold | hge
    · obtain ⟨before, hbefore, hrest⟩ := ih hold
      exact ⟨before, Nat.lt_succ_of_lt hbefore, hrest⟩
    · have hmem : target ∈ List.range' known (known' - known) :=
        List.mem_range'_1.mpr ⟨hge, (Nat.add_sub_of_le hle').symm ▸ hlt⟩
      rw [← hnew, List.mem_eraseDups] at hmem
      exact ⟨state, Nat.lt_succ_self state, h.pos, Nat.lt_of_lt_of_le hstate hge,
        (List.mem_filter.mp hmem).1⟩

/-- Each state found is reached from the entry. -/
theorem reaches (h : Discovers next state known) {target : Nat} (hpos : 0 < target)
    (hlt : target < known) :
    Relation.ReflTransGen (fun source target ↦ target ∈ next source) Nfa.entry target := by
  induction target using Nat.strongRecOn with | _ target ih
  rcases Nat.eq_or_lt_of_le hpos with heq | hle
  · exact heq ▸ .refl
  · obtain ⟨before, -, hbefore, hbelow, hmem⟩ := h.exists_mem hle hlt
    exact (ih before hbelow hbefore (Nat.lt_trans hbelow hlt)).tail hmem

end Discovers

end Lockstep
