import Lockstep.Proofs.Nfa.Discovery

/-!
# The growth of a table

While the rows are made, a transition leads to a state that there is or to the next new one, and its
work, if there is any, goes to the next new place among the closures. So states and closures are numbered
without gaps, in the order in which the transitions come to them.
-/

namespace Lockstep

universe u

variable {α : Type u}

/-! ## One transition -/

/-- A number inserted stands where it stood before, or at the end. -/
theorem SparseSet.position?_insert {s : SparseSet} {id : Nat} (hid : id < s.capacity) :
    ∃ i, (s.insert id).2.position? id = some i ∧
      (i < s.size ∧ (s.insert id).2.size = s.size ∨
        i = s.size ∧ (s.insert id).2.size = s.size + 1) := by
  by_cases hmem : id ∈ s.toList
  · obtain ⟨i, hi⟩ := List.mem_iff_getElem?.mp hmem
    rw [toList, Array.getElem?_toList] at hi
    rw [insert_of_mem hmem]
    exact ⟨i, position?_eq_some_iff.mpr hi, .inl ⟨(Array.getElem?_eq_some_iff.mp hi).1, rfl⟩⟩
  · have hlist : (s.insert id).2.members.toList = s.toList ++ [id] := toList_insert hid hmem
    refine ⟨s.size, position?_eq_some_iff.mpr ?_, .inr ⟨rfl, size_insert hid hmem⟩⟩
    rw [← Array.getElem?_toList, hlist, ← length_toList, List.getElem?_concat_length]

namespace RowBuilder

variable {r : RowBuilder} {known : Nat} {before : List Transition}

/-- An arrival adds a transition. Its target is a state that there is or the next new one, and its work
is the next new closure. -/
theorem exists_add (r : RowBuilder) {a : Arrival} (ha : a.target < r.order.capacity) :
    ∃ t, (r.add a).transitions = r.transitions.push t ∧
      (t.target < r.order.size ∧ (r.add a).order.size = r.order.size ∨
        t.target = r.order.size ∧ (r.add a).order.size = r.order.size + 1) ∧
      (t.closure = none ∧ (r.add a).closures = r.closures ∨
        t.closure = some r.closures.size ∧ (r.add a).closures = r.closures.push a.work ∧
          a.work ≠ []) := by
  obtain ⟨order, closures, transitions⟩ := r
  obtain ⟨target, work⟩ := a
  obtain ⟨i, hi, hsize⟩ := SparseSet.position?_insert ha
  have hposition : ((order.insert target).2.position? target).getD 0 = i := by
    rw [hi, Option.getD_some]
  cases work with
  | nil => exact ⟨⟨i, none⟩, by simp [add, hposition], hsize, .inl ⟨rfl, rfl⟩⟩
  | cons op work =>
    exact ⟨⟨i, some closures.size⟩, by simp [add, hposition], hsize,
      .inr ⟨rfl, rfl, List.cons_ne_nil _ _⟩⟩

/-- With `before` the transitions of the rows before and `known` states known from there, the row under
construction names the further states and the closures in the order of their numbers. -/
structure Counts (r : RowBuilder) (known : Nat) (before : List Transition) : Prop where
  known_le : known ≤ r.order.size
  targets : ((r.transitions.toList.map Transition.target).filter (known ≤ ·)).eraseDups =
    List.range' known (r.order.size - known)
  closures : (before ++ r.transitions.toList).filterMap Transition.closure =
    List.range r.closures.size
  worked : ∀ work ∈ r.closures.toList, work ≠ []

/-- The next number comes after those there are; an old one is not named again. -/
theorem eraseDups_filter_concat {targets : List Nat} {size size' target : Nat} (hknown : known ≤ size)
    (h : (targets.filter (known ≤ ·)).eraseDups = List.range' known (size - known))
    (htarget : target < size ∧ size' = size ∨ target = size ∧ size' = size + 1) :
    ((targets ++ [target]).filter (known ≤ ·)).eraseDups = List.range' known (size' - known) := by
  have hmem : target ∈ targets.filter (known ≤ ·) ↔ known ≤ target ∧ target < size := by
    rw [← List.mem_eraseDups, h, List.mem_range'_1, Nat.add_sub_of_le hknown]
  rw [List.filter_append]
  rcases htarget with ⟨hlt, rfl⟩ | ⟨rfl, rfl⟩
  · by_cases hle : known ≤ target
    · rw [List.filter_cons_of_pos (by simpa using hle), List.filter_nil, eraseDups_concat,
        if_pos (hmem.mpr ⟨hle, hlt⟩), List.append_nil, h]
    · rw [List.filter_cons_of_neg (by simpa using hle), List.filter_nil, List.append_nil, h]
  · rw [List.filter_cons_of_pos (by simpa using hknown), List.filter_nil, eraseDups_concat,
      if_neg (fun hold ↦ Nat.lt_irrefl _ (hmem.mp hold).2), h, Nat.sub_add_comm hknown,
      List.range'_1_concat, Nat.add_sub_of_le hknown]

theorem Counts.add (h : r.Counts known before) {a : Arrival} (ha : a.target < r.order.capacity) :
    (r.add a).Counts known before := by
  obtain ⟨t, htransitions, htarget, hclosure⟩ := r.exists_add ha
  have hlist : (r.add a).transitions.toList = r.transitions.toList ++ [t] := by
    rw [htransitions, Array.toList_push]
  refine ⟨?_, ?_, ?_, ?_⟩
  · have hknown := h.known_le
    omega
  · rw [hlist, List.map_append, List.map_singleton]
    exact eraseDups_filter_concat h.known_le h.targets htarget
  · rw [hlist, ← List.append_assoc, List.filterMap_append, h.closures]
    rcases hclosure with ⟨hnone, hsame⟩ | ⟨hsome, hpush, -⟩
    · rw [hsame, List.filterMap_cons_none hnone, List.filterMap_nil, List.append_nil]
    · rw [hpush, List.filterMap_cons_some hsome, List.filterMap_nil, Array.size_push, List.range_succ]
  · rcases hclosure with ⟨-, hsame⟩ | ⟨-, hpush, hne⟩
    · exact hsame ▸ h.worked
    · rw [hpush, Array.toList_push]
      exact List.forall_mem_append.mpr ⟨h.worked, List.forall_mem_singleton.mpr hne⟩

theorem capacity_add (r : RowBuilder) (a : Arrival) :
    (r.add a).order.capacity = r.order.capacity := by
  obtain ⟨target, work⟩ := a
  cases work <;> exact SparseSet.capacity_insert _ _

theorem Counts.foldl_add (h : r.Counts known before) {arrivals : List Arrival}
    (harrivals : ∀ a ∈ arrivals, a.target < r.order.capacity) :
    (arrivals.foldl RowBuilder.add r).Counts known before := by
  induction arrivals generalizing r with
  | nil => exact h
  | cons a arrivals ih =>
    refine ih (h.add (harrivals a List.mem_cons_self)) fun a' ha' ↦ ?_
    rw [capacity_add]
    exact harrivals a' (List.mem_cons_of_mem _ ha')

end RowBuilder

/-! ## Row after row -/

namespace Table

/-- The states that the transitions of a state lead to. -/
def targets (t : Table) (state : Nat) : List Nat := (t.row state).map Transition.target

end Table

namespace Folding

variable {g : Graph α} {f : Folding} {count : Nat}

/-- A table on its way: the rows made so far stand one behind the other, name the closures in order, and
have discovered the states that there are. -/
structure Grown (g : Graph α) (f : Folding) (count : Nat) : Prop where
  rows : f.Rows g count
  tiled : f.table.Tiled count
  discovers : Discovers f.table.targets count f.order.size
  closures : f.table.transitions.toList.filterMap Transition.closure = List.range f.closures.size
  worked : ∀ work ∈ f.closures.toList, work ≠ []

theorem grown_initial (hentry : g.entry < g.nodes.size) (hne : g.entry ≠ Graph.final) :
    (initial g).Grown g 1 where
  rows := rows_initial hentry hne
  tiled := Table.tiled_empty.addRow #[]
  discovers := by
    have hsize : (initial g).order.size = 2 :=
      Array.length_toList.symm.trans (congrArg List.length (toList_order_initial hentry hne))
    exact hsize ▸ .entry
  closures := rfl
  worked := nofun

theorem Grown.counts_nextRow (h : f.Grown g count) {source : Nat}
    (hsource : f.order.members[count]? = some source) :
    (f.nextRow g.nodes source).Counts f.order.size f.table.transitions.toList := by
  have hstart : (⟨f.order, f.closures, #[]⟩ : RowBuilder).Counts f.order.size
      f.table.transitions.toList :=
    ⟨Nat.le_refl _, by simp, by rw [List.append_nil]; exact h.closures, h.worked⟩
  have hcounts := hstart.foldl_add
    (h.rows.lt_of_reached (Nat.ne_of_gt h.discovers.pos) hsource)
  rwa [Array.foldl_toList] at hcounts

theorem Grown.addRow (h : f.Grown g count) {source : Nat}
    (hsource : f.order.members[count]? = some source) :
    (f.addRow g.nodes source).Grown g (count + 1) := by
  have hcounts := h.counts_nextRow hsource
  refine ⟨h.rows.addRow (Nat.ne_of_gt h.discovers.pos) hsource, h.tiled.addRow _, ?_, ?_,
    hcounts.worked⟩
  · have hold : Discovers (f.addRow g.nodes source).table.targets count f.order.size :=
      h.discovers.congr fun before hbefore ↦
        congrArg (List.map _) (h.rows.table.row_addRow _ hbefore)
    have hrow : (f.addRow g.nodes source).table.targets count =
        (f.nextRow g.nodes source).transitions.toList.map Transition.target :=
      congrArg (List.map _) (h.rows.table.row_addRow_self _)
    exact hold.row (Array.getElem?_eq_some_iff.mp hsource).1 hcounts.known_le
      (hrow ▸ hcounts.targets)
  · rw [addRow_eq, ← hcounts.closures]
    exact congrArg (List.filterMap _) Array.toList_append

end Folding

namespace Graph

variable {g : Graph α}

/-- The finished table has a row for each state. -/
theorem grown_folding (hentry : g.entry < g.nodes.size) (hne : g.entry ≠ final) :
    g.folding.Grown g g.stateNodes.size := by
  obtain ⟨count, hgrown, hsize⟩ := folding_induction (fun f count h ↦ Folding.Grown.rows h)
    (fun f count source h _ hsource ↦ Folding.Grown.addRow h hsource)
    (Folding.grown_initial hentry hne)
  have hcount : g.stateNodes.size = count := Nat.le_antisymm hsize hgrown.discovers.le
  exact hcount ▸ hgrown

end Graph

end Lockstep
