import Lockstep.SparseSet

/-!
# Growing sets

A set only grows at its end, so a member keeps its position. There are no more members than numbers
below the capacity.
-/

namespace Lockstep

/-- A list without repetitions grows when an element is new. -/
theorem eraseDups_concat (l : List Nat) (x : Nat) :
    (l ++ [x]).eraseDups = l.eraseDups ++ if x ∈ l then [] else [x] := by
  rw [List.eraseDups_append]
  by_cases h : x ∈ l <;> simp [List.removeAll, h, List.eraseDups_cons]

namespace SparseSet

theorem length_toList (s : SparseSet) : s.toList.length = s.size := Array.length_toList

theorem mem_toList_insert {s : SparseSet} {id x : Nat} (h : x ∈ (s.insert id).2.toList) :
    x ∈ s.toList ∨ x = id := by
  unfold insert at h
  split at h
  · exact .inl h
  · split at h
    · simpa [toList] using h
    · exact .inl h

theorem position?_extends {s s' : SparseSet} (h : s.toList <+: s'.toList) {id : Nat}
    (hid : id ∈ s.toList) : s'.position? id = s.position? id := by
  obtain ⟨i, hi⟩ := List.mem_iff_getElem?.mp hid
  have hi' : s'.toList[i]? = some id := by
    obtain ⟨more, hmore⟩ := h
    rw [← hmore, List.getElem?_append_left (List.getElem?_eq_some_iff.mp hi).1, hi]
  rw [toList, Array.getElem?_toList] at hi hi'
  rw [position?_eq_some_iff.mpr hi, position?_eq_some_iff.mpr hi']

theorem prefix_insert (s : SparseSet) (id : Nat) : s.toList <+: (s.insert id).2.toList := by
  unfold insert
  split
  · exact List.prefix_rfl
  · split
    · simp [toList]
    · exact List.prefix_rfl

theorem mem_insert_self {s : SparseSet} {id : Nat} (h : id < s.capacity) :
    id ∈ (s.insert id).2.toList := by
  by_cases hid : id ∈ s.toList
  · rwa [insert_of_mem hid]
  · rw [toList_insert h hid]
    exact List.mem_append_right _ (List.mem_singleton_self _)

theorem mem_insert_iff {s : SparseSet} {id x : Nat} (h : id < s.capacity) :
    x ∈ (s.insert id).2.toList ↔ x ∈ s.toList ∨ x = id := by
  constructor
  · exact mem_toList_insert
  · rintro (hx | rfl)
    · exact (s.prefix_insert id).subset hx
    · exact mem_insert_self h

/-- No member stands at two positions. -/
theorem eq_of_getElem?_members {s : SparseSet} {i j id : Nat} (hi : s.members[i]? = some id)
    (hj : s.members[j]? = some id) : i = j := by
  have h := (position?_eq_some_iff.mpr hi).symm.trans (position?_eq_some_iff.mpr hj)
  exact Option.some.inj h

theorem nodup_toList (s : SparseSet) : s.toList.Nodup := by
  apply List.pairwise_iff_getElem.mpr
  intro i j hi hj hlt heq
  have hi' : s.members[i]? = some s.toList[i] := by
    rw [← Array.getElem?_toList]
    exact List.getElem?_eq_getElem hi
  have hj' : s.members[j]? = some s.toList[i] := by
    rw [← Array.getElem?_toList, heq]
    exact List.getElem?_eq_getElem hj
  exact Nat.ne_of_lt hlt (eq_of_getElem?_members hi' hj')

theorem lt_capacity {s : SparseSet} {id : Nat} (h : id ∈ s.toList) : id < s.capacity := by
  obtain ⟨i, hi⟩ := List.mem_iff_getElem?.mp h
  rw [toList, Array.getElem?_toList] at hi
  obtain ⟨hlt, rfl⟩ := Array.getElem?_eq_some_iff.mp hi
  exact (Array.getElem?_eq_some_iff.mp (s.position_of_member i hlt)).1

theorem size_le_capacity (s : SparseSet) : s.size ≤ s.capacity := by
  have hsubset : s.toList ⊆ List.range s.capacity := fun id hid ↦
    List.mem_range.mpr (lt_capacity hid)
  have hle := s.nodup_toList.length_le_of_subset hsubset
  rwa [List.length_range, length_toList] at hle

theorem size_insert {s : SparseSet} {id : Nat} (hid : id < s.capacity) (hnew : id ∉ s.toList) :
    (s.insert id).2.size = s.size + 1 := by
  rw [← length_toList, toList_insert hid hnew, List.length_append, length_toList,
    List.length_singleton]

/-- There is room for every number below the capacity that is not a member. -/
theorem size_lt_capacity {s : SparseSet} {id : Nat} (hid : id < s.capacity) (hnew : id ∉ s.toList) :
    s.size < s.capacity := by
  have hle := (s.insert id).2.size_le_capacity
  rwa [size_insert hid hnew, capacity_insert] at hle

end SparseSet

end Lockstep
