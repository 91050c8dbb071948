/-!
# Sparse sets

A set of numbers below a capacity that remembers the order of insertion and is emptied at once.
Clearing leaves the positions as they are: an entry counts only while the member it points at
points back.
-/

namespace Lockstep

structure SparseSet where
  /-- The members, the first inserted first. -/
  members : Array Nat
  /-- Where each number below the capacity stands among the members, if it is one. -/
  positions : Array Nat
  /-- Each member is found at its position. -/
  position_of_member : ∀ (i : Nat) (h : i < members.size), positions[members[i]]? = some i
deriving DecidableEq, Repr

namespace SparseSet

def ofCapacity (capacity : Nat) : SparseSet :=
  ⟨#[], Array.replicate capacity 0, by simp⟩

def capacity (s : SparseSet) : Nat := s.positions.size

def size (s : SparseSet) : Nat := s.members.size

def isEmpty (s : SparseSet) : Bool := s.members.isEmpty

def toList (s : SparseSet) : List Nat := s.members.toList

/-- Where `id` stands in the order of insertion. -/
def position? (s : SparseSet) (id : Nat) : Option Nat :=
  match s.positions[id]? with
  | none => none
  | some i => if s.members[i]? = some id then some i else none

def contains (s : SparseSet) (id : Nat) : Bool := (s.position? id).isSome

theorem position?_eq_some_iff {s : SparseSet} {id i : Nat} :
    s.position? id = some i ↔ s.members[i]? = some id := by
  constructor
  · unfold position?
    split
    · simp
    · split
      · rintro ⟨⟩
        assumption
      · simp
  · intro h
    obtain ⟨hi, rfl⟩ := Array.getElem?_eq_some_iff.mp h
    simp [position?, s.position_of_member i hi]

theorem contains_iff_mem {s : SparseSet} {id : Nat} : s.contains id = true ↔ id ∈ s.toList := by
  simp only [contains, Option.isSome_iff_exists, position?_eq_some_iff, toList,
    List.mem_iff_getElem?, Array.getElem?_toList]

private theorem position_of_push {s : SparseSet} {id : Nat} (hid : id < s.positions.size)
    (hnew : ¬ s.contains id = true) (i : Nat) (h : i < (s.members.push id).size) :
    (s.positions.set id s.members.size hid)[(s.members.push id)[i]]? = some i := by
  rw [Array.size_push] at h
  rcases Nat.lt_or_eq_of_le (Nat.le_of_lt_succ h) with h | rfl
  · rw [Array.getElem_push_lt h, Array.getElem?_set_ne, s.position_of_member i h]
    intro heq
    exact hnew (contains_iff_mem.mpr (heq ▸ Array.getElem_mem_toList h))
  · simp

/-- Adds `id` at the end and says whether it was added: a member is not, nor is a number beyond
the capacity. -/
def insert (s : SparseSet) (id : Nat) : Bool × SparseSet :=
  if h : s.contains id = true then (false, s)
  else if hid : id < s.positions.size then
    match s, h, hid with
    | ⟨members, positions, position_of_member⟩, h, hid =>
      let place := members.size
      (true, ⟨members.push id, positions.set id place hid,
        @position_of_push ⟨members, positions, position_of_member⟩ id hid h⟩)
  else (false, s)

/-- Removes all members. -/
def clear (s : SparseSet) : SparseSet := ⟨#[], s.positions, by simp⟩

/-- Removes all members and makes room for the numbers below `capacity`. -/
def reserve (s : SparseSet) (capacity : Nat) : SparseSet :=
  ⟨#[], s.positions ++ Array.replicate (capacity - s.positions.size) 0, by simp⟩

@[simp] theorem toList_ofCapacity (n : Nat) : (ofCapacity n).toList = [] := rfl

@[simp] theorem capacity_ofCapacity (n : Nat) : (ofCapacity n).capacity = n := by
  simp [ofCapacity, capacity]

@[simp] theorem toList_clear (s : SparseSet) : s.clear.toList = [] := rfl

@[simp] theorem capacity_clear (s : SparseSet) : s.clear.capacity = s.capacity := rfl

@[simp] theorem toList_reserve (s : SparseSet) (n : Nat) : (s.reserve n).toList = [] := rfl

@[simp] theorem capacity_reserve (s : SparseSet) (n : Nat) :
    (s.reserve n).capacity = max s.capacity n := by
  simp [reserve, capacity]
  omega

@[simp] theorem capacity_insert (s : SparseSet) (id : Nat) :
    (s.insert id).2.capacity = s.capacity := by
  unfold insert capacity
  split
  · rfl
  · split <;> simp

theorem insert_of_mem {s : SparseSet} {id : Nat} (h : id ∈ s.toList) :
    s.insert id = (false, s) := by
  simp [insert, contains_iff_mem.mpr h]

theorem toList_insert {s : SparseSet} {id : Nat} (hid : id < s.capacity) (h : id ∉ s.toList) :
    (s.insert id).2.toList = s.toList ++ [id] := by
  have hid' : id < s.positions.size := hid
  have hc : ¬ s.contains id = true := fun hc ↦ h (contains_iff_mem.mp hc)
  simp [insert, hc, hid', toList]

theorem insert_fst {s : SparseSet} {id : Nat} (hid : id < s.capacity) :
    (s.insert id).1 = true ↔ id ∉ s.toList := by
  have hid' : id < s.positions.size := hid
  by_cases h : id ∈ s.toList <;> simp [insert, contains_iff_mem, h, hid']

end SparseSet

end Lockstep
