import Lockstep.Proofs.Scan.Assertions

/-!
# What shows of a set

A set is added to, asked, enlarged and emptied, in any order. All that shows of it is the list of the
numbers inserted since it was last emptied, without repetitions.

An emptied set forgets its members and keeps its positions. It could as well keep both, in two arrays
that are written over and never shortened: a position that is out of date may lead anywhere, but it
counts only if it leads to a live entry that leads back. Such arrays show the same.
-/

namespace Lockstep

namespace SparseSet

/-! ## Operations -/

/-- What may be done with a set. -/
inductive Op where
  | insert (id : Nat)
  | contains (id : Nat)
  | reserve (count : Nat)
  | clear
deriving DecidableEq, Repr

namespace Op

/-- The capacity after the operation. -/
def room (capacity : Nat) : Op → Nat
  | .insert _ | .contains _ | .clear => capacity
  | .reserve count => max capacity count

/-- What has been inserted since the set was last emptied, repetitions included, if it was `ids`
before the operation. -/
def inserted (ids : List Nat) : Op → List Nat
  | .insert id => ids ++ [id]
  | .contains _ => ids
  | .reserve _ | .clear => []

/-- The answer, if `ids` has been inserted since the set was last emptied: whether a number is new to
the set, or whether it is a member. -/
def answer (ids : List Nat) : Op → Option Bool
  | .insert id => some (id ∉ ids)
  | .contains id => some (id ∈ ids)
  | .reserve _ | .clear => none

/-- The number that the operation is about, if any, is below the capacity. -/
def Within (capacity : Nat) : Op → Prop
  | .insert id | .contains id => id < capacity
  | .reserve _ | .clear => True

/-- Each operation is about a number below the capacity that the set has by then. -/
def WithinAll (capacity : Nat) : List Op → Prop
  | [] => True
  | op :: ops => op.Within capacity ∧ WithinAll (op.room capacity) ops

/-- The answers to one operation after another. -/
def answers (ids : List Nat) : List Op → List (Option Bool)
  | [] => []
  | op :: ops => op.answer ids :: answers (op.inserted ids) ops

instance (capacity : Nat) : (op : Op) → Decidable (op.Within capacity)
  | .insert id | .contains id => inferInstanceAs (Decidable (id < capacity))
  | .reserve _ | .clear => .isTrue trivial

instance decidableWithinAll (capacity : Nat) : (ops : List Op) → Decidable (WithinAll capacity ops)
  | [] => .isTrue trivial
  | op :: ops =>
    have := decidableWithinAll (op.room capacity) ops
    inferInstanceAs (Decidable (op.Within capacity ∧ WithinAll (op.room capacity) ops))

/-- Performs one operation after another, and gives the answers and what is left. It gives nothing if
some operation gives nothing. -/
def performAll? {σ : Type} (perform? : σ → Op → Option (Option Bool × σ)) :
    σ → List Op → Option (List (Option Bool) × σ)
  | s, [] => some ([], s)
  | s, op :: ops => do
    let (answer, s) ← perform? s op
    let (answers, s) ← performAll? perform? s ops
    some (answer :: answers, s)

/-- What each operation keeps holds after all of them, and the answers are the right ones. -/
theorem exists_performAll? {σ : Type} {perform? : σ → Op → Option (Option Bool × σ)}
    (R : Nat → List Nat → σ → Prop)
    (hstep : ∀ capacity ids s (op : Op), R capacity ids s → op.Within capacity →
      ∃ s', perform? s op = some (op.answer ids, s') ∧ R (op.room capacity) (op.inserted ids) s')
    {capacity : Nat} {ids : List Nat} {s : σ} (h : R capacity ids s) {ops : List Op}
    (hops : WithinAll capacity ops) :
    ∃ s', performAll? perform? s ops = some (answers ids ops, s') ∧
      R (ops.foldl room capacity) (ops.foldl inserted ids) s' := by
  induction ops generalizing capacity ids s with
  | nil => exact ⟨s, rfl, h⟩
  | cons op ops ih =>
    obtain ⟨s₁, hop, h₁⟩ := hstep capacity ids s op h hops.1
    obtain ⟨s₂, hall, h₂⟩ := ih h₁ hops.2
    refine ⟨s₂, ?_, h₂⟩
    rw [performAll?, hop]
    show (performAll? perform? s₁ ops).bind _ = _
    rw [hall]
    rfl

end Op

/-- Performs an operation. What it is about has to be below the capacity, and there has to be room for
what is added. -/
def perform? (s : SparseSet) : Op → Option (Option Bool × SparseSet)
  | .insert id => do
    let (fresh, s) ← s.insert? id
    some (some fresh, s)
  | .contains id => if id < s.capacity then some (some (s.contains id), s) else none
  | .reserve count => some (none, s.reserve count)
  | .clear => some (none, s.clear)

/-- The set has the given capacity, and `ids` without repetitions as its members. -/
structure Lists (capacity : Nat) (ids : List Nat) (s : SparseSet) : Prop where
  toList : s.toList = ids.eraseDups
  capacity : s.capacity = capacity

variable {s s' : SparseSet} {room id : Nat} {ids : List Nat} {op : Op}

theorem lists_ofCapacity (capacity : Nat) : Lists capacity [] (ofCapacity capacity) :=
  ⟨rfl, capacity_ofCapacity capacity⟩

theorem Lists.mem_iff (h : Lists room ids s) : id ∈ s.toList ↔ id ∈ ids := by
  rw [h.toList, List.mem_eraseDups]

theorem Lists.contains_eq (h : Lists room ids s) (id : Nat) :
    s.contains id = decide (id ∈ ids) := by
  rw [Bool.eq_iff_iff, contains_iff_mem, h.mem_iff, decide_eq_true_iff]

theorem Lists.insert (h : Lists room ids s) (hid : id < room) :
    (s.insert id).1 = decide (id ∉ ids) ∧ Lists room (ids ++ [id]) (s.insert id).2 := by
  have hid' : id < s.capacity := h.capacity.symm ▸ hid
  refine ⟨?_, ?_, (capacity_insert s id).trans h.capacity⟩
  · rw [Bool.eq_iff_iff, insert_fst hid', h.mem_iff, decide_eq_true_iff]
  · rw [eraseDups_concat, ← h.toList]
    by_cases hmem : id ∈ ids
    · rw [insert_of_mem (h.mem_iff.mpr hmem), if_pos hmem, List.append_nil]
    · rw [toList_insert hid' (mt h.mem_iff.mp hmem), if_neg hmem]

theorem Lists.perform? (h : Lists room ids s) (hop : op.Within room) :
    ∃ s', s.perform? op = some (op.answer ids, s') ∧ Lists (op.room room) (op.inserted ids) s' := by
  cases op with
  | insert id =>
    obtain ⟨hfresh, hlists⟩ := h.insert hop
    refine ⟨(s.insert id).2, ?_, hlists⟩
    rw [SparseSet.perform?, insert?_eq (h.capacity.symm ▸ hop), Op.answer, ← hfresh]
    rfl
  | contains id =>
    refine ⟨s, ?_, h⟩
    rw [SparseSet.perform?, if_pos (h.capacity.symm ▸ hop), h.contains_eq]
    rfl
  | reserve count => exact ⟨s.reserve count, rfl, rfl, h.capacity ▸ capacity_reserve s count⟩
  | clear => exact ⟨s.clear, rfl, rfl, h.capacity⟩

/-! ## Arrays of full length -/

/-- A set in two arrays of one length. Only the first `size` members count, and what is after them
stays until it is written over. -/
structure Arrays where
  size : Nat
  members : Array Nat
  positions : Array Nat
deriving DecidableEq, Repr

namespace Arrays

/-- The empty set, whatever the arrays hold. -/
def empty {capacity : Nat} (members positions : Vector Nat capacity) : Arrays :=
  ⟨0, members.toArray, positions.toArray⟩

def capacity (a : Arrays) : Nat := a.members.size

def toList (a : Arrays) : List Nat := a.members.toList.take a.size

/-- Whether the live entry that `id` leads to leads back. Entries beyond an array cannot be read. -/
def contains? (a : Arrays) (id : Nat) : Option Bool := do
  let i ← a.positions[id]?
  if i < a.size then do
    let member ← a.members[i]?
    some (member == id)
  else some false

/-- Writes `id` after the live entries, for which there has to be room, unless it is a member. -/
def insert? (a : Arrays) (id : Nat) : Option (Bool × Arrays) := do
  if ← a.contains? id then some (false, a)
  else if a.size < a.members.size then
    some (true,
      ⟨a.size + 1, a.members.setIfInBounds a.size id, a.positions.setIfInBounds id a.size⟩)
  else none

def clear (a : Arrays) : Arrays := ⟨0, a.members, a.positions⟩

/-- Removes all members, and lengthens the arrays if they are shorter than `count`. -/
def reserve (a : Arrays) (count : Nat) : Arrays :=
  if a.members.size < count then
    ⟨0, a.members ++ Array.replicate (count - a.members.size) 0,
      a.positions ++ Array.replicate (count - a.positions.size) 0⟩
  else a.clear

def perform? (a : Arrays) : Op → Option (Option Bool × Arrays)
  | .insert id => do
    let (fresh, a) ← a.insert? id
    some (some fresh, a)
  | .contains id => do
    let member ← a.contains? id
    some (some member, a)
  | .reserve count => some (none, a.reserve count)
  | .clear => some (none, a.clear)

/-- The live entries are the members of `s`, and the positions are the same, those that are out of
date too. -/
structure Holds (a : Arrays) (s : SparseSet) : Prop where
  size : a.size = s.size
  toList : a.toList = s.toList
  capacity : a.capacity = s.capacity
  positions : a.positions = s.positions

variable {a : Arrays}

theorem Holds.getElem?_members (h : a.Holds s) {i : Nat} (hi : i < a.size) :
    a.members[i]? = s.members[i]? := by
  have hlist : (a.members.toList.take a.size)[i]? = s.members.toList[i]? :=
    congrArg (·[i]?) h.toList
  rw [List.getElem?_take_of_lt hi] at hlist
  simpa only [Array.getElem?_toList] using hlist

theorem Holds.contains?_eq (h : a.Holds s) (hid : id < s.capacity) :
    a.contains? id = some (s.contains id) := by
  obtain ⟨i, hi⟩ : ∃ i, s.positions[id]? = some i := ⟨_, Array.getElem?_eq_getElem hid⟩
  have hsize : a.size = s.members.size := h.size
  rw [contains?, h.positions, hi, SparseSet.contains, position?, hi]
  by_cases hlive : i < a.size
  · obtain ⟨member, hmember⟩ : ∃ member, s.members[i]? = some member :=
      ⟨_, Array.getElem?_eq_getElem (hsize ▸ hlive)⟩
    have hmember' : a.members[i]? = some member := (h.getElem?_members hlive).trans hmember
    by_cases heq : member = id <;> simp [hlive, hmember, hmember', heq]
  · have hdead : s.members[i]? = none := Array.getElem?_eq_none (hsize ▸ Nat.not_lt.mp hlive)
    simp [hlive, hdead]

theorem positions_insert (hid : id < s.capacity) (hnew : id ∉ s.toList) :
    (s.insert id).2.positions = s.positions.setIfInBounds id s.size := by
  have hcontains : ¬ s.contains id = true := mt contains_iff_mem.mp hnew
  have hid' : id < s.positions.size := hid
  simp [SparseSet.insert, hcontains, hid', SparseSet.size, Array.setIfInBounds]

/-- What is written after the live entries comes last among them. -/
theorem toList_setIfInBounds (a : Arrays) (positions : Array Nat) (hroom : a.size < a.capacity) :
    toList ⟨a.size + 1, a.members.setIfInBounds a.size id, positions⟩ = a.toList ++ [id] := by
  have hlength : a.size < a.members.toList.length := hroom
  rw [toList, toList, Array.toList_setIfInBounds, List.take_add_one,
    List.take_set_of_le (Nat.le_refl _), List.getElem?_set_self hlength]
  rfl

theorem Holds.write (h : a.Holds s) (hid : id < s.capacity) (hnew : id ∉ s.toList)
    (hroom : a.size < a.capacity) :
    Holds ⟨a.size + 1, a.members.setIfInBounds a.size id, a.positions.setIfInBounds id a.size⟩
      (s.insert id).2 where
  size := by rw [h.size, size_insert hid hnew]
  toList := by rw [toList_setIfInBounds a _ hroom, h.toList, toList_insert hid hnew]
  capacity := by
    rw [capacity_insert, ← h.capacity, Arrays.capacity, Array.size_setIfInBounds, Arrays.capacity]
  positions := by rw [positions_insert hid hnew, h.positions, h.size]

theorem Holds.insert? (h : a.Holds s) (hid : id < s.capacity) :
    ∃ a', a.insert? id = some ((s.insert id).1, a') ∧ a'.Holds (s.insert id).2 := by
  rw [Arrays.insert?, h.contains?_eq hid]
  by_cases hmem : id ∈ s.toList
  · rw [contains_iff_mem.mpr hmem, insert_of_mem hmem]
    exact ⟨a, rfl, h⟩
  · have hcontains : s.contains id = false := Bool.eq_false_iff.mpr (mt contains_iff_mem.mp hmem)
    have hfresh : (s.insert id).1 = true := (insert_fst hid).mpr hmem
    -- members are distinct and below the capacity, so an absent one leaves a place
    have hroom : a.size < a.capacity := by
      rw [h.size, h.capacity]
      exact size_lt_capacity hid hmem
    refine ⟨_, ?_, h.write hid hmem hroom⟩
    rw [hcontains, hfresh]
    exact if_pos hroom

theorem Holds.clear (h : a.Holds s) : a.clear.Holds s.clear :=
  ⟨rfl, rfl, h.capacity, h.positions⟩

theorem reserve_eq (hsize : a.positions.size = a.members.size) (count : Nat) :
    a.reserve count = ⟨0, a.members ++ Array.replicate (count - a.members.size) 0,
      a.positions ++ Array.replicate (count - a.positions.size) 0⟩ := by
  rw [reserve]
  split
  case isTrue => rfl
  case isFalse hle =>
    have hnone : count - a.members.size = 0 := Nat.sub_eq_zero_of_le (Nat.not_lt.mp hle)
    rw [hsize, hnone, Array.replicate_zero, Array.append_empty, Array.append_empty]
    rfl

theorem Holds.reserve (h : a.Holds s) (count : Nat) : (a.reserve count).Holds (s.reserve count) := by
  have hsize : a.positions.size = a.members.size := h.positions ▸ h.capacity.symm
  rw [reserve_eq hsize]
  refine ⟨rfl, rfl, ?_, ?_⟩
  · rw [capacity_reserve, ← h.capacity, Arrays.capacity, Array.size_append, Array.size_replicate]
    show _ = max a.members.size count
    omega
  · rw [h.positions]
    rfl

/-- Every operation answers as on the set without the entries that are out of date. -/
theorem Holds.perform? (h : a.Holds s) (hop : op.Within s.capacity) {answer : Option Bool}
    (hs : s.perform? op = some (answer, s')) : ∃ a', a.perform? op = some (answer, a') ∧ a'.Holds s' := by
  cases op with
  | insert id =>
    obtain ⟨a', ha, hholds⟩ := h.insert? hop
    rw [SparseSet.perform?, insert?_eq hop] at hs
    cases hs
    refine ⟨a', ?_, hholds⟩
    rw [Arrays.perform?, ha]
    rfl
  | contains id =>
    have hid : id < s.capacity := hop
    rw [SparseSet.perform?, if_pos hid] at hs
    cases hs
    refine ⟨a, ?_, h⟩
    rw [Arrays.perform?, h.contains?_eq hid]
    rfl
  | reserve count =>
    cases hs
    exact ⟨a.reserve count, rfl, h.reserve count⟩
  | clear =>
    cases hs
    exact ⟨a.clear, rfl, h.clear⟩

/-- The live entries are `ids` without repetitions, in a set of the given capacity. -/
def Lists (capacity : Nat) (ids : List Nat) (a : Arrays) : Prop :=
  ∃ s, SparseSet.Lists capacity ids s ∧ a.Holds s

theorem lists_empty (members positions : Vector Nat room) :
    Lists room [] (empty members positions) :=
  ⟨⟨#[], positions.toArray, by simp⟩, ⟨rfl, positions.size_toArray⟩, rfl, rfl,
    members.size_toArray.trans positions.size_toArray.symm, rfl⟩

theorem Lists.perform? (h : Lists room ids a) (hop : op.Within room) :
    ∃ a', a.perform? op = some (op.answer ids, a') ∧ Lists (op.room room) (op.inserted ids) a' := by
  obtain ⟨s, hlists, hholds⟩ := h
  obtain ⟨s', hs, hlists'⟩ := hlists.perform? hop
  obtain ⟨a', ha, hholds'⟩ := hholds.perform? (hlists.capacity.symm ▸ hop) hs
  exact ⟨a', ha, s', hlists', hholds'⟩

end Arrays

/-! ## Histories -/

/-- A set shows the numbers inserted since it was last emptied, in the order in which they first came
and without repetitions, and nothing else. Inserting tells whether a number is new to them, and asking
whether it is among them. They never outgrow the capacity, which is the largest that the set was
given. The arrays of a set show the same, whatever they held at first. -/
theorem performAll?_eq_answers (capacity : Nat) (ops : List Op) (h : Op.WithinAll capacity ops) :
    let ids := ops.foldl Op.inserted []
    let room := ops.foldl Op.room capacity
    (∃ s, Op.performAll? SparseSet.perform? (ofCapacity capacity) ops =
        some (Op.answers [] ops, s) ∧
      s.toList = ids.eraseDups ∧ s.size = ids.eraseDups.length ∧ s.capacity = room ∧
        s.size ≤ s.capacity) ∧
      ∀ members positions : Vector Nat capacity,
        ∃ a, Op.performAll? Arrays.perform? (.empty members positions) ops =
            some (Op.answers [] ops, a) ∧
          a.toList = ids.eraseDups ∧ a.size = ids.eraseDups.length ∧ a.capacity = room ∧
            a.size ≤ a.capacity := by
  intro ids room
  have hsize {s : SparseSet} (hlists : Lists room ids s) : s.size = ids.eraseDups.length :=
    hlists.toList ▸ s.length_toList.symm
  constructor
  · obtain ⟨s, hs, hlists⟩ := Op.exists_performAll? Lists (fun _ _ _ _ hlists ↦ hlists.perform?)
      (lists_ofCapacity capacity) h
    exact ⟨s, hs, hlists.toList, hsize hlists, hlists.capacity, s.size_le_capacity⟩
  · intro members positions
    obtain ⟨a, ha, s, hlists, hholds⟩ := Op.exists_performAll? Arrays.Lists
      (fun _ _ _ _ hlists ↦ hlists.perform?) (Arrays.lists_empty members positions) h
    refine ⟨a, ha, hholds.toList.trans hlists.toList, hholds.size.trans (hsize hlists),
      hholds.capacity.trans hlists.capacity, ?_⟩
    rw [hholds.size, hholds.capacity]
    exact s.size_le_capacity

/-- A set that is full, emptied and enlarged twice, once to less than it has, in arrays that look full
at first. -/
theorem performAll?_eq_answers_of_stale :
    let ops : List Op := [.contains 1, .insert 1, .insert 0, .insert 1, .clear, .contains 0,
      .insert 0, .contains 1, .reserve 5, .contains 0, .insert 4, .insert 0, .insert 4, .clear,
      .reserve 3, .insert 4, .contains 0, .insert 1, .insert 4]
    let answers := [some false, some true, some true, some false, none, some false, some true,
      some false, none, some false, some true, some true, some false, none, none, some true,
      some false, some true, some false]
    Op.WithinAll 2 ops ∧
      (∃ s, Op.performAll? SparseSet.perform? (ofCapacity 2) ops = some (answers, s) ∧
        s.toList = [4, 1] ∧ s.capacity = 5) ∧
      ∃ a, Op.performAll? Arrays.perform? (.empty #v[1, 0] #v[1, 0]) ops = some (answers, a) ∧
        a.toList = [4, 1] ∧ a.capacity = 5 := by
  intro ops answers
  have hops : Op.WithinAll 2 ops := by decide
  obtain ⟨⟨s, hs, hlist, -, hcapacity, -⟩, harrays⟩ := performAll?_eq_answers 2 ops hops
  obtain ⟨a, ha, hlist', -, hcapacity', -⟩ := harrays #v[1, 0] #v[1, 0]
  exact ⟨hops, ⟨s, hs, hlist, hcapacity⟩, a, ha, hlist', hcapacity'⟩

end SparseSet

end Lockstep
