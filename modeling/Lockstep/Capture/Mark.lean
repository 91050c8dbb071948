import Lockstep.Text

/-!
# Marks

A mark records that a boundary of a group was passed at an offset.
-/

namespace Lockstep

inductive Side where
  | opening
  | closing
deriving DecidableEq, Repr

structure Mark where
  side : Side
  group : Nat
  offset : Nat
deriving DecidableEq, Repr

namespace Mark

/-- The boundaries of all groups in one sequence: the opening of each group, then its closing. -/
def slot (m : Mark) : Nat :=
  match m.side with
  | .opening => 2 * m.group
  | .closing => 2 * m.group + 1

def ofSlot (slot offset : Nat) : Mark :=
  ⟨if slot % 2 = 0 then .opening else .closing, slot / 2, offset⟩

@[simp] theorem slot_ofSlot (slot offset : Nat) : (ofSlot slot offset).slot = slot := by
  by_cases h : slot % 2 = 0
  · rw [ofSlot, if_pos h]
    show 2 * (slot / 2) = slot
    omega
  · rw [ofSlot, if_neg h]
    show 2 * (slot / 2) + 1 = slot
    omega

@[simp] theorem ofSlot_slot (m : Mark) : ofSlot m.slot m.offset = m := by
  obtain ⟨side, group, offset⟩ := m
  cases side with
  | opening => simp [ofSlot, slot]
  | closing =>
    have hodd : (2 * group + 1) % 2 = 1 := by omega
    have hhalf : (2 * group + 1) / 2 = group := by omega
    simp [ofSlot, slot, hodd, hhalf]

end Mark

end Lockstep
