import Lockstep.Decoder

/-!
# One byte a character

Each byte is the character with its number, so any bytes make a text.
-/

namespace Lockstep

namespace Latin1

def ofByte (b : UInt8) : Char := Char.ofNat b.toNat

def decode (text : Text) (offset : Nat) : Option (Char × Nat) :=
  text[offset]?.map fun b ↦ (ofByte b, 1)

def decodePrev (text : Text) (offset : Nat) : Option (Char × Nat) :=
  match offset with
  | 0 => none
  | offset + 1 => text[offset]?.map fun b ↦ (ofByte b, 1)

theorem decode_eq_none_iff (text : Text) (offset : Nat) :
    decode text offset = none ↔ text.size ≤ offset := by
  simp [decode]

theorem decode_advances (text : Text) (offset : Nat) (c : Char) (n : Nat)
    (h : decode text offset = some (c, n)) : 0 < n ∧ offset + n ≤ text.size := by
  obtain ⟨b, hb, h⟩ := Option.map_eq_some_iff.mp h
  obtain ⟨hlt, _⟩ := Array.getElem?_eq_some_iff.mp hb
  cases h
  omega

end Latin1

def Decoder.latin1 : Decoder where
  decode := Latin1.decode
  decodePrev := Latin1.decodePrev
  asciiCompatible := true
  decode_advances := Latin1.decode_advances

end Lockstep
