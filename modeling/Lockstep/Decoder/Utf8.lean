import Lockstep.Decoder

/-!
# UTF-8

The lead byte gives the length of a sequence, and each of its tail bytes adds six bits. A byte
that begins no sequence reads as the replacement character, on its own, so malformed text is read
to its end.
-/

namespace Lockstep

namespace Utf8

/-- The length of the sequence that a lead byte begins; 1 for a byte that leads no longer one. -/
def sequenceLength (lead : UInt8) : Nat :=
  if lead < 0xC2 then 1
  else if lead < 0xE0 then 2
  else if lead < 0xF0 then 3
  else if lead < 0xF5 then 4
  else 1

def isTail (b : UInt8) : Bool := 0x80 ≤ b && b < 0xC0

/-- The number that a lead byte and its tail spell. -/
def codePoint (lead : UInt8) (tail : List UInt8) : Nat :=
  tail.foldl (fun n b ↦ 64 * n + b.toNat % 64) (lead.toNat % (1 <<< (6 - tail.length)))

/-- The character with a number, if it is a scalar value. -/
def charOf? (n : Nat) : Option Char :=
  if n.isValidChar then some (Char.ofNat n) else none

/-- The character of a lead byte and its tail, if they make a whole sequence. -/
def sequence? (lead : UInt8) (tail : List UInt8) : Option Char :=
  if tail ≠ [] ∧ tail.length + 1 = sequenceLength lead ∧ tail.all isTail then
    charOf? (codePoint lead tail)
  else none

def decode (text : Text) (offset : Nat) : Option (Char × Nat) :=
  match text[offset]? with
  | none => none
  | some lead =>
    if lead < 0x80 then some (Char.ofNat lead.toNat, 1)
    else
      let n := sequenceLength lead
      match sequence? lead (text.extract (offset + 1) (offset + n)).toList with
      | some c => some (c, n)
      | none => some (Decoder.replacement, 1)

/-- Moves back over tail bytes from `offset`, at most `steps` times. -/
def leadOffset (text : Text) : (steps offset : Nat) → Nat
  | 0, offset => offset
  | steps + 1, offset =>
    if text[offset]?.any isTail then leadOffset text steps (offset - 1) else offset

/-- Reads the sequence that ends at an offset. One that ends elsewhere is no character's. -/
def decodePrev (text : Text) (offset : Nat) : Option (Char × Nat) :=
  if offset = 0 ∨ text.size < offset then none
  else
    let lead := leadOffset text (min 3 (offset - 1)) (offset - 1)
    match decode text lead with
    | some (c, n) => if lead + n = offset then some (c, n) else some (Decoder.replacement, 1)
    | none => some (Decoder.replacement, 1)

theorem decode_eq_none_iff (text : Text) (offset : Nat) :
    decode text offset = none ↔ text.size ≤ offset := by
  unfold decode
  split
  · simp_all
  · rename_i lead h
    obtain ⟨hlt, _⟩ := Array.getElem?_eq_some_iff.mp h
    constructor
    · split
      · simp
      · dsimp only
        split <;> simp
    · omega

theorem decode_advances (text : Text) (offset : Nat) (c : Char) (n : Nat)
    (h : decode text offset = some (c, n)) : 0 < n ∧ offset + n ≤ text.size := by
  unfold decode at h
  split at h
  · simp at h
  · rename_i lead hlead
    obtain ⟨hlt, _⟩ := Array.getElem?_eq_some_iff.mp hlead
    split at h
    · cases h
      omega
    · dsimp only at h
      split at h
      · rename_i c' hseq
        cases h
        unfold sequence? at hseq
        split at hseq
        · rename_i hs
          obtain ⟨_, hlen, _⟩ := hs
          simp only [Array.length_toList, Array.size_extract] at hlen
          omega
        · simp at hseq
      · cases h
        omega

end Utf8

def Decoder.utf8 : Decoder where
  decode := Utf8.decode
  decodePrev := Utf8.decodePrev
  asciiCompatible := true
  decode_advances := Utf8.decode_advances

end Lockstep
