import Lockstep.Text

/-!
# Decoders

A decoder reads the character that begins at an offset, and the character that ends there. Each
character it reads takes it forward and not past the end of the text, so reading one character after
another comes to an end.
-/

namespace Lockstep

structure Decoder where
  /-- The character that begins at an offset, and its length in bytes. -/
  decode : Text → Nat → Option (Char × Nat)
  /-- The character that ends at an offset, and its length in bytes. -/
  decodePrev : Text → Nat → Option (Char × Nat)
  /-- ASCII characters are their own bytes, and these bytes stand for nothing else. -/
  asciiCompatible : Bool
  decode_advances : ∀ (text : Text) (offset : Nat) (c : Char) (n : Nat),
    decode text offset = some (c, n) → 0 < n ∧ offset + n ≤ text.size

namespace Decoder

/-- The character for bytes that encode none. -/
def replacement : Char := '\uFFFD'

/-- The character before an offset. -/
def before? (d : Decoder) (text : Text) (offset : Nat) : Option Char :=
  (d.decodePrev text offset).map (·.1)

end Decoder

end Lockstep
