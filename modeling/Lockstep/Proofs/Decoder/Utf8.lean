import Lockstep.Decoder.Utf8
import Lockstep.Proofs.Ahead

/-!
# Strings as texts

Read as UTF-8, the bytes of a string give its characters back, forwards and backwards. So the
boundaries that the decoder comes to are those of the string, and the character before each of them
can be read at its offset.
-/

namespace Lockstep

namespace Utf8

/-! ## One character -/

/-- A lead byte and its tail spell a character. -/
structure Spells (lead : UInt8) (tail : List UInt8) (c : Char) : Prop where
  leads : isTail lead = false
  follows : tail.all isTail = true
  length_le : tail.length ≤ 3
  char : if lead < 0x80 then tail = [] ∧ Char.ofNat lead.toNat = c else sequence? lead tail = some c

theorem isTail_eq_true_iff {b : UInt8} : isTail b = true ↔ 0x80 ≤ b.toNat ∧ b.toNat < 0xC0 := by
  simp [isTail, UInt8.le_iff_toNat_le, UInt8.lt_iff_toNat_lt]

/-- Six bits of a number make a tail byte. -/
theorem toNat_tail (n : Nat) : (UInt8.ofNat (n % 64 + 128)).toNat = n % 64 + 128 := by
  rw [UInt8.toNat_ofNat']
  omega

theorem isTail_tail (n : Nat) : isTail (UInt8.ofNat (n % 64 + 128)) = true := by
  rw [isTail_eq_true_iff, toNat_tail]
  omega

theorem toNat_lead {n : Nat} (h : n < 256) : (UInt8.ofNat n).toNat = n := by
  rw [UInt8.toNat_ofNat', Nat.mod_eq_of_lt h]

/-- A lead byte from one range begins a sequence of one length. -/
theorem sequenceLength_eq {lead : UInt8} {n : Nat}
    (h : (n = 2 ∧ 0xC2 ≤ lead.toNat ∧ lead.toNat < 0xE0) ∨
    (n = 3 ∧ 0xE0 ≤ lead.toNat ∧ lead.toNat < 0xF0) ∨
    (n = 4 ∧ 0xF0 ≤ lead.toNat ∧ lead.toNat < 0xF5)) : sequenceLength lead = n := by
  have hlength : sequenceLength lead = if lead.toNat < 0xC2 then 1 else if lead.toNat < 0xE0 then 2
      else if lead.toNat < 0xF0 then 3 else if lead.toNat < 0xF5 then 4 else 1 := by
    simp only [sequenceLength, UInt8.lt_iff_toNat_lt]
    rfl
  rw [hlength]
  rcases h with ⟨rfl, h, h'⟩ | ⟨rfl, h, h'⟩ | ⟨rfl, h, h'⟩
  · rw [if_neg (by omega), if_pos h']
  · rw [if_neg (by omega), if_neg (by omega), if_pos h']
  · rw [if_neg (by omega), if_neg (by omega), if_neg (by omega), if_pos h']

/-- A lead byte and tail bytes spell the character that they add up to. -/
theorem spells_of_codePoint {lead : UInt8} {tail : List UInt8} {c : Char}
    (hlead : 0xC2 ≤ lead.toNat) (htail : tail.all isTail = true) (hne : tail ≠ [])
    (hle : tail.length ≤ 3) (hlength : sequenceLength lead = tail.length + 1)
    (hcode : codePoint lead tail = c.toNat) : Spells lead tail c := by
  have hvalid : c.toNat.isValidChar := c.valid
  refine ⟨Bool.eq_false_iff.mpr fun h ↦ ?_, htail, hle, ?_⟩
  · have := (isTail_eq_true_iff.mp h).2
    omega
  · have hascii : ¬ lead < 0x80 := by
      rw [UInt8.lt_iff_toNat_lt]
      exact Nat.not_lt.mpr (Nat.le_trans (by decide) hlead)
    rw [if_neg hascii, sequence?, if_pos ⟨hne, hlength.symm, htail⟩, hcode, charOf?, if_pos hvalid,
      c.ofNat_toNat]

/-- Each character is spelt by its encoding. -/
theorem exists_spells (c : Char) :
    ∃ lead tail, String.utf8EncodeChar c = lead :: tail ∧ Spells lead tail c := by
  have hmax : c.toNat < 0x110000 := by
    have hvalid : c.toNat.isValidChar := c.valid
    omega
  have hval : c.val.toNat = c.toNat := rfl
  fun_cases String.utf8EncodeChar c with
  | case1 v h =>
    have hlead := toNat_lead (n := v) (by omega)
    have hascii : UInt8.ofNat v < 0x80 := by
      rw [UInt8.lt_iff_toNat_lt, hlead]
      exact Nat.lt_succ_of_le h
    refine ⟨_, _, rfl, Bool.eq_false_iff.mpr fun h ↦ ?_, rfl, Nat.zero_le _, ?_⟩
    · have := (isTail_eq_true_iff.mp h).1
      omega
    · rw [if_pos hascii, hlead]
      exact ⟨rfl, c.ofNat_toNat⟩
  | case2 v h h' =>
    have hlead := toNat_lead (n := v / 64 % 32 + 192) (by omega)
    refine ⟨_, _, rfl, spells_of_codePoint (by omega) (by simp only [List.all_cons, List.all_nil,
      isTail_tail, Bool.and_self]) (by simp) (by simp)
      (sequenceLength_eq (.inl ⟨rfl, by omega, by omega⟩)) ?_⟩
    simp only [codePoint, List.foldl_cons, List.foldl_nil, List.length_cons, List.length_nil, hlead,
      toNat_tail, Nat.one_shiftLeft]
    omega
  | case3 v h h' h'' =>
    have hlead := toNat_lead (n := v / 4096 % 16 + 224) (by omega)
    refine ⟨_, _, rfl, spells_of_codePoint (by omega) (by simp only [List.all_cons, List.all_nil,
      isTail_tail, Bool.and_self]) (by simp) (by simp)
      (sequenceLength_eq (.inr (.inl ⟨rfl, by omega, by omega⟩))) ?_⟩
    simp only [codePoint, List.foldl_cons, List.foldl_nil, List.length_cons, List.length_nil, hlead,
      toNat_tail, Nat.one_shiftLeft]
    omega
  | case4 v h h' h'' =>
    have hlead := toNat_lead (n := v / 262144 % 8 + 240) (by omega)
    refine ⟨_, _, rfl, spells_of_codePoint (by omega) (by simp only [List.all_cons, List.all_nil,
      isTail_tail, Bool.and_self]) (by simp) (by simp)
      (sequenceLength_eq (.inr (.inr ⟨rfl, by omega, by omega⟩))) ?_⟩
    simp only [codePoint, List.foldl_cons, List.foldl_nil, List.length_cons, List.length_nil, hlead,
      toNat_tail, Nat.one_shiftLeft]
    omega

/-! ## One character of a text -/

theorem getElem?_append_cons {text : Text} {before after : List UInt8} {b : UInt8}
    (h : text.toList = before ++ b :: after) : text[before.length]? = some b := by
  rw [← Array.getElem?_toList, h, List.getElem?_append_right (Nat.le_refl _), Nat.sub_self,
    List.getElem?_cons_zero]

/-- Decoding the spelling of a character gives the character. -/
theorem Spells.decode {lead : UInt8} {tail : List UInt8} {c : Char} (h : Spells lead tail c)
    {text : Text} {before after : List UInt8}
    (htext : text.toList = before ++ lead :: (tail ++ after)) :
    Utf8.decode text before.length = some (c, tail.length + 1) := by
  have hchar := h.char
  rw [Utf8.decode, getElem?_append_cons htext]
  dsimp only
  by_cases hascii : lead < 0x80
  · rw [if_pos hascii] at hchar ⊢
    obtain ⟨rfl, rfl⟩ := hchar
    rfl
  · rw [if_neg hascii] at hchar ⊢
    have hlength : sequenceLength lead = tail.length + 1 := by
      unfold sequence? at hchar
      split at hchar
      · rename_i hs
        exact hs.2.1.symm
      · cases hchar
    have hextract : (text.extract (before.length + 1) (before.length + sequenceLength lead)).toList =
        tail := by
      have hcount : before.length + (tail.length + 1) - (before.length + 1) = tail.length := by omega
      rw [Array.toList_extract, htext, hlength]
      simp [List.extract, hcount]
    rw [hextract, hchar]
    dsimp only
    rw [hlength]

/-- Moving back over tail bytes comes to the byte before them, if there are not too many. -/
theorem leadOffset_eq {text : Text} {before after tail : List UInt8} {lead : UInt8}
    (hlead : isTail lead = false) (htail : tail.all isTail = true) {steps : Nat}
    (hsteps : tail.length ≤ steps) (htext : text.toList = before ++ lead :: (tail ++ after)) :
    leadOffset text steps (before.length + tail.length) = before.length := by
  induction steps generalizing tail after with
  | zero =>
    rw [leadOffset, Nat.le_zero.mp hsteps, Nat.add_zero]
  | succ steps ih =>
    rcases List.eq_nil_or_concat tail with rfl | ⟨tail, b, rfl⟩
    · have hget := getElem?_append_cons htext
      rw [leadOffset, List.length_nil, Nat.add_zero, hget, Option.any_some, hlead]
      rfl
    · rw [List.concat_eq_append, List.all_append, Bool.and_eq_true] at htail
      have hb : isTail b = true := by simpa using htail.2
      have htext' : text.toList = (before ++ lead :: tail) ++ b :: after := by
        rw [htext]
        simp
      have hget := getElem?_append_cons htext'
      have hoffset : before.length + (tail.concat b).length = (before ++ lead :: tail).length := by
        simp
      rw [leadOffset, hoffset, hget, Option.any_some, hb, if_pos rfl]
      have hpred : (before ++ lead :: tail).length - 1 = before.length + tail.length := by
        simp
      rw [hpred]
      rw [List.length_concat] at hsteps
      have htext' : text.toList = before ++ lead :: (tail ++ b :: after) := htext.trans (by simp)
      exact ih htail.1 (Nat.le_of_succ_le_succ hsteps) htext'

/-- Decoding backwards from the end of a character's spelling gives the character. -/
theorem Spells.decodePrev {lead : UInt8} {tail : List UInt8} {c : Char} (h : Spells lead tail c)
    {text : Text} {before after : List UInt8}
    (htext : text.toList = before ++ lead :: (tail ++ after)) :
    Utf8.decodePrev text (before.length + (tail.length + 1)) = some (c, tail.length + 1) := by
  have hsize : text.size = before.length + (tail.length + 1 + after.length) := by
    rw [← Array.length_toList, htext]
    simp
    omega
  have hoffset : before.length + (tail.length + 1) - 1 = before.length + tail.length := by omega
  have hsteps : tail.length ≤ min 3 (before.length + tail.length) := by
    have := h.length_le
    omega
  have hlead := leadOffset_eq h.leads h.follows hsteps htext
  rw [Utf8.decodePrev, if_neg (by omega), hoffset, hlead]
  dsimp only
  rw [h.decode htext]
  exact if_pos rfl

/-! ## The characters of a text -/

/-- The bytes of characters. -/
def encode (cs : List Char) : List UInt8 := cs.flatMap String.utf8EncodeChar

@[simp] theorem encode_nil : encode [] = [] := rfl

theorem encode_cons (c : Char) (cs : List Char) :
    encode (c :: cs) = String.utf8EncodeChar c ++ encode cs := List.flatMap_cons

theorem encode_append (cs cs' : List Char) : encode (cs ++ cs') = encode cs ++ encode cs' :=
  List.flatMap_append

theorem length_encode_concat (cs : List Char) (c : Char) :
    (encode (cs ++ [c])).length = (encode cs).length + c.utf8Size := by
  rw [encode_append, List.length_append, encode_cons, encode_nil, List.append_nil,
    String.length_utf8EncodeChar]

theorem toList_data_toUTF8 (s : String) : s.toUTF8.data.toList = encode s.toList := by
  rw [String.toUTF8_eq_toByteArray, ← String.utf8Encode_toList, List.utf8Encode,
    List.data_toByteArray]
  rfl

variable {text : Text} {before after : List Char} {c : Char}

/-- The decoder reads the character that stands at the end of the ones before it. -/
theorem decode_encode (htext : text.toList = encode (before ++ c :: after)) :
    decode text (encode before).length = some (c, c.utf8Size) := by
  obtain ⟨lead, tail, hencode, hspells⟩ := exists_spells c
  rw [encode_append, encode_cons, hencode] at htext
  rw [hspells.decode htext, ← String.length_utf8EncodeChar, hencode, List.length_cons]

/-- The character before an offset is the last of those before it. -/
theorem before?_encode (htext : text.toList = encode (before ++ after)) :
    Decoder.utf8.before? text (encode before).length = before.getLast? := by
  rcases List.eq_nil_or_concat before with rfl | ⟨before, c, rfl⟩
  · rfl
  · obtain ⟨lead, tail, hencode, hspells⟩ := exists_spells c
    rw [List.concat_eq_append, List.append_assoc, List.singleton_append, encode_append, encode_cons,
      hencode] at htext
    have hprev := hspells.decodePrev htext
    rw [List.concat_eq_append, length_encode_concat, ← String.length_utf8EncodeChar, hencode,
      List.length_cons]
    change (decodePrev text _).map (·.1) = _
    rw [hprev, List.getLast?_concat]
    rfl

/-- The boundaries that the decoder comes to are those around the characters. -/
theorem ahead_encode (htext : text.toList = encode (before ++ after)) (prev : Option Char) :
    Decoder.utf8.ahead text (encode before).length prev =
      Ahead.ofChars (encode before).length prev after := by
  induction after generalizing before prev with
  | nil =>
    have hsize : text.size = (encode before).length := by
      rw [← Array.length_toList, htext, List.append_nil]
    have hnone : decode text (encode before).length = none :=
      (decode_eq_none_iff _ _).mpr (Nat.le_of_eq hsize)
    exact Decoder.ahead_of_none hnone
  | cons c after ih =>
    have htext' : text.toList = encode ((before ++ [c]) ++ after) := by
      rw [htext, List.append_assoc, List.singleton_append]
    have ih := ih htext' (some c)
    rw [length_encode_concat] at ih
    rw [Ahead.ofChars, ← ih]
    exact Decoder.ahead_of_some (d := .utf8) (decode_encode htext)

end Utf8

/-! ## The places of a string -/

namespace Ahead

open Utf8 (encode)

/-- What lies ahead at a place of a string, with some characters before it and some after. -/
theorem exists_of_suffix_ofChars {before after : List Char} {bs : Ahead}
    (h : bs <:+ ofChars (encode before).length before.getLast? after) (hne : bs ≠ []) :
    ∃ before' after', before ++ after = before' ++ after' ∧
      bs = ofChars (encode before').length before'.getLast? after' := by
  induction after generalizing before with
  | nil =>
    rcases List.suffix_cons_iff.mp h with rfl | h
    · exact ⟨before, [], rfl, rfl⟩
    · exact absurd (List.suffix_nil.mp h) hne
  | cons c after ih =>
    rcases List.suffix_cons_iff.mp h with rfl | h
    · exact ⟨before, c :: after, rfl, rfl⟩
    · rw [← Utf8.length_encode_concat, ← List.getLast?_concat (l := before)] at h
      have ih := ih h
      rwa [List.append_assoc, List.singleton_append] at ih

theorem IsPlace.exists_ofChars {s : String} {bs : Ahead} (h : IsPlace s bs) :
    ∃ before after, s.toUTF8.data.toList = encode (before ++ after) ∧
      bs = ofChars (encode before).length before.getLast? after := by
  have hsuffix : bs <:+ ofChars (encode []).length [].getLast? s.toList := h.suffix
  obtain ⟨before, after, heq, hbs⟩ := exists_of_suffix_ofChars hsuffix h.ne_nil
  refine ⟨before, after, ?_, hbs⟩
  rw [Utf8.toList_data_toUTF8, ← heq, List.nil_append]

/-- There is no character after the last boundary. -/
theorem IsPlace.next_eq_none {s : String} {b : Boundary} (h : IsPlace s [b]) : b.next = none := by
  obtain ⟨before, after, -, heq⟩ := h.exists_ofChars
  cases after with
  | nil =>
    cases heq
    rfl
  | cons c after =>
    cases after <;> cases heq

@[simp] theorem offset_ofChars (offset : Nat) (prev : Option Char) (cs : List Char) :
    (ofChars offset prev cs).offset = offset := by
  cases cs <;> rfl

theorem ofChars_ne_nil (offset : Nat) (prev : Option Char) (cs : List Char) :
    ofChars offset prev cs ≠ [] := by
  cases cs <;> exact List.cons_ne_nil _ _

theorem offset_ofString (s : String) : (ofString s).offset = 0 := offset_ofChars 0 none s.toList

theorem isPlace_ofString (s : String) : IsPlace s (ofString s) :=
  ⟨List.suffix_rfl, ofChars_ne_nil 0 none s.toList⟩

theorem ahead_eq_ofString (s : String) : Decoder.utf8.ahead s.toUTF8.data 0 none = ofString s :=
  have htext : s.toUTF8.data.toList = encode ([] ++ s.toList) := Utf8.toList_data_toUTF8 s
  Utf8.ahead_encode htext none

theorem ordered_ofString (s : String) : Ordered (ofString s) := by
  rw [← ahead_eq_ofString]
  exact Decoder.ordered_ahead _ _ _ _

theorem IsPlace.offset_le {s : String} {bs bs' : Ahead} (h : IsPlace s bs) (hsuffix : bs' <:+ bs)
    (hne : bs' ≠ []) : bs.offset ≤ bs'.offset :=
  ((ordered_ofString s).suffix h.suffix).offset_le hsuffix hne

/-- What the decoder comes to from a place of a string on is what lies ahead there. -/
theorem IsPlace.ahead_offset {s : String} {bs : Ahead} (h : IsPlace s bs) :
    Decoder.utf8.ahead s.toUTF8.data bs.offset (Decoder.utf8.before? s.toUTF8.data bs.offset) =
      bs := by
  obtain ⟨before, after, htext, rfl⟩ := h.exists_ofChars
  rw [offset_ofChars, Utf8.before?_encode htext, Utf8.ahead_encode htext]

end Ahead

end Lockstep
