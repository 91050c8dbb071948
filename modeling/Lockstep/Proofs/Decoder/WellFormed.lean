import Mathlib.Data.List.Basic
import Lockstep.Proofs.Decoder.Chain

/-!
# Well-formed sequences

What the decoder reads in one piece is the encoding of the character that it gives, except for one
slip: a lead byte of three or four bytes may begin a sequence for a character that fewer bytes
encode. The leads of two bytes for which this would happen are refused by their number, and surrogates
and numbers past the last character by theirs, so the overlong sequences are all that is amiss. Where
none stands, a character comes from its own bytes only, and bytes that encode none are read one at a
time.
-/

namespace Lockstep

namespace Utf8

variable {lead : UInt8} {tail : List UInt8} {c : Char} {text : Text} {offset n : Nat}

/-! ## Whole sequences -/

/-- A lead byte, as many tail bytes as it asks for, and the character whose number they spell. -/
inductive Whole : UInt8 → List UInt8 → Char → Prop where
  | two (b : UInt8) {lead : UInt8} {c : Char} (h : isTail b = true) (hlo : 0xC2 ≤ lead.toNat)
      (hhi : lead.toNat < 0xE0) (hcode : c.toNat = 64 * (lead.toNat % 32) + b.toNat % 64) :
      Whole lead [b] c
  | three (b b' : UInt8) {lead : UInt8} {c : Char} (h : isTail b = true)
      (h' : isTail b' = true) (hlo : 0xE0 ≤ lead.toNat) (hhi : lead.toNat < 0xF0)
      (hcode : c.toNat = 64 * (64 * (lead.toNat % 16) + b.toNat % 64) + b'.toNat % 64) :
      Whole lead [b, b'] c
  | four (b b' b'' : UInt8) {lead : UInt8} {c : Char} (h : isTail b = true)
      (h' : isTail b' = true) (h'' : isTail b'' = true) (hlo : 0xF0 ≤ lead.toNat)
      (hhi : lead.toNat < 0xF5) (hcode : c.toNat =
        64 * (64 * (64 * (lead.toNat % 8) + b.toNat % 64) + b'.toNat % 64) + b''.toNat % 64) :
      Whole lead [b, b', b''] c

theorem toNat_ofNat (h : n.isValidChar) : (Char.ofNat n).toNat = n := by
  rw [Char.ofNat, dif_pos h]
  rfl

/-- The leads of longer sequences, by the length of the tail. -/
theorem lead_of_sequenceLength (h : sequenceLength lead = n + 1) (hne : n ≠ 0) :
    (n = 1 ∧ 0xC2 ≤ lead.toNat ∧ lead.toNat < 0xE0) ∨
      (n = 2 ∧ 0xE0 ≤ lead.toNat ∧ lead.toNat < 0xF0) ∨
      (n = 3 ∧ 0xF0 ≤ lead.toNat ∧ lead.toNat < 0xF5) := by
  simp only [sequenceLength, UInt8.lt_iff_toNat_lt, UInt8.reduceToNat] at h
  split at h
  · omega
  · split at h
    · omega
    · split at h
      · omega
      · split at h <;> omega

theorem whole_of_sequence? (h : sequence? lead tail = some c) : Whole lead tail c := by
  unfold sequence? at h
  split at h
  case isFalse => cases h
  case isTrue hand =>
  obtain ⟨hne, hlength, htail⟩ := hand
  unfold charOf? at h
  split at h
  case isFalse => cases h
  case isTrue hvalid =>
  have hnumber : c.toNat = codePoint lead tail := by
    rw [← Option.some.inj h, toNat_ofNat hvalid]
  have hlead := lead_of_sequenceLength hlength.symm (Nat.ne_of_gt (List.length_pos_iff.mpr hne))
  rcases hlead with ⟨hlength, hlo, hhi⟩ | ⟨hlength, hlo, hhi⟩ | ⟨hlength, hlo, hhi⟩
  · obtain ⟨b, rfl⟩ := List.length_eq_one_iff.mp hlength
    exact .two _ (by simpa using htail) hlo hhi hnumber
  · obtain ⟨b, b', rfl⟩ := List.length_eq_two.mp hlength
    have hall : isTail b = true ∧ isTail b' = true := by simpa using htail
    exact .three _ _ hall.1 hall.2 hlo hhi hnumber
  · obtain ⟨b, b', b'', rfl⟩ := List.length_eq_three.mp hlength
    have hall : isTail b = true ∧ isTail b' = true ∧ isTail b'' = true := by simpa using htail
    exact .four _ _ _ hall.1 hall.2.1 hall.2.2 hlo hhi hnumber

theorem length_of_sequence? (h : sequence? lead tail = some c) :
    tail.length + 1 = sequenceLength lead := by
  unfold sequence? at h
  split at h
  case isTrue hand => exact hand.2.1
  case isFalse => cases h

/-- A whole sequence spells its character, be it the character's encoding or not. -/
theorem Whole.spells (h : Whole lead tail c) : Spells lead tail c := by
  cases h with
  | two b h hlo hhi hcode =>
    exact spells_of_codePoint hlo (by simp [h]) (by simp) (by simp)
      (sequenceLength_eq (.inl ⟨rfl, hlo, hhi⟩)) hcode.symm
  | three b b' h h' hlo hhi hcode =>
    exact spells_of_codePoint (by omega) (by simp [h, h']) (by simp) (by simp)
      (sequenceLength_eq (.inr (.inl ⟨rfl, hlo, hhi⟩))) hcode.symm
  | four b b' b'' h h' h'' hlo hhi hcode =>
    exact spells_of_codePoint (by omega) (by simp [h, h', h'']) (by simp) (by simp)
      (sequenceLength_eq (.inr (.inr ⟨rfl, hlo, hhi⟩))) hcode.symm

theorem Whole.length_pos (h : Whole lead tail c) : 0 < tail.length := by
  cases h <;> exact Nat.succ_pos _

/-! ## Overlong sequences -/

/-- Sequences that are whole, but longer than the encoding of their character. The number of a
surrogate is no character's. -/
inductive Overlong : List UInt8 → Prop where
  | three (b b' : UInt8) (h : isTail b = true) (h' : isTail b' = true) (hlt : b.toNat < 0xA0) :
      Overlong [0xE0, b, b']
  | four (b b' b'' : UInt8) (h : isTail b = true) (h' : isTail b' = true)
      (h'' : isTail b'' = true) (hlt : b.toNat < 0x90) (hscalar : ¬ (b.toNat = 0x8D ∧ 0xA0 ≤ b'.toNat)) :
      Overlong [0xF0, b, b', b'']

/-- An overlong sequence stands at an offset of a text. -/
def OverlongAt (text : Text) (offset : Nat) : Prop :=
  ∃ bytes, Overlong bytes ∧ bytes <+: text.toList.drop offset

theorem utf8Size_eq (c : Char) : c.utf8Size =
    if c.toNat < 0x80 then 1 else if c.toNat < 0x800 then 2 else if c.toNat < 0x10000 then 3 else 4 := by
  simp only [Char.utf8Size, UInt32.le_iff_toNat_le, ← Nat.lt_succ_iff]
  rfl

/-- A whole sequence that is not overlong has the length of its character's encoding. -/
theorem Whole.utf8Size_eq (h : Whole lead tail c) (hoverlong : ¬ Overlong (lead :: tail)) :
    c.utf8Size = tail.length + 1 := by
  have hvalid : c.toNat.isValidChar := c.valid
  rw [Utf8.utf8Size_eq]
  cases h with
  | two b h hlo hhi hcode =>
    rw [if_neg (by omega), if_pos (by omega)]
    rfl
  | three b b' h h' hlo hhi hcode =>
    have hlong : lead.toNat = 0xE0 → ¬ b.toNat < 0xA0 := by
      intro hlead hlt
      obtain rfl : lead = 0xE0 := UInt8.toNat_inj.mp hlead
      exact hoverlong (.three b b' h h' hlt)
    have hrange := isTail_eq_true_iff.mp h
    rw [if_neg (by omega), if_neg (by omega), if_pos (by omega)]
    rfl
  | four b b' b'' h h' h'' hlo hhi hcode =>
    have hrange := isTail_eq_true_iff.mp h
    have hrange' := isTail_eq_true_iff.mp h'
    have hlong : lead.toNat = 0xF0 → ¬ b.toNat < 0x90 := by
      intro hlead hlt
      obtain rfl : lead = 0xF0 := UInt8.toNat_inj.mp hlead
      exact hoverlong (.four b b' b'' h h' h'' hlt fun hand ↦ by omega)
    rw [if_neg (by omega), if_neg (by omega), if_neg (by omega)]
    rfl

/-- The character of an overlong sequence has a shorter encoding. -/
theorem Whole.utf8Size_lt (h : Whole lead tail c) (hoverlong : Overlong (lead :: tail)) :
    c.utf8Size < tail.length + 1 := by
  rw [Utf8.utf8Size_eq]
  cases hoverlong with
  | three b b' hb hb' hlt =>
    cases h with
    | three _ _ h h' hlo hhi hcode =>
      have hrange := isTail_eq_true_iff.mp h
      simp only [UInt8.reduceToNat] at hcode
      rw [if_pos (show c.toNat < 0x800 by omega)]
      split <;> simp
  | four b b' b'' hb hb' hb'' hlt hscalar =>
    cases h with
    | four _ _ _ h h' h'' hlo hhi hcode =>
      have hrange := isTail_eq_true_iff.mp h
      simp only [UInt8.reduceToNat] at hcode
      rw [if_pos (show c.toNat < 0x10000 by omega)]
      split
      · simp
      · split <;> simp

/-- An overlong sequence is a whole one. -/
theorem Overlong.exists_whole {bytes : List UInt8} (h : Overlong bytes) :
    ∃ lead tail c, bytes = lead :: tail ∧ Whole lead tail c := by
  cases h with
  | three b b' h h' hlt =>
    have hcode := toNat_ofNat (n := 64 * (b.toNat % 64) + b'.toNat % 64) (.inl (by omega))
    refine ⟨0xE0, [b, b'], _, rfl, .three b b' h h' (by decide) (by decide) (hcode.trans ?_)⟩
    simp only [UInt8.reduceToNat]
    omega
  | four b b' b'' h h' h'' hlt hscalar =>
    have hrange := isTail_eq_true_iff.mp h
    have hrange' := isTail_eq_true_iff.mp h'
    have hcode := toNat_ofNat (n := 64 * (64 * (b.toNat % 64) + b'.toNat % 64) + b''.toNat % 64)
      (by simp only [Nat.isValidChar]; omega)
    refine ⟨0xF0, [b, b', b''], _, rfl,
      .four b b' b'' h h' h'' (by decide) (by decide) (hcode.trans ?_)⟩
    simp only [UInt8.reduceToNat]
    omega

/-- Of the whole sequences of one length, one only is for a character. -/
theorem Whole.unique {lead' : UInt8} {tail' : List UInt8} (h : Whole lead tail c)
    (h' : Whole lead' tail' c) (hlength : tail.length = tail'.length) :
    lead = lead' ∧ tail = tail' := by
  have eq_of_toNat : ∀ {b b' : UInt8}, isTail b = true → isTail b' = true →
      b.toNat % 64 = b'.toNat % 64 → b = b' := by
    intro b b' hb hb' hmod
    have hrange := isTail_eq_true_iff.mp hb
    have hrange' := isTail_eq_true_iff.mp hb'
    exact UInt8.toNat_inj.mp (by omega)
  cases h with
  | two b hb hlo hhi hcode =>
    cases h' with
    | two b' hb' hlo' hhi' hcode' =>
      obtain rfl := eq_of_toNat hb hb' (by omega)
      exact ⟨UInt8.toNat_inj.mp (by omega), rfl⟩
    | three => cases hlength
    | four => cases hlength
  | three b₁ b₂ h₁ h₂ hlo hhi hcode =>
    cases h' with
    | two => cases hlength
    | three b₁' b₂' h₁' h₂' hlo' hhi' hcode' =>
      obtain rfl := eq_of_toNat h₂ h₂' (by omega)
      obtain rfl := eq_of_toNat h₁ h₁' (by omega)
      exact ⟨UInt8.toNat_inj.mp (by omega), rfl⟩
    | four => cases hlength
  | four b₁ b₂ b₃ h₁ h₂ h₃ hlo hhi hcode =>
    cases h' with
    | two => cases hlength
    | three => cases hlength
    | four b₁' b₂' b₃' h₁' h₂' h₃' hlo' hhi' hcode' =>
      obtain rfl := eq_of_toNat h₃ h₃' (by omega)
      obtain rfl := eq_of_toNat h₂ h₂' (by omega)
      obtain rfl := eq_of_toNat h₁ h₁' (by omega)
      exact ⟨UInt8.toNat_inj.mp (by omega), rfl⟩

/-- A whole sequence that is not overlong is the encoding of its character. -/
theorem Whole.eq_encode (h : Whole lead tail c) (hoverlong : ¬ Overlong (lead :: tail)) :
    lead :: tail = String.utf8EncodeChar c := by
  obtain ⟨lead', tail', hencode, hspells⟩ := exists_spells c
  have hlength : tail.length = tail'.length := by
    have hsize := String.length_utf8EncodeChar c
    rw [hencode, h.utf8Size_eq hoverlong, List.length_cons] at hsize
    exact (Nat.succ.inj hsize).symm
  have hchar := hspells.char
  split at hchar
  · have hpos := h.length_pos
    rw [hlength, hchar.1] at hpos
    exact absurd hpos (Nat.lt_irrefl 0)
  · obtain ⟨rfl, rfl⟩ := h.unique (whole_of_sequence? hchar) hlength
    exact hencode.symm

/-! ## Reading at an offset -/

theorem encode_of_ascii (hascii : c.val < 0x80) : String.utf8EncodeChar c = [c.val.toUInt8] :=
  String.utf8EncodeChar_eq_singleton
    (Char.utf8Size_eq_one_iff.mpr (UInt32.le_iff_toNat_le.mpr (Nat.le_of_lt_succ
      (UInt32.lt_iff_toNat_lt.mp hascii))))

/-- The character of an ASCII byte is encoded by the byte. -/
theorem encode_ofByte {b : UInt8} (hb : b < 0x80) :
    String.utf8EncodeChar (Latin1.ofByte b) = [b] := by
  have hnumber := Latin1.toNat_ofByte b
  have hascii : (Latin1.ofByte b).val < 0x80 :=
    UInt32.lt_iff_toNat_lt.mpr (hnumber ▸ UInt8.lt_iff_toNat_lt.mp hb)
  rw [encode_of_ascii hascii]
  congr 1
  rw [← UInt8.toNat_inj, UInt32.toNat_toUInt8, hnumber, Nat.mod_eq_of_lt b.toNat_lt]

/-- What is read at an offset is an ASCII byte, a whole sequence, or a byte that begins neither. -/
theorem reading_of_decode (h : decode text offset = some (c, n)) :
    (n = 1 ∧ ∃ b, text[offset]? = some b ∧ b < 0x80 ∧ c = Latin1.ofByte b) ∨
      (∃ lead tail, Whole lead tail c ∧ n = tail.length + 1 ∧
        (text.extract offset (offset + n)).toList = lead :: tail) ∨
      (n = 1 ∧ c = Decoder.replacement) := by
  unfold decode at h
  split at h
  case h_1 => cases h
  case h_2 lead hlead =>
  split at h
  case isTrue hascii =>
    cases h
    exact .inl ⟨rfl, lead, hlead, hascii, rfl⟩
  case isFalse hascii =>
  dsimp only at h
  split at h
  case h_2 =>
    cases h
    exact .inr (.inr ⟨rfl, rfl⟩)
  case h_1 c' hsequence =>
    cases h
    refine .inr (.inl ⟨lead, _, whole_of_sequence? hsequence, ?_, ?_⟩)
    · exact (length_of_sequence? hsequence).symm
    · obtain ⟨hlt, rfl⟩ := Array.getElem?_eq_some_iff.mp hlead
      obtain ⟨m, hm⟩ : ∃ m, sequenceLength text[offset] = m + 1 :=
        ⟨_, (length_of_sequence? hsequence).symm⟩
      rw [hm, Array.toList_extract, Array.toList_extract, List.extract_eq_take_drop,
        List.extract_eq_take_drop, List.drop_eq_getElem_cons (by simpa using hlt),
        Nat.add_sub_cancel_left, show offset + (m + 1) - (offset + 1) = m by omega,
        List.take_succ_cons, Array.getElem_toList]

theorem extract_isPrefix (text : Text) (offset n : Nat) :
    (text.extract offset (offset + n)).toList <+: text.toList.drop offset := by
  rw [Array.toList_extract, List.extract_eq_take_drop]
  exact List.take_prefix _ _

/-- A whole sequence that stands at an offset is what is read there. -/
theorem Whole.decode (h : Whole lead tail c) (hleading : lead :: tail <+: text.toList.drop offset) :
    Utf8.decode text offset = some (c, tail.length + 1) := by
  obtain ⟨after, hafter⟩ := hleading
  have hlength : (text.toList.take offset).length = offset := by
    have hpos : 0 < (text.toList.drop offset).length := by
      rw [← hafter]
      exact Nat.succ_pos _
    rw [List.length_drop] at hpos
    exact List.length_take_of_le (by omega)
  have htext : text.toList = text.toList.take offset ++ lead :: (tail ++ after) := by
    rw [← List.cons_append, hafter, List.take_append_drop]
  have hdecode := h.spells.decode htext
  rwa [hlength] at hdecode

/-- Where an overlong sequence stands it is read whole, as a character that fewer bytes encode. -/
theorem exists_decode_of_overlongAt (h : OverlongAt text offset) :
    ∃ c n, decode text offset = some (c, n) ∧ 1 < n ∧ c.utf8Size < n := by
  obtain ⟨bytes, hoverlong, hleading⟩ := h
  obtain ⟨lead, tail, c, rfl, hwhole⟩ := hoverlong.exists_whole
  exact ⟨c, tail.length + 1, hwhole.decode hleading, Nat.succ_lt_succ hwhole.length_pos,
    hwhole.utf8Size_lt hoverlong⟩

/-- Anywhere else, what is read in one piece is the encoding of its character. -/
theorem toList_extract_eq_encode (hdecode : decode text offset = some (c, n)) (hlong : 1 < n)
    (hoverlong : ¬ OverlongAt text offset) :
    (text.extract offset (offset + n)).toList = String.utf8EncodeChar c := by
  rcases reading_of_decode hdecode with ⟨rfl, -⟩ | ⟨lead, tail, hwhole, rfl, htext⟩ | ⟨rfl, -⟩
  · exact absurd hlong (Nat.lt_irrefl 1)
  · rw [htext]
    refine hwhole.eq_encode fun h ↦ hoverlong ⟨lead :: tail, h, ?_⟩
    rw [← htext]
    exact extract_isPrefix text offset _
  · exact absurd hlong (Nat.lt_irrefl 1)

/-- What is read in one piece is the encoding of the character it gives, but for the overlong
sequences: where one stands it is read whole, and its character has a shorter encoding. Everywhere
else, bytes that encode no character are read one at a time as the replacement character, and an ASCII
character comes from its own byte only. -/
theorem decode_wellFormed (hlt : offset < text.size) :
    ∃ c n, decode text offset = some (c, n) ∧
      (n = 1 → c = Decoder.replacement ∨
        ∃ b, text[offset]? = some b ∧ b < 0x80 ∧ c = Latin1.ofByte b) ∧
      (1 < n → ((text.extract offset (offset + n)).toList = String.utf8EncodeChar c ↔
        ¬ OverlongAt text offset)) ∧
      (OverlongAt text offset → 1 < n ∧ c.utf8Size < n) ∧
      (¬ OverlongAt text offset →
        ((∀ c', ¬ String.utf8EncodeChar c' <+: text.toList.drop offset) →
          c = Decoder.replacement ∧ n = 1) ∧
        (c.val < 0x80 → n = 1 ∧ text[offset]? = some c.val.toUInt8)) := by
  obtain ⟨⟨c, n⟩, hdecode⟩ := Option.ne_none_iff_exists'.mp
    (mt (decode_eq_none_iff text offset).mp (Nat.not_le.mpr hlt))
  have hoverlong : OverlongAt text offset → 1 < n ∧ c.utf8Size < n := by
    intro h
    obtain ⟨c', n', hdecode', hand⟩ := exists_decode_of_overlongAt h
    rw [hdecode] at hdecode'
    cases hdecode'
    exact hand
  have hreading := reading_of_decode hdecode
  refine ⟨c, n, hdecode, ?_, fun hlong ↦ ⟨fun hencode h ↦ ?_, ?_⟩, hoverlong, fun hnot ↦ ⟨?_, ?_⟩⟩
  · rintro rfl
    rcases hreading with ⟨-, hascii⟩ | ⟨lead, tail, hwhole, hlength, -⟩ | ⟨-, rfl⟩
    · exact .inr hascii
    · exact absurd hwhole.length_pos (by omega)
    · exact .inl rfl
  · have hlength := congrArg List.length hencode
    have hle := (decode_advances _ _ _ _ hdecode).2
    rw [Array.length_toList, Array.size_extract, String.length_utf8EncodeChar] at hlength
    have := (hoverlong h).2
    omega
  · exact toList_extract_eq_encode hdecode hlong
  · intro hnone
    rcases hreading with ⟨rfl, b, hb, hascii, rfl⟩ | ⟨lead, tail, hwhole, rfl, -⟩ | ⟨rfl, rfl⟩
    · refine absurd ?_ (hnone (Latin1.ofByte b))
      obtain ⟨hlt, rfl⟩ := Array.getElem?_eq_some_iff.mp hb
      rw [encode_ofByte hascii, List.drop_eq_getElem_cons (by simpa using hlt), Array.getElem_toList]
      exact List.prefix_append [_] _
    · have hencode := toList_extract_eq_encode hdecode (Nat.succ_lt_succ hwhole.length_pos) hnot
      refine absurd ?_ (hnone c)
      rw [← hencode]
      exact extract_isPrefix text offset _
    · exact ⟨rfl, rfl⟩
  · intro hascii
    rcases hreading with ⟨rfl, b, hb, hlow, rfl⟩ | ⟨lead, tail, hwhole, rfl, htext⟩ | ⟨rfl, rfl⟩
    · have hencode := encode_ofByte hlow
      rw [encode_of_ascii hascii] at hencode
      rw [hb, List.singleton_inj.mp hencode]
      exact ⟨rfl, rfl⟩
    · have hencode := toList_extract_eq_encode hdecode (Nat.succ_lt_succ hwhole.length_pos) hnot
      rw [htext, encode_of_ascii hascii] at hencode
      exact absurd hwhole.length_pos (by rw [(List.cons.inj hencode).2]; exact Nat.lt_irrefl 0)
    · exact absurd hascii (by decide)

/-- `é`, which is read as it is encoded, and after it an overlong sequence for `a`, which is not. -/
theorem decode_wellFormed_of_overlong :
    let text : Text := #[0xC3, 0xA9, 0xE0, 0x81, 0xA1]
    (0 < text.size ∧ ¬ OverlongAt text 0 ∧
      (text.extract 0 2).toList = String.utf8EncodeChar 'é') ∧
    (2 < text.size ∧ OverlongAt text 2 ∧
      ∃ c n, decode text 2 = some (c, n) ∧ 1 < n ∧ c.utf8Size < n) := by
  intro text
  have hnot : ¬ OverlongAt text 0 := by
    rintro ⟨bytes, hoverlong, after, hafter⟩
    have hhead : (bytes ++ after).head? = some 0xC3 := by rw [hafter]; rfl
    cases hoverlong <;> exact absurd (Option.some.inj hhead) (by decide)
  have hoverlong : OverlongAt text 2 :=
    ⟨[0xE0, 0x81, 0xA1], .three 0x81 0xA1 rfl rfl (by decide), List.prefix_rfl⟩
  refine ⟨⟨by decide, hnot, ?_⟩, by decide, hoverlong, ?_⟩
  · obtain ⟨c, n, hdecode, -, hlong, -⟩ := decode_wellFormed (show 0 < text.size by decide)
    obtain ⟨rfl, rfl⟩ : 'é' = c ∧ 2 = n := by
      simpa using (show decode text 0 = some ('é', 2) by decide).symm.trans hdecode
    exact (hlong (by decide)).mpr hnot
  · obtain ⟨c, n, hdecode, -, -, hshort, -⟩ := decode_wellFormed (show 2 < text.size by decide)
    exact ⟨c, n, hdecode, hshort hoverlong⟩

/-- Three bytes are read as the letter that the last of them ends in, so that the bytes are not its
encoding, and an ASCII character comes from bytes that are not ASCII. -/
theorem decode_overlong_letter :
    decode #[0xE0, 0x81, 0xA1] 0 = some ('a', 3) ∧
      (#[0xE0, 0x81, 0xA1] : Text).toList ≠ String.utf8EncodeChar 'a' ∧ ¬ Decoder.utf8.Lawful := by
  have hdecode : Decoder.utf8.decode #[0xE0, 0x81, 0xA1] 0 = some ('a', 3) := by decide
  refine ⟨hdecode, by decide, fun h ↦ ?_⟩
  have hone := (h.byte_of_ascii rfl _ _ _ _ hdecode (by decide)).1
  exact absurd hone (by decide)

end Utf8

end Lockstep
