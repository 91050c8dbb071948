import Lockstep.Decoder.Latin1
import Lockstep.Proofs.Decoder.Utf8

/-!
# Reading a text from its start

Reading one character after another from its start, a decoder comes to some offsets of a text and
passes over the others. It comes to every offset that is inside no character. At the offsets it comes
to, reading backwards gives the character that was read last, in malformed texts as well: a tail byte
on its own may follow what looks like a sequence, but that sequence would have been read whole.
-/

namespace Lockstep

namespace Decoder

variable {d : Decoder} {text : Text} {offset offset' n m : Nat} {c : Char}

/-- The offsets that reading from the start of the text comes to. -/
inductive Reaches (d : Decoder) (text : Text) : Nat → Prop where
  | start : Reaches d text 0
  | next {offset n : Nat} {c : Char} (h : Reaches d text offset)
      (hdecode : d.decode text offset = some (c, n)) : Reaches d text (offset + n)

theorem Reaches.le_size (h : d.Reaches text offset) : offset ≤ text.size := by
  cases h with
  | start => exact Nat.zero_le _
  | next h hdecode => exact (d.decode_advances _ _ _ _ hdecode).2

/-- Of two offsets that are come to, the second is not inside the character at the first. -/
theorem Reaches.add_le (h : d.Reaches text offset) (h' : d.Reaches text offset')
    (hlt : offset < offset') (hdecode : d.decode text offset = some (c, n)) :
    offset + n ≤ offset' := by
  induction offset' using Nat.strongRecOn generalizing offset n c with
  | ind offset' ih =>
    cases h' with
    | start => exact absurd hlt (Nat.not_lt_zero _)
    | @next last m c' hlast hdecode' =>
      have hpos := (d.decode_advances _ _ _ _ hdecode').1
      rcases Nat.lt_trichotomy offset last with hbefore | rfl | hafter
      · exact Nat.le_trans (ih last (Nat.lt_add_of_pos_right hpos) h hlast hbefore hdecode)
          (Nat.le_add_right _ _)
      · rw [hdecode] at hdecode'
        cases hdecode'
        exact Nat.le_refl _
      · exact absurd hlt (Nat.not_lt.mpr (ih offset hlt hlast h hafter hdecode'))

/-- What is read before an offset does not end after it. -/
def Outside (d : Decoder) (text : Text) (offset : Nat) : Prop :=
  ∀ offset' c n, offset' < offset → d.decode text offset' = some (c, n) → offset' + n ≤ offset

/-- Decoders that read a text to its end. If they are compatible with ASCII, no ASCII byte is inside
a character. -/
structure Regular (d : Decoder) : Prop where
  decode_eq_none_iff : ∀ text offset, d.decode text offset = none ↔ text.size ≤ offset
  outside_of_ascii : d.asciiCompatible = true → ∀ (text : Text) (offset : Nat) (b : UInt8),
    text[offset]? = some b → b < 0x80 → d.Outside text offset

/-- Decoders for which an ASCII character is its own byte besides, if they are compatible with
ASCII. -/
structure Lawful (d : Decoder) : Prop extends Regular d where
  byte_of_ascii : d.asciiCompatible = true → ∀ (text : Text) (offset : Nat) (c : Char) (n : Nat),
    d.decode text offset = some (c, n) → c.val < 0x80 → n = 1 ∧ text[offset]? = some c.val.toUInt8

/-- The offsets that reading comes to from an offset on, that one included. -/
inductive ReachesFrom (d : Decoder) (text : Text) (start : Nat) : Nat → Prop where
  | here : ReachesFrom d text start start
  | next {offset n : Nat} {c : Char} (h : ReachesFrom d text start offset)
      (hdecode : d.decode text offset = some (c, n)) : ReachesFrom d text start (offset + n)

theorem ReachesFrom.trans {offset'' : Nat} (h : d.ReachesFrom text offset offset')
    (h' : d.ReachesFrom text offset' offset'') : d.ReachesFrom text offset offset'' := by
  induction h' with
  | here => exact h
  | next h' hdecode ih => exact ih.next hdecode

theorem ReachesFrom.reaches (h : d.ReachesFrom text offset offset') (hreaches : d.Reaches text offset) :
    d.Reaches text offset' := by
  induction h with
  | here => exact hreaches
  | next h hdecode ih => exact ih.next hdecode

/-- Reading comes to every offset of the text that is inside no character, from any offset before
it. -/
theorem Regular.reachesFrom_of_outside (h : d.Regular) (hle : offset ≤ text.size)
    (hout : d.Outside text offset) {start : Nat} (hstart : start ≤ offset) :
    d.ReachesFrom text start offset := by
  suffices hfrom : ∀ left offset', left = offset - offset' → offset' ≤ offset →
      d.ReachesFrom text start offset' → d.ReachesFrom text start offset from
    hfrom (offset - start) start rfl hstart .here
  intro left
  induction left using Nat.strongRecOn with
  | ind left ih =>
    rintro offset' rfl hle' hreaches
    rcases Nat.eq_or_lt_of_le hle' with rfl | hlt
    · exact hreaches
    · cases hdecode : d.decode text offset' with
      | none =>
        have hsize := (h.decode_eq_none_iff _ _).mp hdecode
        omega
      | some r =>
        obtain ⟨c, n⟩ := r
        have hnext := hout offset' c n hlt hdecode
        have hpos := (d.decode_advances _ _ _ _ hdecode).1
        exact ih (offset - (offset' + n)) (by omega) _ rfl hnext (hreaches.next hdecode)

/-- Reading comes to every offset of the text that is inside no character. -/
theorem Regular.reaches_of_outside (h : d.Regular) (hle : offset ≤ text.size)
    (hout : d.Outside text offset) : d.Reaches text offset :=
  (h.reachesFrom_of_outside hle hout (Nat.zero_le _)).reaches .start

theorem outside_size (d : Decoder) (text : Text) : d.Outside text text.size :=
  fun _ _ _ _ hdecode ↦ (d.decode_advances _ _ _ _ hdecode).2

/-- Decoders that read backwards what they have read. -/
structure Retraces (d : Decoder) : Prop where
  before?_zero : ∀ text, d.before? text 0 = none
  before?_add : ∀ {text : Text} {offset : Nat} {c : Char} {n : Nat}, d.Reaches text offset →
    d.decode text offset = some (c, n) → d.before? text (offset + n) = some c

end Decoder

/-! ## One byte a character -/

namespace Latin1

theorem toNat_ofByte (b : UInt8) : (ofByte b).val.toNat = b.toNat := by
  have hvalid : b.toNat.isValidChar := .inl (Nat.lt_trans b.toNat_lt (by decide))
  rw [ofByte, Char.ofNat, dif_pos hvalid]
  rfl

theorem lawful : Decoder.latin1.Lawful where
  decode_eq_none_iff := decode_eq_none_iff
  outside_of_ascii _ text offset b _ _ offset' c n hlt hdecode := by
    obtain ⟨b', -, h⟩ := Option.map_eq_some_iff.mp hdecode
    cases h
    exact hlt
  byte_of_ascii _ text offset c n hdecode _ := by
    obtain ⟨b, hb, h⟩ := Option.map_eq_some_iff.mp hdecode
    cases h
    refine ⟨rfl, hb.trans (congrArg some (UInt8.toNat_inj.mp ?_))⟩
    rw [UInt32.toNat_toUInt8, toNat_ofByte, Nat.mod_eq_of_lt b.toNat_lt]

theorem retraces : Decoder.latin1.Retraces where
  before?_zero _ := rfl
  before?_add {text offset c n} _ hdecode := by
    obtain ⟨b, hb, h⟩ := Option.map_eq_some_iff.mp hdecode
    cases h
    show (text[offset]?.map _).map _ = _
    rw [hb]
    rfl

end Latin1

/-! ## UTF-8 -/

namespace Utf8

variable {text : Text} {offset n : Nat} {c : Char}

/-- What is read at an offset is one byte, or a lead byte with its tail. -/
theorem decode_cases (h : decode text offset = some (c, n)) :
    (n = 1 ∧ (text[offset]?.any isTail = true → c = Decoder.replacement)) ∨
      (n ≤ 4 ∧ text[offset]?.any isTail = false ∧
        ∀ i, offset < i → i < offset + n → text[i]?.any isTail = true) := by
  unfold decode at h
  split at h
  case h_1 => cases h
  case h_2 lead hlead =>
  rw [hlead, Option.any_some]
  split at h
  case isTrue hascii =>
    cases h
    refine .inl ⟨rfl, fun htail ↦ ?_⟩
    have hle := (isTail_eq_true_iff.mp htail).1
    exact absurd (UInt8.lt_iff_toNat_lt.mp hascii) (Nat.not_lt.mpr hle)
  case isFalse hascii =>
  dsimp only at h
  split at h
  case h_2 =>
    cases h
    exact .inl ⟨rfl, fun _ ↦ rfl⟩
  case h_1 c' hsequence =>
    cases h
    unfold sequence? at hsequence
    split at hsequence
    case isFalse => cases hsequence
    case isTrue hand =>
    obtain ⟨hne, hlength, hall⟩ := hand
    have hlong := List.length_pos_iff.mpr hne
    refine .inr ⟨?_, ?_, fun i hlt hlt' ↦ ?_⟩
    · unfold sequenceLength
      split
      · decide
      · split
        · decide
        · split
          · decide
          · split <;> decide
    · refine Bool.eq_false_iff.mpr fun htail ↦ ?_
      have hlt := (isTail_eq_true_iff.mp htail).2
      have hone : sequenceLength lead = 1 :=
        if_pos (UInt8.lt_iff_toNat_lt.mpr (Nat.lt_trans hlt (by decide)))
      omega
    · obtain ⟨j, rfl⟩ := Nat.exists_eq_add_of_le hlt
      have hsize : j < (text.extract (offset + 1) (offset + sequenceLength lead)).toList.length := by
        omega
      have hbound : j < min (offset + sequenceLength lead) text.size - (offset + 1) := by
        rwa [Array.length_toList, Array.size_extract] at hsize
      have hextract := List.getElem?_eq_getElem hsize
      rw [Array.getElem?_toList, Array.getElem?_extract_of_lt hbound,
        ← Array.getElem?_eq_getElem] at hextract
      rw [hextract, Option.any_some]
      exact List.all_eq_true.mp hall _ (List.getElem_mem hsize)

/-- Moving back over tail bytes comes to the byte before them, if there are not too many. -/
theorem leadOffset_of_tails {lead : Nat} (hlead : text[lead]?.any isTail = false) {steps : Nat}
    (hle : lead ≤ offset) (hsteps : offset ≤ lead + steps)
    (htails : ∀ i, lead < i → i ≤ offset → text[i]?.any isTail = true) :
    leadOffset text steps offset = lead := by
  induction steps generalizing offset with
  | zero => exact Nat.le_antisymm hsteps hle
  | succ steps ih =>
    rw [leadOffset]
    rcases Nat.eq_or_lt_of_le hle with rfl | hlt
    · rw [if_neg (by simp [hlead])]
    · rw [if_pos (htails offset hlt (Nat.le_refl _))]
      exact ih (by omega) (by omega) fun i hi hi' ↦ htails i hi (by omega)

theorem leadOffset_le (text : Text) (steps offset : Nat) : leadOffset text steps offset ≤ offset := by
  induction steps generalizing offset with
  | zero => exact Nat.le_refl _
  | succ steps ih =>
    rw [leadOffset]
    split
    · exact Nat.le_trans (ih _) (Nat.sub_le _ _)
    · exact Nat.le_refl _

theorem outside_of_not_tail (h : text[offset]?.any isTail = false) :
    Decoder.utf8.Outside text offset := by
  intro offset' c n hlt hdecode
  rcases decode_cases hdecode with ⟨rfl, -⟩ | ⟨-, -, htails⟩
  · exact hlt
  · refine Nat.not_lt.mp fun hinside ↦ ?_
    have htail := htails offset hlt hinside
    rw [h] at htail
    cases htail

theorem regular : Decoder.utf8.Regular where
  decode_eq_none_iff := decode_eq_none_iff
  outside_of_ascii _ text offset b hb hascii := by
    refine outside_of_not_tail (Bool.eq_false_iff.mpr fun htail ↦ ?_)
    rw [hb, Option.any_some] at htail
    have hle := (isTail_eq_true_iff.mp htail).1
    exact absurd (UInt8.lt_iff_toNat_lt.mp hascii) (Nat.not_lt.mpr hle)

/-- Reading backwards at an offset that reading comes to gives what was read last. -/
theorem decodePrev_of_reaches (h : Decoder.utf8.Reaches text offset)
    (hdecode : decode text offset = some (c, n)) : decodePrev text (offset + n) = some (c, n) := by
  obtain ⟨hpos, hsize⟩ := decode_advances _ _ _ _ hdecode
  rw [decodePrev, if_neg (by omega)]
  dsimp only
  generalize hsteps : min 3 (offset + n - 1) = steps
  cases htail : text[offset]?.any isTail with
  | false =>
    -- the byte at the offset begins what was read, so moving back over its tail comes to it
    have hback : leadOffset text steps (offset + n - 1) = offset := by
      rcases decode_cases hdecode with ⟨rfl, -⟩ | ⟨hle, -, htails⟩
      · exact leadOffset_of_tails htail (Nat.le_refl _) (by omega) fun i hi hi' ↦ by omega
      · exact leadOffset_of_tails htail (by omega) (by omega) fun i hi hi' ↦ htails i hi (by omega)
    rw [hback, hdecode]
    exact if_pos rfl
  | true =>
    -- a tail byte on its own: a sequence that ended with it would have been read before
    obtain ⟨rfl, rfl⟩ : n = 1 ∧ c = Decoder.replacement := by
      rcases decode_cases hdecode with ⟨rfl, hc⟩ | ⟨-, hfalse, -⟩
      · exact ⟨rfl, hc htail⟩
      · rw [htail] at hfalse
        cases hfalse
    have hle := leadOffset_le text steps (offset + 1 - 1)
    generalize leadOffset text steps (offset + 1 - 1) = lead at hle
    rw [Nat.add_sub_cancel] at hle
    cases hlead : decode text lead with
    | none => rfl
    | some r =>
      obtain ⟨c', n'⟩ := r
      dsimp only
      split
      case isFalse => rfl
      case isTrue heq =>
      rcases Nat.eq_or_lt_of_le hle with rfl | hlt
      · rw [hdecode] at hlead
        cases hlead
        rfl
      · rcases decode_cases hlead with ⟨rfl, -⟩ | ⟨-, hfalse, -⟩
        · omega
        · have hsize' : lead ≤ text.size := by omega
          have hreaches := regular.reaches_of_outside hsize' (outside_of_not_tail hfalse)
          have hnext := hreaches.add_le h hlt hlead
          omega

theorem retraces : Decoder.utf8.Retraces where
  before?_zero _ := rfl
  before?_add h hdecode := congrArg (Option.map Prod.fst) (decodePrev_of_reaches h hdecode)

end Utf8

end Lockstep
