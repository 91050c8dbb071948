import Lockstep.Matches
import Lockstep.Proofs.Decoder.Chain

/-!
# Between the characters of a string

In the bytes of a string, reading from the start comes to the offsets between its characters and to
no others. The bytes between two of them are those of a string.
-/

namespace Lockstep

namespace Utf8

variable {text : Text} {offset : Nat} {cs : List Char} {span : Span}

/-- Bytes of characters are a string. -/
theorem exists_toString? (htext : text.toList = encode cs) : ∃ s, text.toString? = some s := by
  have hvalid : (⟨text⟩ : ByteArray).IsValidUTF8 := by
    refine .intro cs (ByteArray.ext (Array.toList_inj.mp ?_))
    rw [htext, List.utf8Encode, List.data_toByteArray]
    rfl
  exact ⟨_, dif_pos hvalid⟩

/-- An offset that reading comes to is one between characters. -/
theorem exists_split_of_reaches (htext : text.toList = encode cs)
    (h : Decoder.utf8.Reaches text offset) :
    ∃ before after, cs = before ++ after ∧ offset = (encode before).length := by
  induction h with
  | start => exact ⟨[], cs, rfl, rfl⟩
  | @next offset n c h hdecode ih =>
    obtain ⟨before, after, rfl, rfl⟩ := ih
    cases after with
    | nil =>
      have hlt := Utf8.decode_advances _ _ _ _ hdecode
      rw [← Array.length_toList, htext, List.append_nil] at hlt
      omega
    | cons c' after =>
      cases (decode_encode htext).symm.trans hdecode
      refine ⟨before ++ [c], after, ?_, (length_encode_concat before c).symm⟩
      rw [List.append_assoc, List.singleton_append]

/-- What lies between two offsets that reading comes to is a string. -/
theorem exists_toString?_slice (htext : text.toList = encode cs) (hle : span.start ≤ span.stop)
    (hstart : Decoder.utf8.Reaches text span.start) (hstop : Decoder.utf8.Reaches text span.stop) :
    ∃ s, (text.slice span).toString? = some s := by
  obtain ⟨before, after, rfl, heq⟩ := exists_split_of_reaches htext hstart
  obtain ⟨before', after', hsplit, heq'⟩ := exists_split_of_reaches htext hstop
  rcases List.append_eq_append_iff.mp hsplit with ⟨mid, rfl, rfl⟩ | ⟨mid, rfl, rfl⟩
  · have hslice : (text.slice span).toList = encode mid := by
      rw [Text.slice, Array.toList_extract, htext, heq, heq', List.extract_eq_take_drop]
      simp [encode_append]
    exact exists_toString? hslice
  · have hempty : span.stop - span.start = 0 := by
      rw [encode_append, List.length_append] at heq
      omega
    have hslice : (text.slice span).toList = encode [] := by
      rw [Text.slice, Array.toList_extract, List.extract_eq_take_drop, hempty]
      rfl
    exact exists_toString? hslice

end Utf8

end Lockstep
