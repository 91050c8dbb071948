import Lockstep.Proofs.Decoder.Chain

/-!
# Reading forwards and backwards

Read from its start, any text is read to its end, piece by piece. Read backwards from its end, it
gives the same pieces in reverse. So the character before an offset that reading comes to may be read
there, and is the one that was read last. The bytes of a string give its characters, in both directions,
and those of one character give it wherever they stand.
-/

namespace Lockstep

namespace Decoder

variable {d : Decoder} {text : Text} {offset n : Nat} {c : Char}

/-- The characters read from an offset on, each with its length. -/
def forward (d : Decoder) (text : Text) (offset : Nat) : List (Char × Nat) :=
  match _h : d.decode text offset with
  | none => []
  | some (c, n) => (c, n) :: d.forward text (offset + n)
termination_by text.size - offset
decreasing_by
  have := d.decode_advances text offset c n _h
  omega

/-- The characters read backwards from an offset on, each with its length. A character that takes
reading back nowhere is the last one. -/
def backward (d : Decoder) (text : Text) (offset : Nat) : List (Char × Nat) :=
  match d.decodePrev text offset with
  | none => []
  | some (c, n) => (c, n) :: if 0 < n ∧ n ≤ offset then d.backward text (offset - n) else []
termination_by offset

theorem forward_of_none (h : d.decode text offset = none) : d.forward text offset = [] := by
  rw [forward]
  split
  · rfl
  · simp_all

theorem forward_of_some (h : d.decode text offset = some (c, n)) :
    d.forward text offset = (c, n) :: d.forward text (offset + n) := by
  rw [forward]
  split
  · simp_all
  · rename_i c' n' h'
    cases h.symm.trans h'
    rfl

theorem backward_of_none (h : d.decodePrev text offset = none) : d.backward text offset = [] := by
  rw [backward, h]

theorem backward_add_of_some (h : d.decodePrev text (offset + n) = some (c, n)) (hpos : 0 < n) :
    d.backward text (offset + n) = (c, n) :: d.backward text offset := by
  rw [backward, h]
  dsimp only
  rw [if_pos ⟨hpos, Nat.le_add_left n offset⟩, Nat.add_sub_cancel]

/-- Read in pieces of at most `longest` bytes, a text is read from its start to its end, and back from
there through the same pieces. -/
structure Traced (d : Decoder) (longest : Nat) (text : Text) : Prop where
  advances : ∀ offset, d.Reaches text offset → offset < text.size →
    ∃ c n, d.decode text offset = some (c, n) ∧ 0 < n ∧ n ≤ longest ∧ offset + n ≤ text.size
  ends : d.Reaches text text.size ∧ d.decode text text.size = none
  retraces : ∀ offset c n, d.Reaches text offset → d.decode text offset = some (c, n) →
    d.decodePrev text (offset + n) = some (c, n)
  backward_eq : d.backward text text.size = (d.forward text 0).reverse
  /-- What is read back before a boundary is what reading carried along to it. -/
  before?_eq : ∀ b ∈ d.ahead text 0 none, d.before? text b.offset = b.prev

section

variable (hprev : ∀ offset c n, d.Reaches text offset → d.decode text offset = some (c, n) →
  d.decodePrev text (offset + n) = some (c, n))

include hprev

/-- What is read backwards at an offset and what is read forwards there are all there is to read. -/
theorem Reaches.forward_zero_eq (hzero : d.decodePrev text 0 = none) (h : d.Reaches text offset) :
    d.forward text 0 = (d.backward text offset).reverse ++ d.forward text offset := by
  induction h with
  | start => rw [backward_of_none hzero, List.reverse_nil, List.nil_append]
  | next h hdecode ih =>
    have hpos := (d.decode_advances _ _ _ _ hdecode).1
    rw [ih, forward_of_some hdecode, backward_add_of_some (hprev _ _ _ h hdecode) hpos,
      List.reverse_cons, List.append_assoc, List.singleton_append]

/-- The boundaries that reading comes to have the character before them at hand. -/
theorem Reaches.before?_of_mem_ahead (h : d.Reaches text offset) {b : Boundary}
    (hb : b ∈ d.ahead text offset (d.before? text offset)) : d.before? text b.offset = b.prev := by
  generalize hbefore : d.before? text offset = prev at hb
  fun_induction d.ahead text offset prev with
  | case1 offset prev hdecode =>
    cases List.mem_singleton.mp hb
    exact hbefore
  | case2 offset prev c n hdecode ih =>
    rcases List.mem_cons.mp hb with rfl | hb
    · exact hbefore
    · refine ih (h.next hdecode) ?_ hb
      rw [before?, hprev offset c n h hdecode, Option.map_some]

/-- A decoder that reads to the end, and backwards what it has read, traces every text. -/
theorem Regular.traced (h : d.Regular) (hzero : d.decodePrev text 0 = none) {longest : Nat}
    (hlongest : ∀ offset c n, d.decode text offset = some (c, n) → n ≤ longest) :
    d.Traced longest text := by
  have hend := h.reaches_of_outside (Nat.le_refl _) (outside_size d text)
  have hnone := (h.decode_eq_none_iff text text.size).mpr (Nat.le_refl _)
  constructor
  case advances =>
    intro offset _ hlt
    obtain ⟨⟨c, n⟩, hdecode⟩ := Option.ne_none_iff_exists'.mp
      (mt (h.decode_eq_none_iff text offset).mp (Nat.not_le.mpr hlt))
    obtain ⟨hpos, hle⟩ := d.decode_advances _ _ _ _ hdecode
    exact ⟨c, n, hdecode, hpos, hlongest offset c n hdecode, hle⟩
  case ends => exact ⟨hend, hnone⟩
  case retraces => exact hprev
  case backward_eq =>
    have hall := hend.forward_zero_eq hprev hzero
    rw [forward_of_none hnone, List.append_nil] at hall
    rw [hall, List.reverse_reverse]
  case before?_eq =>
    have hstart : d.before? text 0 = none := by rw [before?, hzero, Option.map_none]
    intro b hb
    exact Reaches.before?_of_mem_ahead hprev .start (hstart.symm ▸ hb)

end

end Decoder

/-! ## One byte a character -/

namespace Latin1

theorem reaches_of_le {text : Text} {offset : Nat} (hle : offset ≤ text.size) :
    Decoder.latin1.Reaches text offset := by
  refine lawful.reaches_of_outside hle fun offset' c n hlt hdecode ↦ ?_
  obtain ⟨b, -, h⟩ := Option.map_eq_some_iff.mp hdecode
  cases h
  exact hlt

theorem decodePrev_add {text : Text} {offset n : Nat} {c : Char}
    (hdecode : decode text offset = some (c, n)) : decodePrev text (offset + n) = some (c, n) := by
  obtain ⟨b, hb, h⟩ := Option.map_eq_some_iff.mp hdecode
  cases h
  rw [decodePrev, hb, Option.map_some]

theorem traced (text : Text) : Decoder.latin1.Traced 1 text :=
  lawful.toRegular.traced (fun _ _ _ _ hdecode ↦ decodePrev_add hdecode) rfl
    fun offset c n hdecode ↦ by
      obtain ⟨b, -, h⟩ := Option.map_eq_some_iff.mp hdecode
      cases h
      exact Nat.le_refl 1

end Latin1

/-! ## UTF-8 -/

namespace Utf8

variable {text : Text}

theorem traced (text : Text) : Decoder.utf8.Traced 4 text :=
  regular.traced (fun _ _ _ h hdecode ↦ decodePrev_of_reaches h hdecode) rfl
    fun offset c n hdecode ↦ by
      rcases decode_cases hdecode with ⟨rfl, -⟩ | ⟨hle, -⟩
      · decide
      · exact hle

/-- The bytes of characters are read as these characters. -/
theorem forward_encode {before after : List Char} (htext : text.toList = encode (before ++ after)) :
    (Decoder.utf8.forward text (encode before).length).map (·.1) = after := by
  induction after generalizing before with
  | nil =>
    have hsize : text.size = (encode before).length := by
      rw [← Array.length_toList, htext, List.append_nil]
    have hnone : decode text (encode before).length = none :=
      (decode_eq_none_iff _ _).mpr (Nat.le_of_eq hsize)
    rw [Decoder.forward_of_none hnone, List.map_nil]
  | cons c after ih =>
    have htext' : text.toList = encode ((before ++ [c]) ++ after) := by
      rw [htext, List.append_assoc, List.singleton_append]
    have hnext := ih htext'
    rw [length_encode_concat] at hnext
    rw [Decoder.forward_of_some (decode_encode htext), List.map_cons, hnext]

end Utf8

/-! ## Both directions -/

/-- Whatever the bytes of a text are, reading them as UTF-8 takes one to four of them at a time, comes
to the end of the text and nowhere beyond, and reading backwards at each offset that is come to gives
what was read there last. With one byte a character, this holds at every offset. -/
theorem Decoder.traced_of_bytes (text : Text) :
    Decoder.utf8.Traced 4 text ∧ Decoder.latin1.Traced 1 text ∧
      ∀ offset ≤ text.size, Decoder.latin1.Reaches text offset :=
  ⟨Utf8.traced text, Latin1.traced text, fun _ hle ↦ Latin1.reaches_of_le hle⟩

/-- The bytes of a character, among any other bytes, are read as that character from their start and
back from their end. So the bytes of characters are read as these characters, and backwards as the same
in reverse. -/
theorem Utf8.decode_decodePrev_encode :
    (∀ (c : Char) (before after : List UInt8),
      let bytes := String.utf8EncodeChar c
      let text : Text := (before ++ bytes ++ after).toArray
      1 ≤ bytes.length ∧ bytes.length ≤ 4 ∧
        decode text before.length = some (c, bytes.length) ∧
        decodePrev text (before.length + bytes.length) = some (c, bytes.length)) ∧
    ∀ cs : List Char,
      let text : Text := (encode cs).toArray
      (Decoder.utf8.forward text 0).map (·.1) = cs ∧
        (Decoder.utf8.backward text text.size).map (·.1) = cs.reverse := by
  refine ⟨fun c before after ↦ ?_, fun cs ↦ ?_⟩
  · obtain ⟨lead, tail, hencode, hspells⟩ := exists_spells c
    have htext : (before ++ (lead :: tail) ++ after).toArray.toList =
        before ++ lead :: (tail ++ after) := by simp
    have hle := hspells.length_le
    rw [hencode]
    refine ⟨Nat.succ_pos _, Nat.succ_le_succ hle, hspells.decode htext, hspells.decodePrev htext⟩
  · have htext : (encode cs).toArray.toList = encode ([] ++ cs) := by simp
    have hforward : (Decoder.utf8.forward (encode cs).toArray 0).map (·.1) = cs :=
      forward_encode htext
    refine ⟨hforward, ?_⟩
    rw [(traced _).backward_eq, List.map_reverse, hforward]

end Lockstep
