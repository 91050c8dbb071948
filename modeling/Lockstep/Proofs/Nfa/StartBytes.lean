import Lockstep.Nfa.StartBytes
import Lockstep.Proofs.Decoder.Utf8
import Lockstep.Proofs.Search

/-!
# Where matches begin

If an automaton has start bytes, an attempt at a character that is none of them fails at once, since
the atoms that come first accept nothing but these characters. No byte of such a character is a start
byte either, so the next start byte of a text stands where the next character worth an attempt does.
-/

namespace Lockstep

universe u

variable {α : Type u} [Atom α]

namespace StartBytes

/-- Every transition from the entry leads to a literal that is one of the bytes. -/
structure Sound (s : StartBytes) (nfa : Nfa α) : Prop where
  ascii : ∀ b ∈ s.bytes, b < 0x80
  begins : ∀ t ∈ nfa.transitions Nfa.entry, t.target ≠ Nfa.final ∧
    ∃ a c, nfa.states[t.target]? = some (.atom a) ∧ Atom.literal? a = some c ∧
      ∃ b ∈ s.bytes, String.utf8EncodeChar c = [b]

theorem mem_add? {bytes bytes' : List UInt8} {b : UInt8} (h : add? bytes b = some bytes') {x : UInt8} :
    x ∈ bytes' ↔ x ∈ bytes ∨ x = b := by
  unfold add? at h
  split at h
  · cases h
    constructor
    · exact .inl
    · rintro (hx | rfl)
      · exact hx
      · assumption
  · split at h
    · cases h
    · cases h
      rw [List.mem_append, List.mem_singleton]

end StartBytes

namespace Nfa

variable {nfa : Nfa α}

/-- A character before 128 is its own byte. -/
theorem encodeChar_of_lt {c : Char} (h : c.val < 0x80) :
    String.utf8EncodeChar c = [c.val.toUInt8] := by
  refine String.utf8EncodeChar_eq_singleton (Char.utf8Size_eq_one_iff.mpr ?_)
  rw [UInt32.le_iff_toNat_le]
  exact Nat.le_of_lt_succ (UInt32.lt_iff_toNat_lt.mp h)

theorem lt_of_encodeChar {c : Char} {b : UInt8} (h : String.utf8EncodeChar c = [b]) :
    c.val < 0x80 := by
  have hsize : c.utf8Size = 1 := by
    rw [← String.length_utf8EncodeChar, h, List.length_singleton]
  have hle := Char.utf8Size_eq_one_iff.mp hsize
  rw [UInt32.le_iff_toNat_le] at hle
  exact UInt32.lt_iff_toNat_lt.mpr (Nat.lt_succ_of_le hle)

theorem literal_of_startByte? {t : Transition} {b : UInt8} (h : nfa.startByte? t = some b) :
    b < 0x80 ∧ ∃ a c, nfa.states[t.target]? = some (.atom a) ∧ Atom.literal? a = some c ∧
      String.utf8EncodeChar c = [b] := by
  unfold startByte? at h
  split at h
  · rename_i a hclosure hstate
    obtain ⟨c, hc, h⟩ := Option.bind_eq_some_iff.mp h
    split at h
    · rename_i hlt
      cases h
      refine ⟨?_, a, c, hstate, hc, encodeChar_of_lt hlt⟩
      rw [UInt8.lt_iff_toNat_lt, UInt32.toNat_toUInt8]
      exact Nat.lt_of_le_of_lt (Nat.mod_le _ _) (UInt32.lt_iff_toNat_lt.mp hlt)
    · cases h
  · cases h

/-- The bytes collected from transitions are theirs. -/
theorem collected {ts : List Transition} {bytes bytes' : List UInt8}
    (h : ts.foldlM (fun bytes t ↦ do StartBytes.add? bytes (← nfa.startByte? t)) bytes =
      some bytes') :
    (∀ b ∈ bytes, b ∈ bytes') ∧ (∀ b ∈ bytes', b ∈ bytes ∨ b < 0x80) ∧
      ∀ t ∈ ts, ∃ b ∈ bytes', nfa.startByte? t = some b := by
  induction ts generalizing bytes with
  | nil =>
    cases h
    exact ⟨fun _ hb ↦ hb, fun _ hb ↦ .inl hb, nofun⟩
  | cons t ts ih =>
    rw [List.foldlM_cons] at h
    obtain ⟨bytes'', hadd, h⟩ := Option.bind_eq_some_iff.mp h
    obtain ⟨b, hb, hadd⟩ := Option.bind_eq_some_iff.mp hadd
    have hmem {x : UInt8} := StartBytes.mem_add? hadd (x := x)
    obtain ⟨hkept, hascii, hts⟩ := ih h
    refine ⟨fun x hx ↦ hkept x (hmem.mpr (.inl hx)), fun x hx ↦ ?_, fun t' ht' ↦ ?_⟩
    · rcases hascii x hx with hx | hx
      · rcases hmem.mp hx with hx | rfl
        · exact .inl hx
        · exact .inr (literal_of_startByte? hb).1
      · exact .inr hx
    · rcases List.mem_cons.mp ht' with rfl | ht'
      · exact ⟨b, hkept b (hmem.mpr (.inr rfl)), hb⟩
      · exact hts t' ht'

/-- The start bytes found are sound. -/
theorem sound_of_findStartBytes? (hfinal : nfa.states[Nfa.final]? = some .final) {s : StartBytes}
    (h : nfa.findStartBytes? = some s) : s.Sound nfa := by
  obtain ⟨bytes, hfold, h⟩ := Option.bind_eq_some_iff.mp h
  obtain ⟨-, hascii, hts⟩ := collected hfold
  split at h
  · cases h
  · cases h
    refine ⟨fun b hb ↦ (hascii b hb).resolve_left List.not_mem_nil, fun t ht ↦ ?_⟩
    obtain ⟨b, hb, hstart⟩ := hts t ht
    obtain ⟨-, a, c, hstate, hliteral, hencode⟩ := literal_of_startByte? hstart
    refine ⟨fun htarget ↦ ?_, a, c, hstate, hliteral, b, hb, hencode⟩
    rw [htarget, hfinal] at hstate
    cases hstate

variable [LawfulAtom α] {s : StartBytes}

/-- No transition out of the entry may be taken before anything but a start byte. -/
theorem enabled_eq_false (h : s.Sound nfa) {b : Boundary}
    (hnext : ∀ c ∈ b.next, ∀ x ∈ s.bytes, String.utf8EncodeChar c ≠ [x]) {t : Transition}
    (ht : t ∈ nfa.transitions entry) : nfa.enabled b t = false := by
  obtain ⟨htarget, a, l, hstate, hliteral, x, hx, hencode⟩ := h.begins t ht
  have hadmits : nfa.admits t.target b.next = false := by
    unfold admits
    rw [hstate, beq_false_of_ne htarget]
    cases hc : b.next with
    | none => rfl
    | some c =>
      refine Bool.eq_false_iff.mpr fun haccepts ↦ hnext c (Option.mem_def.mpr hc) x hx ?_
      rw [(LawfulAtom.accepts_iff_of_literal hliteral c).mp haccepts, hencode]
  rw [enabled, hadmits]
  rfl

/-- An attempt before anything but a start byte fails. -/
theorem attempt_eq_none (h : s.Sound nfa) {b : Boundary} (rest : Ahead)
    (hnext : ∀ c ∈ b.next, ∀ x ∈ s.bytes, String.utf8EncodeChar c ≠ [x]) :
    nfa.attempt (b :: rest) = none := by
  rw [attempt, search_cons, List.findSome?_eq_none_iff]
  intro t ht
  rw [along, enabled_eq_false h hnext ht]
  rfl

end Nfa

namespace StartBytes

variable {s : StartBytes} {text : Text} {before skipped after : List UInt8}

/-! ## Looking for a start byte -/

theorem next?_of_mem {b : UInt8} (htext : text.toList = before ++ b :: after) (hb : b ∈ s.bytes) :
    s.next? text before.length = some before.length := by
  obtain ⟨hlt, hget⟩ := Array.getElem?_eq_some_iff.mp (Utf8.getElem?_append_cons htext)
  rw [next?, dif_pos hlt, hget, if_pos hb]

/-- Bytes that are no start bytes are passed over. -/
theorem next?_of_forall_notMem (htext : text.toList = before ++ skipped ++ after)
    (hskipped : ∀ b ∈ skipped, b ∉ s.bytes) :
    s.next? text before.length = s.next? text (before ++ skipped).length := by
  induction skipped generalizing before with
  | nil => rw [List.append_nil]
  | cons b skipped ih =>
    have htext' : text.toList = before ++ b :: (skipped ++ after) := by
      rw [htext, List.append_assoc, List.cons_append]
    obtain ⟨hlt, hget⟩ := Array.getElem?_eq_some_iff.mp (Utf8.getElem?_append_cons htext')
    have hconcat : text.toList = before ++ [b] ++ skipped ++ after := by simpa using htext
    have ih := ih hconcat fun x hx ↦ hskipped x (List.mem_cons_of_mem _ hx)
    rw [List.length_append, List.length_singleton, List.append_assoc, List.singleton_append] at ih
    rw [next?, dif_pos hlt, hget, if_neg (hskipped b List.mem_cons_self), ih]

theorem next?_end (htext : text.toList = before) : s.next? text before.length = none := by
  have hsize : ¬ before.length < text.size := by
    rw [← htext, Array.length_toList]
    exact Nat.lt_irrefl _
  rw [next?, dif_neg hsize]

/-- Where a search from `offset` for a start byte leads: to the first one, or to the end of the
text. -/
structure FirstFrom (s : StartBytes) (text : Text) (offset target : Nat) : Prop where
  le : offset ≤ target
  le_size : target ≤ text.size
  notMem : ∀ i b, offset ≤ i → i < target → text[i]? = some b → b ∉ s.bytes
  mem : ∀ b, text[target]? = some b → b ∈ s.bytes

theorem firstFrom_next? (s : StartBytes) {offset : Nat} (h : offset ≤ text.size) :
    s.FirstFrom text offset ((s.next? text offset).getD text.size) := by
  fun_induction s.next? text offset with
  | case1 offset hlt hmem =>
    refine ⟨Nat.le_refl _, h, fun i b hle hlt ↦ absurd hlt (Nat.not_lt.mpr hle), fun b hb ↦ ?_⟩
    obtain ⟨-, rfl⟩ := Array.getElem?_eq_some_iff.mp hb
    exact hmem
  | case2 offset hlt hmem ih =>
    have ih := ih hlt
    refine ⟨Nat.le_of_succ_le ih.le, ih.le_size, fun i b hle hi hb ↦ ?_, ih.mem⟩
    rcases Nat.eq_or_lt_of_le hle with rfl | hle
    · obtain ⟨-, rfl⟩ := Array.getElem?_eq_some_iff.mp hb
      exact hmem
    · exact ih.notMem i b hle hi hb
  | case3 offset hge =>
    refine ⟨h, Nat.le_refl _, fun i b hle hlt ↦ absurd (Nat.lt_of_le_of_lt hle hlt) hge,
      fun b hb ↦ ?_⟩
    obtain ⟨hlt, -⟩ := Array.getElem?_eq_some_iff.mp hb
    exact absurd hlt (Nat.lt_irrefl _)

/-- A character that is no start byte has no start byte in its encoding. -/
theorem notMem_encodeChar {nfa : Nfa α} (h : s.Sound nfa) {c : Char}
    (hc : ∀ x ∈ s.bytes, String.utf8EncodeChar c ≠ [x]) :
    ∀ b ∈ String.utf8EncodeChar c, b ∉ s.bytes := by
  obtain ⟨lead, tail, hencode, hspells⟩ := Utf8.exists_spells c
  rw [hencode] at hc ⊢
  intro b hb hmem
  have hascii := h.ascii b hmem
  have htail : b ∉ tail := by
    intro hb
    have hle := (Utf8.isTail_eq_true_iff.mp (List.all_eq_true.mp hspells.follows b hb)).1
    exact Nat.lt_irrefl _ (Nat.lt_of_le_of_lt hle (UInt8.lt_iff_toNat_lt.mp hascii))
  rcases List.mem_cons.mp hb with rfl | hb
  · have hchar := hspells.char
    rw [if_pos hascii] at hchar
    exact hc b hmem (by rw [hchar.1])
  · exact htail hb

end StartBytes

end Lockstep
