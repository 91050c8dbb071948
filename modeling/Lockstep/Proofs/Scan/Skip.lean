import Lockstep.Proofs.Nfa.StartBytes
import Lockstep.Proofs.Scan.Sequential

/-!
# Skipping ahead in a string

A scan with nothing but a new attempt under way goes on at the next start byte. In a string it gets
to a place where a character begins, and the attempts left out would have failed.
-/

namespace Lockstep

universe u

variable {α : Type u} [Atom α]

open Utf8 (encode)

namespace StartBytes

variable [LawfulAtom α] {nfa : Nfa α} {s : StartBytes} {text : Text}

/-- From a place of a string, the next start byte is at another one, and no attempt between the two
succeeds. -/
theorem exists_place_of_next? (h : s.Sound nfa) {before after : List Char}
    (htext : text.toList = encode (before ++ after)) :
    ∃ before' after', before ++ after = before' ++ after' ∧
      (s.next? text (encode before).length).getD text.size = (encode before').length ∧
      Ahead.ofChars (encode before').length before'.getLast? after' <:+
        Ahead.ofChars (encode before).length before.getLast? after ∧
      sequential nfa.attempt (Ahead.ofChars (encode before).length before.getLast? after) =
        sequential nfa.attempt (Ahead.ofChars (encode before').length before'.getLast? after') := by
  induction after generalizing before with
  | nil =>
    rw [List.append_nil] at htext
    refine ⟨before, [], rfl, ?_, List.suffix_rfl, rfl⟩
    rw [next?_end htext, Option.getD_none, ← Array.length_toList, htext]
  | cons c after ih =>
    by_cases hc : ∃ b ∈ s.bytes, String.utf8EncodeChar c = [b]
    · obtain ⟨b, hb, hencode⟩ := hc
      refine ⟨before, c :: after, rfl, ?_, List.suffix_rfl, rfl⟩
      rw [Utf8.encode_append, Utf8.encode_cons, hencode] at htext
      rw [next?_of_mem htext hb, Option.getD_some]
    · have hne : ∀ b ∈ s.bytes, String.utf8EncodeChar c ≠ [b] := fun b hb hencode ↦
        hc ⟨b, hb, hencode⟩
      have hconcat : before ++ c :: after = before ++ [c] ++ after := by simp
      obtain ⟨before', after', heq, htarget, hsuffix, hsequential⟩ := ih (hconcat ▸ htext)
      rw [Utf8.length_encode_concat, List.getLast?_concat] at hsuffix hsequential
      refine ⟨before', after', hconcat.trans heq, ?_, hsuffix.trans (List.suffix_cons _ _), ?_⟩
      · rw [Utf8.encode_append, Utf8.encode_cons, ← List.append_assoc] at htext
        rw [next?_of_forall_notMem htext (notMem_encodeChar h hne), ← htarget, Utf8.encode_append,
          Utf8.encode_cons, Utf8.encode_nil, List.append_nil]
      · rw [← hsequential]
        exact sequential_of_none (Nfa.attempt_eq_none h _ fun c' hc' ↦ by cases hc'; exact hne)

end StartBytes

namespace Scratch

variable {s : Scratch} {offset offset' : Nat} {older : List Thread}

/-- Anchoring a scratch further on leaves it ready there. -/
theorem Ready.anchor (h : s.Ready offset older) (hle : offset ≤ offset') :
    (s.anchor offset').Ready offset' [] := by
  refine ⟨?_, nofun, nofun, List.Pairwise.nil, h.upcoming, h.found.mono (.refl _) hle⟩
  exact Generation.toList_threads_add _ _

/-- A scratch with one thread has only the new attempt under way. -/
theorem Ready.older_eq_nil (h : s.Ready offset older) (hsize : s.current.size = 1) : older = [] := by
  rw [Generation.size, ← Array.length_toList, h.current, List.length_append,
    List.length_singleton] at hsize
  exact List.length_eq_zero_iff.mp (Nat.succ.inj hsize)

end Scratch

namespace Scan

/-- A scan of a string as UTF-8, by an automaton with sound start bytes. -/
structure Reads (scan : Scan α) (s : String) : Prop where
  decoder : scan.decoder = .utf8
  text : scan.text = s.toUTF8.data
  startBytes : ∀ bytes, scan.nfa.startBytes? = some bytes → bytes.Sound scan.nfa

variable {scan : Scan α} {s : String} {bs : Ahead}

/-- What lies ahead at a place of the string is what the decoder comes to from there. -/
theorem Reads.ahead_offset (h : scan.Reads s) (hbs : Ahead.IsPlace s bs) :
    scan.decoder.ahead scan.text bs.offset (scan.decoder.before? scan.text bs.offset) = bs := by
  rw [h.decoder, h.text]
  exact hbs.ahead_offset

variable [LawfulAtom α]

/-- The scan skips to a place of the string, and no attempt on the way there succeeds. -/
theorem Reads.exists_place_of_startOffset (h : scan.Reads s) (hbs : Ahead.IsPlace s bs) :
    ∃ bs' : Ahead, bs' <:+ bs ∧ bs' ≠ [] ∧ bs'.offset = scan.startOffset bs.offset ∧
      sequential scan.nfa.attempt bs = sequential scan.nfa.attempt bs' := by
  cases hstart : scan.startBytes? with
  | none => exact ⟨bs, List.suffix_rfl, hbs.ne_nil, by simp [startOffset, hstart], rfl⟩
  | some bytes =>
    have hsound : bytes.Sound scan.nfa :=
      h.startBytes bytes (by simpa [startBytes?, h.decoder, Decoder.utf8] using hstart)
    obtain ⟨before, after, hencode, rfl⟩ := hbs.exists_ofChars
    obtain ⟨before', after', -, htarget, hsuffix, hsequential⟩ :=
      StartBytes.exists_place_of_next? hsound hencode
    have hne' : Ahead.ofChars (encode before').length before'.getLast? after' ≠ [] :=
      Ahead.ofChars_ne_nil _ _ _
    refine ⟨_, hsuffix, hne', ?_, hsequential⟩
    have hle := hbs.offset_le hsuffix hne'
    rw [Ahead.offset_ofChars, Ahead.offset_ofChars] at hle
    rw [Ahead.offset_ofChars, Ahead.offset_ofChars, startOffset, hstart]
    dsimp only
    rw [h.text, htarget, Nat.max_eq_right hle]

/-- Skipping ahead in a string is harmless. -/
theorem Reads.skipSafe (h : scan.Reads s) : scan.SkipSafe (Ahead.ofString s) := by
  rintro expected ⟨offset, prev, scratch⟩ hkeeps
  unfold skip
  dsimp only
  split
  case isFalse => exact hkeeps
  case isTrue hsize =>
  split
  case isFalse => exact hkeeps
  case isTrue hlt =>
  obtain ⟨⟨older, hready⟩, hsuffix, houtcome⟩ := hkeeps
  cases hready.older_eq_nil hsize
  obtain ⟨next, rest, hahead⟩ := scan.decoder.exists_ahead_eq_cons scan.text offset prev
  dsimp only [ahead] at hready hsuffix houtcome ⊢
  rw [hahead] at hsuffix houtcome
  obtain ⟨bs, hbs, hne, hoffset, hsequential⟩ :=
    h.exists_place_of_startOffset ⟨hsuffix, List.cons_ne_nil _ _⟩
  obtain ⟨b, rest', rfl⟩ := List.exists_cons_of_ne_nil hne
  rw [Ahead.offset_cons, Ahead.offset_cons] at hoffset
  have hplace := h.ahead_offset ⟨hbs.trans hsuffix, hne⟩
  rw [Ahead.offset_cons] at hplace
  rw [← hoffset] at hlt ⊢
  have hready' := hready.anchor (Nat.le_of_lt hlt)
  have halone := Scratch.Ready.outcome_of_alone hready' scan.nfa rest'
  have halone' := Scratch.Ready.outcome_of_alone (b := ⟨offset, prev, next⟩) hready scan.nfa rest
  refine ⟨⟨[], hready'⟩, ?_, ?_⟩
  · dsimp only [ahead]
    rw [hplace]
    exact hbs.trans hsuffix
  · dsimp only [ahead]
    rw [hplace, halone, ← hsequential, ← houtcome, halone']
    rfl

end Scan

end Lockstep
