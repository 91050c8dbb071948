import Lockstep.Proofs.Scan.Resume
import Lockstep.Proofs.Scan.Unfiltered

/-!
# What a scan depends on

A scan looks at the text from its start on, and at the one character before. So it does the same
wherever a text holds these bytes, and its offsets differ by as much as the starts do. A skip to a
start byte is the only place where a scan reads backwards once it is under way. There it may look at
bytes before its start, but then a new attempt is alone and the entry tests nothing, so the character
that it reads is never looked at.
-/

namespace Lockstep

universe u

variable {α : Type u}

/-! ## The bytes from an offset on -/

/-- The bytes of a text from an offset on. -/
def Text.after (text : Text) (start : Nat) : Text := text.extract start text.size

namespace Text

variable {text : Text} {start offset : Nat}

theorem size_after (text : Text) (start : Nat) : (text.after start).size = text.size - start := by
  rw [after, Array.size_extract, Nat.min_self]

theorem getElem?_after (text : Text) (start offset : Nat) :
    (text.after start)[offset]? = text[offset + start]? := by
  rw [after, Array.getElem?_extract, Nat.min_self, Nat.add_comm start offset]
  split
  · rfl
  · exact (Array.getElem?_eq_none (by omega)).symm

theorem toList_extract_after (text : Text) (start first last : Nat) :
    ((text.after start).extract first last).toList =
      (text.extract (first + start) (last + start)).toList := by
  rw [after, Array.extract_extract, Nat.add_comm start first, Nat.add_comm start last,
    Array.toList_extract, Array.toList_extract, List.extract_eq_take_drop, List.extract_eq_take_drop]
  refine List.take_eq_take_iff.mpr ?_
  rw [List.length_drop, Array.length_toList]
  omega

end Text

namespace Decoder

/-- Decoders that read a character without a look at what is before it. -/
def LooksAhead (d : Decoder) : Prop :=
  ∀ text start offset, d.decode (text.after start) offset = d.decode text (offset + start)

end Decoder

theorem Latin1.looksAhead : Decoder.latin1.LooksAhead := fun text start offset ↦
  congrArg (Option.map _) (text.getElem?_after start offset)

theorem Utf8.looksAhead : Decoder.utf8.LooksAhead := fun text start offset ↦ by
  show Utf8.decode (text.after start) offset = Utf8.decode text (offset + start)
  unfold Utf8.decode
  simp only [text.getElem?_after, text.toList_extract_after, Nat.add_right_comm _ start]

/-- The next start byte is the same one. -/
theorem StartBytes.next?_after (s : StartBytes) (text : Text) (start offset : Nat) :
    s.next? text (offset + start) = (s.next? (text.after start) offset).map (· + start) := by
  have hsize := text.size_after start
  have hbyte := text.getElem?_after start
  fun_induction s.next? (text.after start) offset with
  | case1 offset hlt hmem =>
    have hlt' : offset + start < text.size := by omega
    have hsame := hbyte offset
    rw [Array.getElem?_eq_getElem hlt, Array.getElem?_eq_getElem hlt'] at hsame
    rw [next?, dif_pos hlt', if_pos (Option.some.inj hsame ▸ hmem), Option.map_some]
  | case2 offset hlt hmem ih =>
    have hlt' : offset + start < text.size := by omega
    have hsame := hbyte offset
    rw [Array.getElem?_eq_getElem hlt, Array.getElem?_eq_getElem hlt'] at hsame
    rw [next?, dif_pos hlt', if_neg (Option.some.inj hsame ▸ hmem), Nat.add_right_comm, ih]
  | case3 offset hge =>
    rw [next?, dif_neg (by omega), Option.map_none]

/-! ## Offsets counted from another place -/

def Mark.shift (bytes : Nat) (m : Mark) : Mark := ⟨m.side, m.group, m.offset + bytes⟩

def Record.shift (bytes : Nat) (r : Record) : Record := ⟨r.parent, r.mark.shift bytes⟩

def Candidate.shift (bytes : Nat) (c : Candidate) : Candidate :=
  ⟨⟨c.span.start + bytes, c.span.stop + bytes⟩, c.captures, c.synthetic⟩

def Outcome.shift (bytes : Nat) : Outcome → Outcome
  | .notFound => .notFound
  | .exhausted => .exhausted
  | .resume offset => .resume (offset + bytes)

/-- The round with all its offsets greater by `bytes`. -/
def Round.shift (bytes : Nat) (r : Round) : Round :=
  ⟨r.outcome.shift bytes, ⟨r.found.latestFirst.map (Candidate.shift bytes)⟩,
    ⟨r.captures.records.map (Record.shift bytes)⟩⟩

namespace Frame

/-- A past that is nothing but bytes passed over. -/
def passed (bytes : Nat) : Frame := ⟨bytes, [], []⟩

variable {bytes count : Nat} {t t' : CaptureTree} {found found' : MatchBuffer}

theorem history_passed (bytes : Nat) (last : Option Nat) : (passed bytes).history last = last := by
  cases last <;> simp [history, passed]

theorem precedes_passed (bytes start : Nat) : (passed bytes).Precedes start := nofun

theorem record_passed (bytes : Nat) : (passed bytes).record = Record.shift bytes := by
  funext r
  rw [Frame.record, history_passed]
  rfl

theorem candidate_passed (bytes : Nat) : (passed bytes).candidate = Candidate.shift bytes := by
  funext c
  rw [Frame.candidate, history_passed]
  rfl

theorem Trees.eq_of_passed (h : (passed bytes).Trees t t') :
    t' = ⟨t.records.map (Record.shift bytes)⟩ := by
  obtain ⟨records⟩ := t'
  refine congrArg CaptureTree.mk (Array.toList_inj.mp ?_)
  rw [Array.toList_map, ← record_passed]
  exact h

theorem Buffers.eq_of_passed (h : (passed bytes).Buffers found found') :
    found' = ⟨found.latestFirst.map (Candidate.shift bytes)⟩ := by
  obtain ⟨latestFirst⟩ := found'
  rw [← candidate_passed]
  exact congrArg MatchBuffer.mk (h.trans (List.append_nil _))

/-- After the reset nothing but the bytes is different. -/
theorem scratches_reset (bytes count : Nat) (s s' : Scratch) :
    (passed bytes).Scratches count (s.reset count) (s'.reset count) :=
  ⟨⟨Generation.lists_reset _ _, Generation.lists_reset _ _, rfl⟩,
    ⟨Generation.lists_reset _ _, Generation.lists_reset _ _, rfl⟩, rfl, rfl⟩

/-- Results that differ by the bytes passed over are the same round, shifted. -/
theorem ofResult_of_passed {r r' : Outcome × Scratch} (houtcome : r'.1 = r.1.shift bytes)
    (htrees : (passed bytes).Trees r.2.captures r'.2.captures)
    (hbuffers : (passed bytes).Buffers r.2.found r'.2.found) :
    Round.ofResult r' = (Round.ofResult r).shift bytes := by
  rw [Round.ofResult, houtcome, htrees.eq_of_passed, hbuffers.eq_of_passed]
  rfl

end Frame

/-! ## The scan of the bytes from its start on -/

namespace Scan

/-- The scan of what the text holds from `start` on. -/
def suffix (scan : Scan α) (start : Nat) : Scan α := { scan with text := scan.text.after start }

variable [Atom α] {scan : Scan α} {start : Nat} {c c' : Cursor}

/-- What a scan from `start` relies on to look ahead only: its automaton is compiled, and its decoder
does so. -/
structure Onward (scan : Scan α) (start : Nat) : Prop where
  regular : scan.nfa.Regular
  looksAhead : scan.decoder.LooksAhead
  start_le : start ≤ scan.text.size

/-- A cursor of the scan of what the text holds from `start` on, and the one of the scan of the whole
text at the same place. -/
structure Shifted (scan : Scan α) (start : Nat) (c c' : Cursor) : Prop where
  inOrder : (scan.suffix start).InOrder 0 c
  offset : c'.offset = c.offset + start
  prev : c'.prev = c.prev
  scratch : (Frame.passed start).Scratches scan.nfa.size c.scratch c'.scratch

omit [Atom α] in
theorem startOffset_suffix (hle : start ≤ scan.text.size) (offset : Nat) :
    scan.startOffset (offset + start) = (scan.suffix start).startOffset offset + start := by
  have hbytes : (scan.suffix start).startBytes? = scan.startBytes? := rfl
  have hsize := scan.text.size_after start
  rw [startOffset, startOffset, hbytes]
  cases scan.startBytes? with
  | none => rfl
  | some s =>
    have hnext := s.next?_after scan.text start offset
    dsimp only [suffix]
    rw [hnext, ← Nat.add_max_add_right]
    cases s.next? (scan.text.after start) offset with
    | none =>
      rw [Option.map_none, Option.getD_none, Option.getD_none, hsize, Nat.sub_add_cancel hle]
    | some target => rfl

omit [Atom α] in
/-- The two skip alike. -/
theorem Shifted.skips_iff (h : scan.Shifted start c c') (hle : start ≤ scan.text.size) :
    scan.Skips c' ↔ (scan.suffix start).Skips c := by
  rw [Skips, Skips, h.scratch.current.size_eq, h.offset, startOffset_suffix hle,
    Nat.add_lt_add_iff_right]

omit [Atom α] in
theorem Shifted.offset_skip (h : scan.Shifted start c c') (hle : start ≤ scan.text.size) :
    (scan.skip c').offset = ((scan.suffix start).skip c).offset + start := by
  by_cases hskips : (scan.suffix start).Skips c
  · rw [skip_of_skips hskips, skip_of_skips ((h.skips_iff hle).mpr hskips), h.offset]
    exact startOffset_suffix hle c.offset
  · rw [skip_of_not_skips hskips, skip_of_not_skips fun hskips' ↦ hskips ((h.skips_iff hle).mp hskips')]
    exact h.offset

/-- The two take the same step. After a skip the characters before may differ, but a new attempt that
is alone does not look at them. -/
theorem Shifted.stepped (h : scan.Shifted start c c') (honward : scan.Onward start)
    (next : Option Char) :
    (Frame.passed start).Scratches scan.nfa.size ((scan.suffix start).stepped c next)
      (scan.stepped c' next) := by
  have hiff := h.skips_iff honward.start_le
  have hprecedes := fun t : Thread ↦ Frame.precedes_passed start t.start
  by_cases hskips : (scan.suffix start).Skips c
  · have hentry := honward.regular.entry_lt
    obtain ⟨bytes, hbytes⟩ : ∃ bytes, scan.startBytes? = some bytes := by
      refine Option.ne_none_iff_exists'.mp fun hnone ↦ Nat.lt_irrefl c.offset ?_
      have hlt := hskips.2
      rwa [startOffset, show (scan.suffix start).startBytes? = none from hnone] at hlt
    have hplain := honward.regular.plain (by rw [(startBytes?_eq_some hbytes).2]; rfl)
    rw [Scan.stepped, Scan.stepped, skip_of_skips hskips, skip_of_skips (hiff.mpr hskips), h.offset,
      startOffset_suffix honward.start_le]
    generalize (scan.suffix start).startOffset c.offset = target
    have hanchor := h.scratch.anchor hentry target
    have hcurrent : (c'.scratch.anchor (target + start)).current.threads.toList =
        [Thread.fresh (target + start)] := Generation.toList_threads_add _ _
    dsimp only
    rw [Scratch.step_of_plain hcurrent hplain _
      ((scan.suffix start).decoder.before? (scan.suffix start).text target)]
    exact hanchor.step fun t _ ↦ hprecedes t
  · rw [Scan.stepped, Scan.stepped, skip_of_not_skips hskips,
      skip_of_not_skips fun hskips' ↦ hskips (hiff.mp hskips'), h.offset, h.prev]
    exact h.scratch.step fun t _ ↦ hprecedes t

omit [Atom α] in
/-- The two end alike at the end of the text. -/
theorem ofResult_finish {s s' : Scratch} (hle : start ≤ scan.text.size)
    (htrees : (Frame.passed start).Trees s.captures s'.captures)
    (hbuffers : (Frame.passed start).Buffers s.found s'.found) :
    Round.ofResult (scan.finish s') = (Round.ofResult ((scan.suffix start).finish s)).shift start := by
  have hsize : (scan.suffix start).text.size + start = scan.text.size :=
    (congrArg (· + start) (scan.text.size_after start)).trans (Nat.sub_add_cancel hle)
  have hpush := hbuffers.pushBoundary (scan.suffix start).text.size
  rw [show (scan.suffix start).text.size + (Frame.passed start).bytes = _ from hsize] at hpush
  have hfound : (Frame.passed start).Buffers ((scan.suffix start).finish s).2.found
      (scan.finish s').2.found := by
    show Frame.Buffers _ (if scan.flags.endBoundary then _ else _) (if scan.flags.endBoundary then _ else _)
    split
    · exact hpush
    · exact hbuffers
  refine Frame.ofResult_of_passed ?_ htrees hfound
  have hempty : (scan.finish s').2.found.isEmpty = ((scan.suffix start).finish s).2.found.isEmpty := by
    rw [hfound.eq_of_passed]
    exact List.isEmpty_map
  show (if (scan.finish s').2.found.isEmpty = true then Outcome.notFound else .exhausted) =
    Outcome.shift start (if ((scan.suffix start).finish s).2.found.isEmpty = true then _ else _)
  rw [hempty]
  split <;> rfl

/-- What the two come to next: the same result, or the same place. -/
theorem Shifted.next (h : scan.Shifted start c c') (honward : scan.Onward start) :
    match (scan.suffix start).next c with
    | .inl r => ∃ r', scan.next c' = .inl r' ∧ Round.ofResult r' = (Round.ofResult r).shift start
    | .inr c₁ => ∃ c₁', scan.next c' = .inr c₁' ∧ scan.Shifted start c₁ c₁' := by
  have hregular : (scan.suffix start).nfa.Regular := honward.regular
  have hstepped := h.stepped honward
  have hoffset := h.offset_skip honward.start_le
  have hahead := honward.looksAhead scan.text start ((scan.suffix start).skip c).offset
  rw [← hoffset] at hahead
  have hnext := (h.inOrder.next hregular).2
  cases hdecode : (scan.suffix start).decoder.decode (scan.suffix start).text
      ((scan.suffix start).skip c).offset with
  | none =>
    rw [next_of_none hdecode]
    exact ⟨_, next_of_none (hahead.symm.trans hdecode),
      ofResult_finish honward.start_le (hstepped none).captures (hstepped none).found⟩
  | some r =>
    obtain ⟨char, n⟩ := r
    have hfinal : scan.isFinal (scan.stepped c' (some char)) =
        (scan.suffix start).isFinal ((scan.suffix start).stepped c (some char)) := by
      rw [isFinal, isFinal, (hstepped _).upcoming.isEmpty_eq, (hstepped _).found.eq_of_passed]
      rw [MatchBuffer.isEmpty, List.isEmpty_map]
      rfl
    rw [next_of_some hdecode] at hnext ⊢
    rw [next_of_some (hahead.symm.trans hdecode), hfinal, hoffset, Nat.add_right_comm]
    by_cases hif : (scan.suffix start).isFinal ((scan.suffix start).stepped c (some char)) = true
    · rw [if_pos hif, if_pos hif]
      exact ⟨_, rfl, Frame.ofResult_of_passed rfl (hstepped _).captures (hstepped _).found⟩
    · rw [if_neg hif] at hnext ⊢
      rw [if_neg hif]
      have hnew := (h.inOrder.step hregular (some char)).1.contains_entry hregular
      exact ⟨_, rfl, hnext, rfl, rfl, (hstepped _).turn honward.regular.entry_lt hnew _⟩

theorem Shifted.runFrom (h : scan.Shifted start c c') (honward : scan.Onward start) :
    Round.ofResult (scan.runFrom c') =
      (Round.ofResult ((scan.suffix start).runFrom c)).shift start := by
  fun_induction (scan.suffix start).runFrom c generalizing c' with
  | case1 c r hnext =>
    have hstep := h.next honward
    rw [hnext] at hstep
    obtain ⟨r', hnext', hround⟩ := hstep
    rw [runFrom_of_inl hnext', hround]
  | case2 c c₁ hnext ih =>
    have hstep := h.next honward
    rw [hnext] at hstep
    obtain ⟨c₁', hnext', hshifted⟩ := hstep
    rw [runFrom_of_inr hnext', ih hshifted]

/-- What a scan finds is told by the bytes from its start on and the character before: it is found
in these bytes alone, and shifted to the start. -/
theorem ofResult_run (honward : scan.Onward start) (s s₀ : Scratch) :
    Round.ofResult (scan.run start s) =
      (Round.ofResult ((scan.suffix start).runFrom
        ⟨0, scan.decoder.before? scan.text start, (s₀.reset scan.nfa.size).anchor 0⟩)).shift start := by
  have hregular : (scan.suffix start).nfa.Regular := honward.regular
  have hanchor := (Frame.scratches_reset start scan.nfa.size s₀ s).anchor honward.regular.entry_lt 0
  rw [show 0 + (Frame.passed start).bytes = start from Nat.zero_add start] at hanchor
  rw [run_of_le honward.start_le]
  exact Shifted.runFrom ⟨inOrder_start hregular s₀ _ (Nat.zero_le _), (Nat.zero_add start).symm, rfl,
    hanchor⟩ honward

theorem onward_of_compile {limit : Nat} {nodes : List (Node α)} {nfa : Nfa α}
    (h : Nfa.compile limit nodes = .ok nfa) {decoder : Decoder}
    (hdecoder : decoder = .utf8 ∨ decoder = .latin1) {text : Text} (flags : ScanFlags)
    (hle : start ≤ text.size) : (⟨nfa, decoder, text, flags⟩ : Scan α).Onward start := by
  have hregular := Nfa.regular_of_compile h
  rcases hdecoder with rfl | rfl
  · exact ⟨hregular, Utf8.looksAhead, hle⟩
  · exact ⟨hregular, Latin1.looksAhead, hle⟩

/-- A scan depends on the text from its start on, and on one character before: where these are the
same, two scans end alike, and find the same matches with the same records, at offsets that are the
same when they are counted from the starts. -/
theorem exists_round_of_same_suffix {limit : Nat} {nodes : List (Node α)} {nfa : Nfa α}
    (h : Nfa.compile limit nodes = .ok nfa) {decoder : Decoder}
    (hdecoder : decoder = .utf8 ∨ decoder = .latin1) (flags : ScanFlags) {text text' : Text}
    {start start' : Nat} (hle : start ≤ text.size) (hle' : start' ≤ text'.size)
    (hafter : text.after start = text'.after start')
    (hprev : decoder.before? text start = decoder.before? text' start') (s s' : Scratch) :
    ∃ r : Round,
      .ofResult (Scan.run ⟨nfa, decoder, text, flags⟩ start s) = r.shift start ∧
        .ofResult (Scan.run ⟨nfa, decoder, text', flags⟩ start' s') = r.shift start' := by
  refine ⟨_, ofResult_run (onward_of_compile h hdecoder flags hle) s .empty, ?_⟩
  rw [ofResult_run (onward_of_compile h hdecoder flags hle') s' .empty]
  dsimp only [suffix]
  rw [← hafter, ← hprev]

/-- Scans for `ab` from a tail byte on, which both skip to the start byte. Reading backwards from there,
the one comes to a character that begins before its start, and the other does not. -/
theorem exists_round_of_same_suffix_behind_tail :
    ∃ nfa : Nfa Char, Nfa.compile 10 [.atom 'a', .atom 'b', .concat] = .ok nfa ∧
      nfa.startBytes? = some ⟨[97]⟩ ∧
      let text : Text := #[195, 169, 97, 98]
      let text' : Text := #[120, 255, 169, 97, 98]
      Decoder.utf8.before? text 2 ≠ Decoder.utf8.before? text' 3 ∧
        1 ≤ text.size ∧ 2 ≤ text'.size ∧ text.after 1 = text'.after 2 ∧
        Decoder.utf8.before? text 1 = Decoder.utf8.before? text' 2 ∧
        ∃ r : Round,
          .ofResult (Scan.run ⟨nfa, .utf8, text, ⟨false, true⟩⟩ 1 .empty) = r.shift 1 ∧
            .ofResult (Scan.run ⟨nfa, .utf8, text', ⟨false, true⟩⟩ 2 .empty) = r.shift 2 := by
  obtain ⟨nfa, h, hbytes⟩ : ∃ nfa : Nfa Char,
      Nfa.compile 10 [.atom 'a', .atom 'b', .concat] = .ok nfa ∧ nfa.startBytes? = some ⟨[97]⟩ :=
    ⟨_, rfl, by decide +kernel⟩
  exact ⟨nfa, h, hbytes, by decide, by decide, by decide, by decide, by decide,
    exists_round_of_same_suffix h (.inl rfl) ⟨false, true⟩ (by decide) (by decide) (by decide)
      (by decide) .empty .empty⟩

end Scan

end Lockstep
