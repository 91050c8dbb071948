import Lockstep.Proofs.Matches
import Lockstep.Proofs.Scan.Order

/-!
# The order of what a scan reports

Wherever a scan comes, its threads and its buffered matches are in order, so none of its checks fails.
Hence the matches that it reports are in order, and so are those of the scans that go on from it, up to
the marker for the end of the text.
-/

namespace Lockstep

universe u

variable {α : Type u}

/-! ## Order wherever a scan is -/

/-- The threads and the buffered matches of a scan of an automaton with `count` states are in
order. -/
structure Cursor.Orderly (count : Nat) (c : Cursor) : Prop where
  /-- No two threads are in the same state. -/
  nodup : (c.scratch.current.threads.toList.map Thread.state).Nodup
  size_le : c.scratch.current.size ≤ count
  sorted : c.scratch.current.threads.toList.Pairwise (·.start ≤ ·.start)
  /-- The last thread is that of the attempt that begins here, and the others began earlier. -/
  newest : ∃ older, c.scratch.current.threads.toList = older ++ [Thread.fresh c.offset] ∧
    ∀ t ∈ older, t.start < c.offset
  apart : c.scratch.found.toList.Pairwise fun m m' ↦
    m.span.start < m'.span.start ∧ m.span.stop ≤ m'.span.start
  stop_le : ∀ m ∈ c.scratch.found.toList, m.span.stop ≤ c.offset
  /-- No thread begins inside a buffered match. -/
  outside : ∀ t ∈ c.scratch.current.threads.toList, ∀ m ∈ c.scratch.found.toList,
    t.start ≤ m.span.start ∨ m.span.stop ≤ t.start

/-- A match comes before another one, or before the marker for the end of the text. -/
def Candidate.Precedes (c c' : Candidate) : Prop :=
  c.span.stop ≤ c'.span.start ∧ (c'.synthetic = false → c.span.start < c'.span.start)

/-- A match comes before another one, or before the marker for the end of the text. -/
def Captures.Precedes (c c' : Captures) : Prop :=
  ∃ span span', c.span? 0 = some span ∧ c'.span? 0 = some span' ∧ span.stop ≤ span'.start ∧
    (c'.synthetic = false → span.start < span'.start)

theorem Captures.span?_ofCandidate (groups : Nat) (text : Text) (t : CaptureTree) (c : Candidate) :
    (Captures.ofCandidate groups text t c).span? 0 = some c.span := by
  have hsize : 0 < (t.resolve c.captures groups).size := by
    rw [CaptureTree.resolve, size_resolveMarks]
    exact Nat.succ_pos _
  rw [Captures.ofCandidate, Captures.span?, Candidate.resolve, Array.getElem?_setIfInBounds, if_pos rfl,
    if_pos hsize]
  rfl

namespace MatchBuffer

variable {found : MatchBuffer} {start offset : Nat}

/-- Buffered matches in text order, the first one first. -/
theorem Apart.pairwise_toList (h : found.Apart start offset) (hsorted : found.Sorted) :
    found.toList.Pairwise fun c c' ↦ c.span.start < c'.span.start ∧ c.span.stop ≤ c'.span.start :=
  List.pairwise_reverse.mpr (hsorted.and h.apart)

end MatchBuffer

namespace Scan

variable {scan : Scan α} {c : Cursor} {s : Scratch} {start offset : Nat}

/-- A cursor of a scan that began at `start`, with its threads and matches in order. -/
structure InOrder (scan : Scan α) (start : Nat) (c : Cursor) : Prop where
  scratch : ∃ older, c.scratch.Orderly scan.nfa start c.offset older
  start_le : start ≤ c.offset
  offset_le : c.offset ≤ scan.text.size

/-- What a scan from `start` reports: matches in order, from `start` on and before the offset where
the next scan begins. -/
structure Reports (start : Nat) (result : Outcome × Scratch) : Prop where
  precedes : result.2.found.toList.Pairwise Candidate.Precedes
  start_le : ∀ m ∈ result.2.found.toList, start ≤ m.span.start
  lt_resume : ∀ offset, result.1 = .resume offset → ∀ m ∈ result.2.found.toList,
    m.span.start < offset ∧ m.span.stop ≤ offset

/-! ## Skipping ahead -/

theorem startBytes?_eq_some {bytes : StartBytes} (h : scan.startBytes? = some bytes) :
    scan.decoder.asciiCompatible = true ∧ scan.nfa.startBytes? = some bytes := by
  unfold startBytes? at h
  split at h
  · exact ⟨by assumption, h⟩
  · cases h

/-- Skipping ahead leads to the first start byte. -/
theorem firstFrom_startOffset {bytes : StartBytes} (h : scan.startBytes? = some bytes)
    (hle : offset ≤ scan.text.size) : bytes.FirstFrom scan.text offset (scan.startOffset offset) := by
  have hfirst := bytes.firstFrom_next? hle
  rw [startOffset, h]
  dsimp only
  rwa [Nat.max_eq_right hfirst.le]

/-- Skipping ahead leads no further than the end of the text. -/
theorem startOffset_le (h : offset ≤ scan.text.size) : scan.startOffset offset ≤ scan.text.size := by
  cases hbytes : scan.startBytes? with
  | none => rwa [startOffset, hbytes]
  | some bytes => exact (firstFrom_startOffset hbytes h).le_size

/-- A scan moves a new attempt ahead if it is alone and not where it could match. -/
def Skips (scan : Scan α) (c : Cursor) : Prop :=
  c.scratch.current.size = 1 ∧ c.offset < scan.startOffset c.offset

theorem skip_of_skips (h : scan.Skips c) : scan.skip c =
    ⟨scan.startOffset c.offset, scan.decoder.before? scan.text (scan.startOffset c.offset),
      c.scratch.anchor (scan.startOffset c.offset)⟩ :=
  (if_pos h.1).trans (if_pos h.2)

theorem skip_of_not_skips (h : ¬ scan.Skips c) : scan.skip c = c := by
  unfold Scan.skip
  dsimp only
  split
  · rename_i hsize
    exact if_neg fun hlt ↦ h ⟨hsize, hlt⟩
  · rfl

/-! ## The end of a scan -/

/-- The groups of matches in order are in order. -/
theorem Reports.pairwise_captureList {outcome : Outcome} (h : Reports start (outcome, s))
    (groups : Nat) (text : Text) (outcome' : Outcome) :
    (Round.captureList groups text ⟨outcome', s.found, s.captures⟩).Pairwise Captures.Precedes := by
  refine List.pairwise_map.mpr (h.precedes.imp fun {c c'} hprecedes ↦ ?_)
  exact ⟨c.span, c'.span, Captures.span?_ofCandidate _ _ _ _, Captures.span?_ofCandidate _ _ _ _,
    hprecedes⟩

theorem Reports.exists_span {outcome : Outcome} (h : Reports start (outcome, s)) (groups : Nat)
    (text : Text) (outcome' : Outcome) :
    ∀ m ∈ Round.captureList groups text ⟨outcome', s.found, s.captures⟩,
      ∃ span, m.span? 0 = some span ∧ start ≤ span.start := by
  intro m hm
  obtain ⟨c, hc, rfl⟩ := List.mem_map.mp hm
  exact ⟨c.span, Captures.span?_ofCandidate _ _ _ _, h.start_le c hc⟩

theorem outcome_finish_ne (scan : Scan α) (s : Scratch) (offset : Nat) :
    (scan.finish s).1 ≠ .resume offset := by
  rcases outcome_finish scan s with hout | hout <;> rw [hout] <;> simp

/-- The end of the text keeps the order: the marker comes after all matches. -/
theorem reports_finish (h : s.Moved scan.nfa start offset) (hstart : start ≤ offset)
    (hle : offset ≤ scan.text.size) :
    Reports start (scan.finish s) ∧ scan.finish? s = some (scan.finish s) := by
  have hpairwise := h.found.pairwise_toList h.stepped.found.sorted
  have hprecedes : s.found.toList.Pairwise Candidate.Precedes :=
    hpairwise.imp fun hand ↦ ⟨hand.2, fun _ ↦ hand.1⟩
  have hstop : ∀ m ∈ s.found.toList, m.span.stop ≤ scan.text.size := fun m hm ↦
    Nat.le_trans (h.found.stop_le m (List.mem_reverse.mp hm)) hle
  have hbegin : ∀ m ∈ s.found.toList, start ≤ m.span.start := fun m hm ↦
    h.found.start_le m (List.mem_reverse.mp hm)
  have hresume := outcome_finish_ne scan s
  obtain ⟨current, upcoming, captures, found⟩ := s
  dsimp only at hprecedes hstop hbegin
  by_cases hflag : scan.flags.endBoundary = true
  · have hpush : found.pushBoundary? scan.text.size = some (found.pushBoundary scan.text.size) :=
      MatchBuffer.pushBoundary?_eq fun m hm ↦ hstop m (List.mem_of_getLast? hm)
    refine ⟨⟨?_, ?_, fun offset heq ↦ (hresume offset heq).elim⟩, ?_⟩
    · simp only [finish, if_pos hflag, MatchBuffer.toList_pushBoundary]
      refine List.pairwise_append.mpr ⟨hprecedes, List.pairwise_singleton _ _, fun m hm m' hm' ↦ ?_⟩
      cases List.mem_singleton.mp hm'
      exact ⟨hstop m hm, fun hplain ↦ by cases hplain⟩
    · simp only [finish, if_pos hflag, MatchBuffer.toList_pushBoundary]
      intro m hm
      rcases List.mem_append.mp hm with hm | hm
      · exact hbegin m hm
      · cases List.mem_singleton.mp hm
        exact Nat.le_trans hstart hle
    · simp only [finish?, finish, if_pos hflag, hpush]
      rfl
  · refine ⟨⟨?_, ?_, fun offset heq ↦ (hresume offset heq).elim⟩, ?_⟩
    · simpa only [finish, if_neg hflag] using hprecedes
    · simpa only [finish, if_neg hflag] using hbegin
    · simp only [finish?, finish, if_neg hflag]
      rfl

/-! ## One character after another -/

variable [Atom α]

/-- Threads of an ordered scan have distinct states of the automaton, so there are no more of them. -/
theorem InOrder.orderly (h : scan.InOrder start c) (hregular : scan.nfa.Regular) :
    c.Orderly scan.nfa.size := by
  obtain ⟨⟨older, hs⟩, -, -⟩ := h
  have hready := hs.ready
  have hcases : ∀ t ∈ c.scratch.current.threads.toList, t ∈ older ∨ t = Thread.fresh c.offset := by
    simp [hready.current]
  refine ⟨hs.current.nodup, ?_, ?_, ⟨older, hready.current, hready.start_lt⟩,
    hs.found.pairwise_toList hready.found.sorted,
    fun m hm ↦ hs.found.stop_le m (List.mem_reverse.mp hm), fun t ht m hm ↦ ?_⟩
  · have hsubset : c.scratch.current.threads.toList.map Thread.state ⊆ List.range scan.nfa.size := by
      intro state hstate
      obtain ⟨t, ht, rfl⟩ := List.mem_map.mp hstate
      rcases hcases t ht with ht | rfl
      · obtain ⟨a, ha⟩ := (hs.older t ht).atom
        exact List.mem_range.mpr (Array.getElem?_eq_some_iff.mp ha).1
      · exact List.mem_range.mpr hregular.entry_lt
    have hle := hs.current.nodup.length_le_of_subset hsubset
    rwa [List.length_map, List.length_range, Array.length_toList] at hle
  · rw [hready.current]
    refine List.pairwise_append.mpr ⟨hready.sorted, List.pairwise_singleton _ _, fun t ht t' ht' ↦ ?_⟩
    cases List.mem_singleton.mp ht'
    exact Nat.le_of_lt (hready.start_lt t ht)
  · rcases hcases t ht with ht | rfl
    · exact (hs.older t ht).outside m (List.mem_reverse.mp hm)
    · exact .inr (hs.found.stop_le m (List.mem_reverse.mp hm))

/-- Skipping ahead keeps the order. -/
theorem InOrder.skip (h : scan.InOrder start c) (hregular : scan.nfa.Regular) :
    scan.InOrder start (scan.skip c) ∧ scan.skip? c = some (scan.skip c) := by
  obtain ⟨⟨older, hs⟩, hstart, hle⟩ := h
  by_cases hskips : scan.Skips c
  · have hle' := Nat.le_of_lt hskips.2
    have hanchor := (Scratch.anchor?_eq hs.current hregular.entry_lt (scan.startOffset c.offset)).1
    rw [skip_of_skips hskips]
    refine ⟨⟨⟨[], hs.anchor hregular hle'⟩, Nat.le_trans hstart hle', startOffset_le hle⟩, ?_⟩
    rw [skip?]
    dsimp only
    rw [if_pos hskips.1, if_pos hskips.2, hanchor]
    rfl
  · rw [skip_of_not_skips hskips]
    refine ⟨⟨⟨older, hs⟩, hstart, hle⟩, ?_⟩
    rw [skip?]
    dsimp only
    split
    · rename_i hsize
      exact if_neg fun hlt ↦ hskips ⟨hsize, hlt⟩
    · rfl

/-- The scratch after the step that a scan takes next, before `next`. -/
def stepped (scan : Scan α) (c : Cursor) (next : Option Char) : Scratch :=
  (scan.skip c).scratch.step scan.nfa ⟨(scan.skip c).offset, (scan.skip c).prev, next⟩

theorem next_of_none (h : scan.decoder.decode scan.text (scan.skip c).offset = none) :
    scan.next c = .inl (scan.finish (scan.stepped c none)) := by
  unfold Scan.next stepped
  dsimp only
  rw [h]

theorem next_of_some {char : Char} {n : Nat}
    (h : scan.decoder.decode scan.text (scan.skip c).offset = some (char, n)) :
    scan.next c = if scan.isFinal (scan.stepped c (some char)) then
        .inl (.resume ((scan.skip c).offset + n), scan.stepped c (some char))
      else .inr ⟨(scan.skip c).offset + n, some char,
        (scan.stepped c (some char)).turn ((scan.skip c).offset + n)⟩ := by
  unfold Scan.next stepped
  dsimp only
  rw [h]

/-- A step on the way keeps the order, and none of its checks fails. -/
theorem InOrder.step (h : scan.InOrder start c) (hregular : scan.nfa.Regular) (next : Option Char) :
    (scan.stepped c next).Moved scan.nfa start (scan.skip c).offset ∧
      (scan.skip c).scratch.step? scan.nfa ⟨(scan.skip c).offset, (scan.skip c).prev, next⟩ =
        some (scan.stepped c next) := by
  obtain ⟨⟨⟨older, hs⟩, hstart, -⟩, -⟩ := h.skip hregular
  exact hs.step (b := ⟨(scan.skip c).offset, (scan.skip c).prev, next⟩) hstart

/-- Taking the attempts over one character keeps the order, and none of the checks fails. -/
theorem InOrder.next (h : scan.InOrder start c) (hregular : scan.nfa.Regular) :
    scan.next? c = some (scan.next c) ∧
      match scan.next c with
      | .inl result => Reports start result
      | .inr c' => scan.InOrder start c' := by
  obtain ⟨⟨-, hstart, hle⟩, hskip⟩ := h.skip hregular
  cases hdecode : scan.decoder.decode scan.text (scan.skip c).offset with
  | none =>
    obtain ⟨hmoved, hstep⟩ := h.step hregular none
    obtain ⟨hreports, hfinish⟩ := reports_finish hmoved hstart hle
    rw [next_of_none hdecode]
    refine ⟨?_, hreports⟩
    unfold Scan.next?
    simp only [hskip, Option.bind_eq_bind, Option.bind_some, hdecode, hstep, hfinish]
  | some r =>
    obtain ⟨char, n⟩ := r
    obtain ⟨hpos, hsize⟩ := scan.decoder.decode_advances _ _ _ _ hdecode
    have hlt : (scan.skip c).offset < (scan.skip c).offset + n := Nat.lt_add_of_pos_right hpos
    obtain ⟨hmoved, hstep⟩ := h.step hregular (some char)
    rw [next_of_some hdecode]
    unfold Scan.next?
    simp only [hskip, Option.bind_eq_bind, Option.bind_some, hdecode, hstep]
    by_cases hfinal : scan.isFinal (scan.stepped c (some char)) = true
    · rw [if_pos hfinal, if_pos hfinal]
      have hpairwise := hmoved.found.pairwise_toList hmoved.stepped.found.sorted
      refine ⟨rfl, hpairwise.imp fun hand ↦ ⟨hand.2, fun _ ↦ hand.1⟩,
        fun m hm ↦ hmoved.found.start_le m (List.mem_reverse.mp hm), fun offset' heq m hm ↦ ?_⟩
      cases heq
      have hstop := hmoved.found.stop_le m (List.mem_reverse.mp hm)
      have hbegin := hmoved.found.start_le_stop m (List.mem_reverse.mp hm)
      exact ⟨Nat.lt_of_le_of_lt (Nat.le_trans hbegin hstop) hlt, Nat.le_trans hstop (Nat.le_of_lt hlt)⟩
    · obtain ⟨horderly, hturn⟩ := hmoved.turn hregular hlt
      rw [if_neg hfinal, if_neg hfinal, hturn]
      exact ⟨rfl, ⟨_, horderly⟩, Nat.le_trans hstart (Nat.le_of_lt hlt), hsize⟩

/-! ## Whole scans -/

/-- A new scan is in order. -/
theorem inOrder_start (hregular : scan.nfa.Regular) (s : Scratch) (prev : Option Char)
    (h : start ≤ scan.text.size) :
    scan.InOrder start ⟨start, prev, (s.reset scan.nfa.size).anchor start⟩ :=
  ⟨⟨[], Scratch.orderly_anchor_reset hregular s start⟩, Nat.le_refl _, h⟩

/-- The cursors that a scan comes to. -/
inductive Visits (scan : Scan α) (start : Nat) (s : Scratch) : Cursor → Prop where
  | start (h : start ≤ scan.text.size) : Visits scan start s
      ⟨start, scan.decoder.before? scan.text start, (s.reset scan.nfa.size).anchor start⟩
  | next {c c' : Cursor} (h : Visits scan start s c) (hnext : scan.next c = .inr c') :
      Visits scan start s c'

theorem Visits.inOrder (h : scan.Visits start s c) (hregular : scan.nfa.Regular) :
    scan.InOrder start c := by
  induction h with
  | start h => exact inOrder_start hregular s _ h
  | next h hnext ih =>
    have hstep := (ih.next hregular).2
    rwa [hnext] at hstep

/-- A scan ends where it has come to. -/
theorem Visits.exists_runFrom (h : scan.Visits start s c) :
    ∃ c', scan.Visits start s c' ∧ scan.next c' = .inl (scan.runFrom c) := by
  fun_induction scan.runFrom c with
  | case1 c result hnext => exact ⟨c, h, hnext⟩
  | case2 c c' hnext ih => exact ih (h.next hnext)

/-- A scan reports matches in order. -/
theorem reports_run (hregular : scan.nfa.Regular) (start : Nat) (s : Scratch) :
    Reports start (scan.run start s) := by
  rw [run]
  split
  · exact ⟨List.Pairwise.nil, fun m hm ↦ absurd hm List.not_mem_nil, fun offset heq ↦ by cases heq⟩
  · rename_i hle
    obtain ⟨c, hc, hnext⟩ := (Visits.start (s := s) (Nat.not_lt.mp hle)).exists_runFrom
    have hreports := ((hc.inOrder hregular).next hregular).2
    rwa [hnext] at hreports

/-- Scans one after another report matches in order. -/
theorem precedes_drain (hregular : scan.nfa.Regular) (groups : Nat) (text : Text) (start : Nat)
    (s : Scratch) :
    ((scan.drain start s).1.flatMap (Round.captureList groups text)).Pairwise Captures.Precedes ∧
      ∀ m ∈ (scan.drain start s).1.flatMap (Round.captureList groups text),
        ∃ span, m.span? 0 = some span ∧ start ≤ span.start := by
  fun_induction scan.drain start s with
  | case1 start s offset s' hrun round rounds s'' hdrain ih =>
    have hreports := reports_run hregular start s
    rw [hrun] at hreports
    rw [hdrain] at ih
    obtain ⟨hrounds, hbegin⟩ := ih
    have hlt := (resume_of_run (congrArg Prod.fst hrun)).1
    rw [List.flatMap_cons]
    refine ⟨List.pairwise_append.mpr ⟨hreports.pairwise_captureList groups text _, hrounds, ?_⟩, ?_⟩
    · intro m hm m' hm'
      obtain ⟨c, hc, rfl⟩ := List.mem_map.mp hm
      obtain ⟨span, hspan, hle⟩ := hbegin m' hm'
      obtain ⟨hstart, hstop⟩ := hreports.lt_resume offset rfl c hc
      exact ⟨c.span, span, Captures.span?_ofCandidate _ _ _ _, hspan, Nat.le_trans hstop hle,
        fun _ ↦ Nat.lt_of_lt_of_le hstart hle⟩
    · intro m hm
      rcases List.mem_append.mp hm with hm | hm
      · exact hreports.exists_span groups text _ m hm
      · obtain ⟨span, hspan, hle⟩ := hbegin m hm
        exact ⟨span, hspan, Nat.le_trans (Nat.le_of_lt hlt) hle⟩
  | case2 start s outcome s' hne hrun =>
    have hreports := reports_run hregular start s
    rw [hrun] at hreports
    rw [List.flatMap_singleton]
    exact ⟨hreports.pairwise_captureList groups text _, hreports.exists_span groups text _⟩

/-- Every scan keeps its threads and its matches in order wherever it comes, so none of its checks
fails; and what it reports, on its own or with the scans that follow it, is in order. -/
theorem orderly_throughout {limit : Nat} {nodes : List (Node α)} {nfa : Nfa α}
    (h : Nfa.compile limit nodes = .ok nfa) (decoder : Decoder) (text : Text) (flags : ScanFlags)
    (start : Nat) (s : Scratch) :
    let scan : Scan α := ⟨nfa, decoder, text, flags⟩
    (∀ c, scan.Visits start s c →
        c.Orderly nfa.size ∧ scan.next? c = some (scan.next c)) ∧
      (s.reset nfa.size).anchor? start = some ((s.reset nfa.size).anchor start) ∧
      (scan.run start s).2.found.toList.Pairwise Candidate.Precedes ∧
      (nfa.findAll text decoder flags).Pairwise Captures.Precedes := by
  intro scan
  have hregular : scan.nfa.Regular := Nfa.regular_of_compile h
  refine ⟨fun c hc ↦ ?_, ?_, (reports_run hregular start s).precedes,
    (precedes_drain hregular nfa.groups text 0 .empty).1⟩
  · have horder := hc.inOrder hregular
    exact ⟨horder.orderly hregular, (horder.next hregular).1⟩
  · exact (Scratch.anchor?_eq (Generation.lists_reset _ _) hregular.entry_lt start).1

/-- A scan for `(a|b)*`, and the ones that follow it. -/
theorem orderly_throughout_of_loop :
    ∃ nfa : Nfa Char,
      Nfa.compile 10 [.atom 'a', .atom 'b', .alternate, .zeroOrMore true] = .ok nfa ∧
        let scan : Scan Char := ⟨nfa, .latin1, #[98, 97, 120, 97], ⟨false, true⟩⟩
        (∀ c, scan.Visits 1 .empty c → c.Orderly nfa.size ∧ scan.next? c = some (scan.next c)) ∧
          (Scratch.empty.reset nfa.size).anchor? 1 = some ((Scratch.empty.reset nfa.size).anchor 1) ∧
          (scan.run 1 .empty).2.found.toList.Pairwise Candidate.Precedes ∧
          (nfa.findAll scan.text .latin1 scan.flags).Pairwise Captures.Precedes := by
  obtain ⟨nfa, h⟩ : ∃ nfa : Nfa Char,
      Nfa.compile 10 [.atom 'a', .atom 'b', .alternate, .zeroOrMore true] = .ok nfa := ⟨_, rfl⟩
  exact ⟨nfa, h, orderly_throughout h .latin1 #[98, 97, 120, 97] ⟨false, true⟩ 1 .empty⟩

end Scan

end Lockstep
