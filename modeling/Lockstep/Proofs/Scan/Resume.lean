import Lockstep.Proofs.Decoder.Chain
import Lockstep.Proofs.Scan.Twins

/-!
# Stopping early and going on

A scan that may stop does so as soon as its matches are final, and the next one goes on from there
with nothing behind it. A scan to the end of the text has everything behind it at the same place,
and from there on the two do the same, each new match and each new record of the one after those that
the other has behind it. The character before the place is the one that was read last, since a
decoder reads backwards what it has read.
-/

namespace Lockstep

universe u

variable {α : Type u}

/-! ## What a scratch has behind it -/

/-- The records and the matches of a scratch as a past. -/
def Frame.ofScratch (s : Scratch) : Frame := ⟨0, s.captures.records.toList, s.found.latestFirst⟩

/-- The result of a scan as a round. -/
def Round.ofResult (r : Outcome × Scratch) : Round := ⟨r.1, r.2.found, r.2.captures⟩

namespace Captures

variable {t t' : CaptureTree} {c : Candidate}

/-- The groups of a candidate depend on the marks of its history only. -/
theorem ofCandidate_congr {c' : Candidate} (hspan : c'.span = c.span)
    (hsynthetic : c'.synthetic = c.synthetic) (hpath : t'.path c'.captures = t.path c.captures)
    (groups : Nat) (text : Text) : ofCandidate groups text t' c' = ofCandidate groups text t c := by
  rw [ofCandidate, ofCandidate, Candidate.resolve, Candidate.resolve, CaptureTree.resolve,
    CaptureTree.resolve, hpath, hspan, hsynthetic]

end Captures

namespace Frame

variable {s : Scratch} {t t' : CaptureTree} {found found' : MatchBuffer}

theorem mark_ofScratch (s : Scratch) : (ofScratch s).mark = id := rfl

theorem extends_of_trees (h : (ofScratch s).Trees t t') : t'.Extends s.captures := ⟨_, h.symm⟩

/-- What is found with a past is what was found before, and then what is found without it. -/
theorem captureList_of_past (htrees : (ofScratch s).Trees t t')
    (hbuffers : (ofScratch s).Buffers found found')
    (hnames : ∀ c ∈ s.found.latestFirst, s.captures.Names c.captures) (groups : Nat) (text : Text)
    (outcome outcome₀ outcome' : Outcome) :
    Round.captureList groups text ⟨outcome', found', t'⟩ =
      Round.captureList groups text ⟨outcome₀, s.found, s.captures⟩ ++
        Round.captureList groups text ⟨outcome, found, t⟩ := by
  rw [Round.captureList, Round.captureList, Round.captureList]
  dsimp only
  rw [hbuffers.toList, List.map_append, List.map_map]
  have hpast : ∀ c ∈ s.found.toList, Captures.ofCandidate groups text t' c =
      Captures.ofCandidate groups text s.captures c := fun c hc ↦
    have hpath := (extends_of_trees htrees).path_eq (hnames c (List.mem_reverse.mp hc))
    Captures.ofCandidate_congr rfl rfl hpath groups text
  have hnew : ∀ c ∈ found.toList, (Captures.ofCandidate groups text t' ∘ (ofScratch s).candidate) c =
      Captures.ofCandidate groups text t c := fun c _ ↦ by
    have hpath := htrees.path c.captures
    rw [mark_ofScratch, List.map_id] at hpath
    show Captures.ofCandidate groups text t' ((ofScratch s).candidate c) = _
    exact Captures.ofCandidate_congr (by rfl) (by rfl) hpath groups text
  rw [List.map_congr_left hnew]
  exact congrArg (· ++ _) (List.map_congr_left hpast)

end Frame

namespace Scan

/-- The scan that goes on to the end of the text. -/
def toEnd (scan : Scan α) : Scan α := { scan with flags := { scan.flags with noEarlyReturn := true } }

variable [Atom α] {scan : Scan α} {start : Nat} {s : Scratch} {c c' : Cursor}

/-! ## One call -/

/-- What a scan relies on to go on where another one stopped: its automaton is compiled, and its
decoder reads backwards what it has read. -/
structure Resumable (scan : Scan α) : Prop where
  regular : scan.nfa.Regular
  decoder : scan.decoder.Regular
  retraces : scan.decoder.Retraces

/-- A cursor of a scan to the end of the text where a new attempt is alone, as it is where a scan
begins. -/
structure Anew (scan : Scan α) (c : Cursor) : Prop where
  inOrder : scan.toEnd.InOrder 0 c
  alone : c.scratch.current.size = 1
  reaches : scan.decoder.Reaches scan.text c.offset
  prev : c.prev = scan.decoder.before? scan.text c.offset

/-- A cursor of a scan that began at `start`, and one of the scan to the end of the text that has
the past `f` besides. -/
structure Follows (scan : Scan α) (start : Nat) (f : Frame) (c c' : Cursor) : Prop where
  inOrder : scan.InOrder start c
  inOrder' : scan.toEnd.InOrder 0 c'
  reaches : scan.decoder.Reaches scan.text c.offset
  offset : c.offset = c'.offset
  prev : c.prev = c'.prev
  scratch : f.Scratches scan.nfa.size c.scratch c'.scratch

/-- How a scan ends, seen from a cursor `c'` of the scan to the end of the text that has the past `f`
besides. -/
inductive Ends (scan : Scan α) (f : Frame) (c' : Cursor) : Outcome × Scratch → Prop where
  | ended {outcome : Outcome} {s : Scratch} (hne : ∀ offset, outcome ≠ .resume offset)
      (htrees : f.Trees s.captures (scan.toEnd.runFrom c').2.captures)
      (hbuffers : f.Buffers s.found (scan.toEnd.runFrom c').2.found) : Ends scan f c' (outcome, s)
  /-- The scan to the end of the text goes on where this one stops. -/
  | resumes {s : Scratch} {c'' : Cursor} (hrun : scan.toEnd.runFrom c' = scan.toEnd.runFrom c'')
      (hanew : scan.Anew c'') (htrees : f.Trees s.captures c''.scratch.captures)
      (hbuffers : f.Buffers s.found c''.scratch.found) : Ends scan f c' (.resume c''.offset, s)

variable {f : Frame} {result : Outcome × Scratch}

theorem Ends.of_runFrom_eq {c'' : Cursor} (h : scan.Ends f c'' result)
    (hrun : scan.toEnd.runFrom c' = scan.toEnd.runFrom c'') : scan.Ends f c' result := by
  cases h with
  | ended hne htrees hbuffers => exact .ended hne (hrun ▸ htrees) (hrun ▸ hbuffers)
  | resumes hrun' hanew htrees hbuffers => exact .resumes (hrun.trans hrun') hanew htrees hbuffers

/-- Skipping ahead leads to an offset that reading comes to. -/
theorem reachesFrom_startOffset (hregular : scan.nfa.Regular) (hdecoder : scan.decoder.Regular)
    {offset : Nat} (hle : offset ≤ scan.text.size) :
    scan.decoder.ReachesFrom scan.text offset (scan.startOffset offset) := by
  cases hbytes : scan.startBytes? with
  | none =>
    rw [startOffset, hbytes]
    exact .here
  | some bytes =>
    obtain ⟨hascii, hstored⟩ := startBytes?_eq_some hbytes
    have hfirst := firstFrom_startOffset hbytes hle
    refine hdecoder.reachesFrom_of_outside hfirst.le_size ?_ hfirst.le
    rcases Nat.eq_or_lt_of_le hfirst.le_size with heq | hlt
    · rw [heq]
      exact Decoder.outside_size _ _
    · have hbyte := Array.getElem?_eq_getElem hlt
      have hlow := (hregular.startBytes bytes hstored).ascii _ (hfirst.mem _ hbyte)
      exact hdecoder.outside_of_ascii hascii _ _ _ hbyte hlow

theorem Resumable.reaches_startOffset (h : scan.Resumable) {offset : Nat}
    (hreaches : scan.decoder.Reaches scan.text offset) :
    scan.decoder.Reaches scan.text (scan.startOffset offset) :=
  (reachesFrom_startOffset h.regular h.decoder hreaches.le_size).reaches hreaches

theorem Follows.skip (h : scan.Follows start f c c') (hresumable : scan.Resumable)
    (hbytes : f.bytes = 0) : scan.Follows start f (scan.skip c) (scan.toEnd.skip c') := by
  have hinOrder := (h.inOrder.skip hresumable.regular).1
  have hinOrder' := (h.inOrder'.skip hresumable.regular).1
  have hoffset : scan.toEnd.startOffset c'.offset = scan.startOffset c.offset :=
    congrArg scan.startOffset h.offset.symm
  have hiff : scan.toEnd.Skips c' ↔ scan.Skips c := by
    rw [Skips, Skips, h.scratch.current.size_eq, hoffset, h.offset]
  by_cases hskips : scan.Skips c
  · have hreaches := hresumable.reaches_startOffset h.reaches
    have hscratch := h.scratch.anchor hresumable.regular.entry_lt (scan.startOffset c.offset)
    rw [hbytes, Nat.add_zero] at hscratch
    rw [skip_of_skips hskips] at hinOrder ⊢
    rw [skip_of_skips (hiff.mpr hskips), hoffset] at hinOrder' ⊢
    exact ⟨hinOrder, hinOrder', hreaches, rfl, rfl, hscratch⟩
  · rwa [skip_of_not_skips hskips, skip_of_not_skips fun hskips' ↦ hskips (hiff.mp hskips')]

/-- The two take the same step. -/
theorem Follows.stepped (h : scan.Follows start f c c') (hresumable : scan.Resumable)
    (hbytes : f.bytes = 0) (hprecedes : f.Precedes start) (next : Option Char) :
    f.Scratches scan.nfa.size (scan.stepped c next) (scan.toEnd.stepped c' next) := by
  have hskipped := h.skip hresumable hbytes
  obtain ⟨⟨older, hs⟩, hstart, -⟩ := hskipped.inOrder
  have hthreads : ∀ t ∈ (scan.skip c).scratch.current.threads.toList, f.Precedes t.start := by
    intro t ht
    rw [hs.ready.current] at ht
    rcases List.mem_append.mp ht with ht | ht
    · exact hprecedes.mono (hs.older t ht).start_le
    · cases List.mem_singleton.mp ht
      exact hprecedes.mono hstart
  have hstep := hskipped.scratch.step (b := ⟨(scan.skip c).offset, (scan.skip c).prev, next⟩) hthreads
  rw [Frame.boundary, hbytes, Nat.add_zero] at hstep
  rw [Scan.stepped, Scan.stepped, ← hskipped.offset, ← hskipped.prev]
  exact hstep

/-- The two end alike at the end of the text. -/
theorem ends_finish {s' : Scratch} (hne : scan.toEnd.next c' = .inl (scan.toEnd.finish s'))
    (htrees : f.Trees s.captures s'.captures) (hbuffers : f.Buffers s.found s'.found)
    (hbytes : f.bytes = 0) : scan.Ends f c' (scan.finish s) := by
  refine .ended (outcome_finish_ne scan s) ?_ ?_
  · rw [runFrom_of_inl hne]
    exact htrees
  · rw [runFrom_of_inl hne]
    have hpush := hbuffers.pushBoundary scan.text.size
    rw [hbytes, Nat.add_zero] at hpush
    show f.Buffers (if _ then _ else _) (if scan.flags.endBoundary then _ else _)
    split
    · exact hpush
    · exact hbuffers

/-- Where a scan goes on, the one to the end of the text goes on with it. Where it stops, that one
goes on anew. -/
theorem Follows.next (h : scan.Follows start f c c') (hresumable : scan.Resumable)
    (hbytes : f.bytes = 0) (hprecedes : f.Precedes start) :
    match scan.next c with
    | .inl result => scan.Ends f c' result
    | .inr c₁ => ∃ c₁', scan.toEnd.next c' = .inr c₁' ∧ scan.Follows start f c₁ c₁' := by
  have hskipped := h.skip hresumable hbytes
  have hstepped := h.stepped hresumable hbytes hprecedes
  have hnext := (h.inOrder.next hresumable.regular).2
  have hnext' := (h.inOrder'.next hresumable.regular).2
  cases hdecode : scan.decoder.decode scan.text (scan.skip c).offset with
  | none =>
    rw [next_of_none hdecode]
    exact ends_finish (next_of_none (hskipped.offset ▸ hdecode)) (hstepped none).captures
      (hstepped none).found hbytes
  | some r =>
    obtain ⟨char, n⟩ := r
    have hreaches := hskipped.reaches.next hdecode
    have hgoes : scan.toEnd.next c' = .inr ⟨(scan.skip c).offset + n, some char,
        (scan.toEnd.stepped c' (some char)).turn ((scan.skip c).offset + n)⟩ := by
      have hdecode' : scan.toEnd.decoder.decode scan.toEnd.text (scan.toEnd.skip c').offset =
          some (char, n) := hskipped.offset ▸ hdecode
      rw [hskipped.offset]
      exact (next_of_some hdecode').trans (if_neg Bool.false_ne_true)
    rw [hgoes] at hnext'
    rw [next_of_some hdecode] at hnext ⊢
    by_cases hfinal : scan.isFinal (scan.stepped c (some char)) = true
    · rw [if_pos hfinal]
      refine .resumes (runFrom_of_inr hgoes) ⟨hnext', ?_, hreaches, ?_⟩ (hstepped _).captures
        (hstepped _).found
      · have hempty : (scan.stepped c (some char)).upcoming.isEmpty = true := by
          rw [isFinal, Bool.and_eq_true, Bool.and_eq_true] at hfinal
          exact hfinal.1.2
        rw [← (hstepped _).upcoming.isEmpty_eq] at hempty
        exact Scratch.size_turn_of_isEmpty hempty _
      · exact (hresumable.retraces.before?_add hskipped.reaches hdecode).symm
    · rw [if_neg hfinal] at hnext ⊢
      have hentry := (h.inOrder.step hresumable.regular (some char)).1.contains_entry hresumable.regular
      have hturn := (hstepped (some char)).turn hresumable.regular.entry_lt hentry
        ((scan.skip c).offset + n)
      rw [hbytes] at hturn
      exact ⟨_, hgoes, hnext, hnext', hreaches, rfl, rfl, hturn⟩

/-- A scan ends as the scan to the end of the text does, or where that one goes on anew. -/
theorem Follows.runFrom (h : scan.Follows start f c c') (hresumable : scan.Resumable)
    (hbytes : f.bytes = 0) (hprecedes : f.Precedes start) : scan.Ends f c' (scan.runFrom c) := by
  fun_induction scan.runFrom c generalizing c' with
  | case1 c result hnext =>
    have hstep := h.next hresumable hbytes hprecedes
    rwa [hnext] at hstep
  | case2 c c₁ hnext ih =>
    have hstep := h.next hresumable hbytes hprecedes
    rw [hnext] at hstep
    obtain ⟨c₁', hnext', hfollows⟩ := hstep
    exact (ih hfollows).of_runFrom_eq (runFrom_of_inr hnext')

/-- A new scan follows the one to the end of the text where a new attempt is alone. -/
theorem Anew.follows (h : scan.Anew c) (hresumable : scan.Resumable) (s : Scratch) :
    scan.Follows c.offset (Frame.ofScratch c.scratch)
      ⟨c.offset, scan.decoder.before? scan.text c.offset, (s.reset scan.nfa.size).anchor c.offset⟩
      c := by
  obtain ⟨⟨older, hs⟩, -, hle⟩ := h.inOrder
  have hcurrent := hs.ready.current
  cases hs.ready.older_eq_nil h.alone
  have hnew : scan.InOrder c.offset _ := inOrder_start hresumable.regular s
    (scan.decoder.before? scan.text c.offset) hle
  obtain ⟨older, hs'⟩ := hnew.scratch
  refine ⟨hnew, h.inOrder, h.reaches, rfl, h.prev.symm, ⟨hs'.current, hs.current, ?_⟩,
    ⟨hs'.upcoming, hs.upcoming, ?_⟩, ?_, ?_⟩
  · rw [hcurrent]
    rfl
  · rw [hs.ready.upcoming.threads]
    rfl
  · exact (List.append_nil _).symm
  · exact (List.nil_append _).symm

omit [Atom α] in
theorem Anew.precedes (h : scan.Anew c) : (Frame.ofScratch c.scratch).Precedes c.offset := by
  obtain ⟨⟨older, hs⟩, -, -⟩ := h.inOrder
  exact hs.ready.found.start_lt

omit [Atom α] in
/-- The histories of the matches that a scan has behind it are in its tree. -/
theorem Anew.names (h : scan.Anew c) :
    ∀ m ∈ c.scratch.found.latestFirst, c.scratch.captures.Names m.captures := by
  obtain ⟨⟨older, hs⟩, -, -⟩ := h.inOrder
  exact hs.ready.found.names

/-! ## All calls -/

/-- The rounds of one scan after another, each from where the one before it stops: further on, not
past the end of the text, and where reading from its start comes to. -/
inductive Calls (scan : Scan α) : Nat → Scratch → List Round → Prop where
  | last {start : Nat} {s : Scratch} (hne : ∀ offset, (scan.run start s).1 ≠ .resume offset) :
      Calls scan start s [.ofResult (scan.run start s)]
  | resume {start offset : Nat} {s : Scratch} {rounds : List Round}
      (h : (scan.run start s).1 = .resume offset) (hlt : start < offset)
      (hle : offset ≤ scan.text.size) (hreaches : scan.decoder.Reaches scan.text offset)
      (hrest : Calls scan offset (scan.run start s).2 rounds) :
      Calls scan start s (.ofResult (scan.run start s) :: rounds)

theorem run_of_le (h : start ≤ scan.text.size) (s : Scratch) : scan.run start s =
    scan.runFrom ⟨start, scan.decoder.before? scan.text start, (s.reset scan.nfa.size).anchor start⟩ :=
  if_neg (Nat.not_lt.mpr h)

/-- A new scan of the whole text is one where a new attempt is alone. -/
theorem anew_start (hresumable : scan.Resumable) (s : Scratch) :
    scan.Anew ⟨0, scan.decoder.before? scan.text 0, (s.reset scan.nfa.size).anchor 0⟩ where
  inOrder :=
    have hregular : scan.toEnd.nfa.Regular := hresumable.regular
    inOrder_start hregular s _ (Nat.zero_le _)
  alone := rfl
  reaches := .start
  prev := rfl

/-- Scans one after another find what the scan to the end of the text finds from there on. -/
theorem Anew.drain (h : scan.Anew c) (hresumable : scan.Resumable) (groups : Nat) (text : Text)
    (hstart : c.offset = start) (s : Scratch) :
    scan.Calls start s (scan.drain start s).1 ∧
      Round.captureList groups text (.ofResult (scan.toEnd.runFrom c)) =
        Round.captureList groups text ⟨.exhausted, c.scratch.found, c.scratch.captures⟩ ++
          (scan.drain start s).1.flatMap (Round.captureList groups text) := by
  fun_induction scan.drain start s generalizing c with
  | case1 start s offset s' hrun round rounds s'' hdrain =>
    rename_i ih
    subst hstart
    have hle : c.offset ≤ scan.text.size := h.inOrder.offset_le
    have hends := (h.follows hresumable s).runFrom hresumable rfl h.precedes
    rw [← run_of_le hle, hrun] at hends
    generalize hresult : (Outcome.resume offset, s') = result at hends
    cases hends with
    | ended hne htrees hbuffers =>
      cases hresult
      exact absurd rfl (hne offset)
    | @resumes s₁ c₁ hgoes hanew htrees hbuffers =>
      cases hresult
      obtain ⟨hcalls, hfound⟩ := ih hanew rfl
      rw [hdrain] at hcalls hfound
      have hresume := resume_of_run (congrArg Prod.fst hrun)
      constructor
      · have hround : round = .ofResult (scan.run c.offset s) := by rw [hrun]; rfl
        rw [hround]
        refine .resume (congrArg Prod.fst hrun) hresume.1 hresume.2 hanew.reaches ?_
        rw [hrun]
        exact hcalls
      · rw [hgoes, hfound, Frame.captureList_of_past htrees hbuffers h.names groups text _ _ _,
          List.append_assoc]
        rfl
  | case2 start s outcome s' hne hrun =>
    subst hstart
    have hle : c.offset ≤ scan.text.size := h.inOrder.offset_le
    have hends := (h.follows hresumable s).runFrom hresumable rfl h.precedes
    rw [← run_of_le hle, hrun] at hends
    generalize hresult : (outcome, s') = result at hends
    cases hends with
    | ended hne' htrees hbuffers =>
      cases hresult
      constructor
      · have hround : (⟨outcome, s'.found, s'.captures⟩ : Round) = .ofResult (scan.run c.offset s) := by
          rw [hrun]
          rfl
        rw [hround]
        refine .last fun offset heq ↦ hne offset ?_
        rw [hrun] at heq
        exact heq
      · rw [List.flatMap_singleton]
        exact Frame.captureList_of_past htrees hbuffers h.names groups text _ _ _
    | resumes hgoes hanew htrees hbuffers =>
      cases hresult
      exact absurd rfl (hne _)

/-! ## The first match -/

end Scan

theorem MatchBuffer.toList_eq_nil_iff {found : MatchBuffer} :
    found.toList = [] ↔ found.isEmpty = true := by
  rw [toList, List.reverse_eq_nil_iff, isEmpty, List.isEmpty_iff]

namespace Scan

variable [Atom α] {scan : Scan α} {c : Cursor} {result : Outcome × Scratch}

/-- A scan reports that it found nothing if no match is buffered. -/
theorem notFound_iff_of_next (h : scan.next c = .inl result) :
    result.1 = .notFound ↔ result.2.found.isEmpty = true := by
  cases hdecode : scan.decoder.decode scan.text (scan.skip c).offset with
  | none =>
    rw [next_of_none hdecode] at h
    cases h
    show (if _ then _ else _) = Outcome.notFound ↔ MatchBuffer.isEmpty (if _ then _ else _) = true
    split <;> simp_all
  | some r =>
    obtain ⟨char, n⟩ := r
    rw [next_of_some hdecode] at h
    by_cases hfinal : scan.isFinal (scan.stepped c (some char)) = true
    · rw [if_pos hfinal] at h
      cases h
      rw [isFinal, Bool.and_eq_true] at hfinal
      simpa using hfinal.2
    · rw [if_neg hfinal] at h
      cases h

theorem notFound_iff_isEmpty (scan : Scan α) (start : Nat) (s : Scratch) :
    (scan.run start s).1 = .notFound ↔ (scan.run start s).2.found.isEmpty = true := by
  rw [run]
  split
  · exact ⟨fun _ ↦ rfl, fun _ ↦ rfl⟩
  · rename_i hle
    obtain ⟨c, -, hnext⟩ := (Visits.start (s := s) (Nat.not_lt.mp hle)).exists_runFrom
    exact notFound_iff_of_next hnext

/-- The first round is that of the first scan, and the only one if that finds nothing. -/
theorem exists_drain_eq_cons (scan : Scan α) (start : Nat) (s : Scratch) :
    ∃ rounds, (scan.drain start s).1 = .ofResult (scan.run start s) :: rounds ∧
      ((scan.run start s).1 = .notFound → rounds = []) := by
  rw [drain]
  split
  · rename_i offset s' hrun
    rw [hrun]
    exact ⟨_, rfl, fun heq ↦ by cases heq⟩
  · rename_i outcome s' hne hrun
    rw [hrun]
    exact ⟨[], rfl, fun _ ↦ rfl⟩

end Scan

namespace Nfa

variable [Atom α]

/-- All matches begin with those of the first scan. -/
theorem exists_findAll_eq_append (nfa : Nfa α) (text : Text) :
    ∃ rest, nfa.findAll text .utf8 {} = Round.captureList nfa.groups text
        (.ofResult (Scan.run ⟨nfa, .utf8, text, {}⟩ 0 .empty)) ++ rest ∧
      ((Scan.run (⟨nfa, .utf8, text, {}⟩ : Scan α) 0 .empty).1 = .notFound → rest = []) := by
  obtain ⟨rounds, hrounds, hnil⟩ :=
    Scan.exists_drain_eq_cons (⟨nfa, .utf8, text, {}⟩ : Scan α) 0 .empty
  refine ⟨rounds.flatMap (Round.captureList nfa.groups text), ?_, fun h ↦ ?_⟩
  · rw [findAll, hrounds, List.flatMap_cons]
  · rw [hnil h, List.flatMap_nil]

theorem find?_eq_head? (nfa : Nfa α) (text : Text) :
    nfa.find? text = (nfa.findAll text .utf8 {}).head? := by
  obtain ⟨rest, heq, hnil⟩ := nfa.exists_findAll_eq_append text
  have hiff := Scan.notFound_iff_isEmpty (⟨nfa, .utf8, text, {}⟩ : Scan α) 0 .empty
  rw [heq, find?]
  generalize Scan.run (⟨nfa, .utf8, text, {}⟩ : Scan α) 0 .empty = result at hnil hiff ⊢
  obtain ⟨outcome, s⟩ := result
  rw [← MatchBuffer.toList_eq_nil_iff] at hiff
  rw [Round.captureList, Round.ofResult]
  dsimp only at hnil hiff ⊢
  split
  · rw [hiff.mp rfl, hnil rfl]
    rfl
  · rename_i hne
    obtain ⟨m, ms, hms⟩ := List.exists_cons_of_ne_nil fun hempty ↦ hne (hiff.mpr hempty)
    rw [hms]
    rfl

theorem isMatch_iff_ne_nil (nfa : Nfa α) (text : Text) :
    nfa.isMatch text = true ↔ nfa.findAll text .utf8 {} ≠ [] := by
  obtain ⟨rest, heq, hnil⟩ := nfa.exists_findAll_eq_append text
  have hiff := Scan.notFound_iff_isEmpty (⟨nfa, .utf8, text, {}⟩ : Scan α) 0 .empty
  rw [← MatchBuffer.toList_eq_nil_iff] at hiff
  rw [isMatch, decide_eq_true_iff]
  refine not_congr ?_
  rw [heq, List.append_eq_nil_iff, hiff, Round.captureList, List.map_eq_nil_iff]
  exact ⟨fun hempty ↦ ⟨hempty, hnil (hiff.mpr hempty)⟩, fun hand ↦ hand.1⟩

end Nfa

namespace Scan

variable [Atom α]

theorem resumable_of_compile {limit : Nat} {nodes : List (Node α)} {nfa : Nfa α}
    (h : Nfa.compile limit nodes = .ok nfa) {decoder : Decoder}
    (hdecoder : decoder = .utf8 ∨ decoder = .latin1) (text : Text) (flags : ScanFlags) :
    (⟨nfa, decoder, text, flags⟩ : Scan α).Resumable := by
  have hregular := Nfa.regular_of_compile h
  rcases hdecoder with rfl | rfl
  · exact ⟨hregular, Utf8.regular, Utf8.retraces⟩
  · exact ⟨hregular, Latin1.lawful.toRegular, Latin1.retraces⟩

/-- Scans that stop as soon as their matches are final, each from where the one before it stops,
come to an end, and together they find what one scan to the end of the text finds. The first of these
matches is the one that is looked for alone. -/
theorem calls_account {limit : Nat} {nodes : List (Node α)} {nfa : Nfa α}
    (h : Nfa.compile limit nodes = .ok nfa) {decoder : Decoder}
    (hdecoder : decoder = .utf8 ∨ decoder = .latin1) (text : Text) (endBoundary : Bool)
    (s s' : Scratch) :
    let scan : Scan α := ⟨nfa, decoder, text, ⟨false, endBoundary⟩⟩
    scan.Calls 0 s (scan.drain 0 s).1 ∧
      (scan.drain 0 s).1.flatMap (Round.captureList nfa.groups text) =
        Round.captureList nfa.groups text (.ofResult (scan.toEnd.run 0 s')) ∧
      nfa.findAll text decoder ⟨false, endBoundary⟩ =
        Round.captureList nfa.groups text (.ofResult (scan.toEnd.run 0 s')) ∧
      nfa.find? text = (nfa.findAll text .utf8 {}).head? ∧
      (nfa.isMatch text = true ↔ nfa.findAll text .utf8 {} ≠ []) := by
  intro scan
  have hresumable : scan.Resumable := resumable_of_compile h hdecoder text ⟨false, endBoundary⟩
  have hdrain := fun s ↦ (anew_start hresumable s').drain hresumable nfa.groups text rfl s
  have hrun : scan.toEnd.run 0 s' = scan.toEnd.runFrom _ := run_of_le (Nat.zero_le _) s'
  refine ⟨(hdrain s).1, ?_, ?_, nfa.find?_eq_head? text, nfa.isMatch_iff_ne_nil text⟩
  · rw [hrun]
    exact (hdrain s).2.symm
  · rw [hrun]
    exact (hdrain .empty).2.symm

/-- Scans for `a|ab` in a text with a malformed byte, with the end of the text marked. -/
theorem calls_account_of_malformed :
    ∃ nfa : Nfa Char,
      Nfa.compile 10 [.atom 'a', .atom 'a', .atom 'b', .concat, .alternate] = .ok nfa ∧
        let scan : Scan Char := ⟨nfa, .utf8, #[120, 97, 98, 226, 97, 98], ⟨false, true⟩⟩
        scan.Calls 0 .empty (scan.drain 0 .empty).1 ∧
          (scan.drain 0 .empty).1.flatMap (Round.captureList nfa.groups scan.text) =
            Round.captureList nfa.groups scan.text (.ofResult (scan.toEnd.run 0 .empty)) ∧
          nfa.findAll scan.text .utf8 ⟨false, true⟩ =
            Round.captureList nfa.groups scan.text (.ofResult (scan.toEnd.run 0 .empty)) ∧
          nfa.find? scan.text = (nfa.findAll scan.text .utf8 {}).head? ∧
          (nfa.isMatch scan.text = true ↔ nfa.findAll scan.text .utf8 {} ≠ []) := by
  obtain ⟨nfa, h⟩ : ∃ nfa : Nfa Char,
      Nfa.compile 10 [.atom 'a', .atom 'a', .atom 'b', .concat, .alternate] = .ok nfa := ⟨_, rfl⟩
  exact ⟨nfa, h, calls_account h (.inl rfl) #[120, 97, 98, 226, 97, 98] true .empty .empty⟩

end Scan

end Lockstep
