import Lockstep.Proofs.Capture.Trail
import Lockstep.Proofs.Decoder.Boundaries
import Lockstep.Proofs.Nfa.Groups
import Lockstep.Proofs.Scan.Resume

/-!
# The captures that a scan reports

The records of all attempts stand in one tree, and attempts that fork share what they have in common.
Whatever is recorded between them, the history of each live thread and of each buffered match is a
trail: its marks were made where the attempt was, at offsets that the scan came to. So the groups of a
match lie within it, and in a text that is read from its start they lie between characters.
-/

namespace Lockstep

universe u

variable {α : Type u} {On : Nat → Prop} {nfa : Nfa α} {offset offset' : Nat} {t t' : CaptureTree}
  {thread : Thread}

/-- A thread in a state of the automaton, with a trail from the start of its attempt to `offset`. -/
structure Thread.Trailed (On : Nat → Prop) (nfa : Nfa α) (offset : Nat) (t : CaptureTree)
    (thread : Thread) : Prop where
  state_lt : thread.state < nfa.size
  names : t.Names thread.captures
  start_le : thread.start ≤ offset
  start_on : On thread.start
  trail : Trail On nfa.groups thread.start offset (t.path thread.captures)

namespace Thread

theorem Trailed.mono (h : thread.Trailed On nfa offset t) (hext : t'.Extends t)
    (hle : offset ≤ offset') : thread.Trailed On nfa offset' t' where
  state_lt := h.state_lt
  names := h.names.mono hext
  start_le := Nat.le_trans h.start_le hle
  start_on := h.start_on
  trail := hext.path_eq h.names ▸ h.trail.mono hle

theorem trailed_fresh (hentry : Nfa.entry < nfa.size) (hon : On offset) (t : CaptureTree) :
    (Thread.fresh offset).Trailed On nfa offset t where
  state_lt := hentry
  names := CaptureTree.names_none t
  start_le := Nat.le_refl _
  start_on := hon
  trail := (CaptureTree.path_none t).symm ▸ .nil On nfa.groups offset offset

/-- Taking a transition goes on with the trail of a thread. -/
theorem Trailed.record (h : thread.Trailed On nfa offset t) (hmarks : nfa.MarksGroups) (hon : On offset)
    {tr : Transition} (htr : tr ∈ nfa.transitions thread.state) :
    Trail On nfa.groups thread.start offset
      ((t.record thread.captures offset (nfa.work tr)).2.path
        (t.record thread.captures offset (nfa.work tr)).1) :=
  h.trail.record h.names h.start_le hon (hmarks thread.state h.state_lt tr htr)

end Thread

/-! ## One step -/

namespace Progress

/-- The threads moved on and the matches completed so far have their trails. -/
structure Trailed (On : Nat → Prop) (nfa : Nfa α) (offset : Nat) (p : Progress) : Prop where
  threads : ∀ thread ∈ p.upcoming.threads.toList, thread.Trailed On nfa offset p.captures
  found : ∀ c ∈ p.found.latestFirst, c.Trailed On nfa.groups p.captures

variable {p : Progress} {b : Boundary} {tr : Transition} {trs : List Transition}

theorem Trailed.enter (h : p.Trailed On nfa b.offset) (hmarks : nfa.MarksGroups)
    (hthread : thread.Trailed On nfa b.offset p.captures) (hon : On b.offset)
    (htr : tr ∈ nfa.transitions thread.state) (htarget : tr.target < nfa.size) :
    (p.enter nfa b thread tr).Trailed On nfa b.offset := by
  have hext := CaptureTree.extends_record p.captures thread.captures b.offset (nfa.work tr)
  have hlast := CaptureTree.names_record hthread.names b.offset (nfa.work tr)
  refine ⟨fun thread' hmem ↦ ?_, fun c hc ↦ (h.found c hc).mono hext⟩
  dsimp only [Progress.enter] at hmem
  rw [Generation.toList_threads_add] at hmem
  rcases List.mem_append.mp hmem with hmem | hmem
  · exact (h.threads thread' hmem).mono hext (Nat.le_refl _)
  · cases List.mem_singleton.mp hmem
    exact ⟨htarget, hlast, hthread.start_le, hthread.start_on, hthread.record hmarks hon htr⟩

theorem Trailed.complete (h : p.Trailed On nfa b.offset) (hmarks : nfa.MarksGroups)
    (hthread : thread.Trailed On nfa b.offset p.captures) (hon : On b.offset)
    (htr : tr ∈ nfa.transitions thread.state) :
    (p.complete nfa b thread tr).Trailed On nfa b.offset := by
  have hext := CaptureTree.extends_record p.captures thread.captures b.offset (nfa.work tr)
  have hlast := CaptureTree.names_record hthread.names b.offset (nfa.work tr)
  refine ⟨fun thread' hmem ↦ (h.threads thread' hmem).mono hext (Nat.le_refl _), fun c hc ↦ ?_⟩
  rcases List.mem_cons.mp hc with rfl | hc
  · exact ⟨hlast, hthread.start_le, hthread.start_on, hon, hthread.record hmarks hon htr⟩
  · exact (h.found c ((List.dropWhile_sublist _).subset hc)).mono hext

variable [Atom α]

/-- Taking a thread along its transitions keeps the trails, and the tree only grows. -/
theorem Trailed.follow (h : p.Trailed On nfa b.offset) (hmarks : nfa.MarksGroups)
    (hthread : thread.Trailed On nfa b.offset p.captures) (hon : On b.offset)
    (htrs : ∀ tr ∈ trs, tr ∈ nfa.transitions thread.state) :
    (follow nfa b thread trs p).Trailed On nfa b.offset ∧
      (follow nfa b thread trs p).captures.Extends p.captures := by
  induction trs generalizing p with
  | nil => exact ⟨h, .refl _⟩
  | cons tr trs ih =>
    have htr := htrs tr List.mem_cons_self
    have hrest := fun tr' hmem ↦ htrs tr' (List.mem_cons_of_mem _ hmem)
    rcases skipped_or_taken nfa b p tr with hskip | ⟨hnew, henabled⟩
    · rw [follow_skip hskip]
      exact ih h hthread hrest
    · have hext := CaptureTree.extends_record p.captures thread.captures b.offset (nfa.work tr)
      rw [follow_of_enabled hnew henabled]
      by_cases htarget : tr.target = Nfa.final
      · rw [if_pos htarget]
        exact ⟨h.complete hmarks hthread hon htr, hext⟩
      · rw [if_neg htarget]
        obtain ⟨a, ha⟩ := Nfa.exists_atom_of_enabled henabled htarget
        have hlt := (Array.getElem?_eq_some_iff.mp ha).1
        have hafter : thread.Trailed On nfa b.offset (p.enter nfa b thread tr).captures :=
          hthread.mono hext (Nat.le_refl _)
        obtain ⟨htrailed, hgrown⟩ := ih (h.enter hmarks hthread hon htr hlt) hafter hrest
        exact ⟨htrailed, hgrown.trans hext⟩

/-- Taking threads over the boundary keeps the trails. -/
theorem Trailed.foldl (h : p.Trailed On nfa b.offset) (hmarks : nfa.MarksGroups) (hon : On b.offset)
    {threads : List Thread}
    (hthreads : ∀ thread ∈ threads, thread.Trailed On nfa b.offset p.captures) :
    (threads.foldl (advance nfa b) p).Trailed On nfa b.offset ∧
      (threads.foldl (advance nfa b) p).captures.Extends p.captures := by
  induction threads generalizing p with
  | nil => exact ⟨h, .refl _⟩
  | cons thread threads ih =>
    have hthread := hthreads thread List.mem_cons_self
    have hrest := fun thread' hmem ↦ hthreads thread' (List.mem_cons_of_mem _ hmem)
    rw [List.foldl_cons, advance]
    split
    · exact ih h hrest
    · obtain ⟨hfollow, hext⟩ := h.follow hmarks hthread hon fun _ htr ↦ htr
      obtain ⟨htrailed, hgrown⟩ := ih hfollow fun thread' hmem ↦
        (hrest thread' hmem).mono hext (Nat.le_refl _)
      exact ⟨htrailed, hgrown.trans hext⟩

end Progress

namespace Scratch

/-- All threads and all buffered matches of a scratch have their trails. -/
structure Trailed (On : Nat → Prop) (nfa : Nfa α) (offset : Nat) (s : Scratch) : Prop where
  current : ∀ thread ∈ s.current.threads.toList, thread.Trailed On nfa offset s.captures
  upcoming : ∀ thread ∈ s.upcoming.threads.toList, thread.Trailed On nfa offset s.captures
  found : ∀ c ∈ s.found.latestFirst, c.Trailed On nfa.groups s.captures

variable {s : Scratch} {b : Boundary}

theorem trailed_reset (On : Nat → Prop) (nfa : Nfa α) (offset count : Nat) (s : Scratch) :
    (s.reset count).Trailed On nfa offset := ⟨nofun, nofun, nofun⟩

/-- Leaving no attempt but a new one keeps the trails. -/
theorem Trailed.anchor (h : s.Trailed On nfa offset) (hentry : Nfa.entry < nfa.size)
    (hle : offset ≤ offset') (hon : On offset') : (s.anchor offset').Trailed On nfa offset' where
  current thread hmem := by
    dsimp only [Scratch.anchor] at hmem
    rw [Generation.toList_threads_add] at hmem
    cases List.mem_singleton.mp hmem
    exact Thread.trailed_fresh hentry hon _
  upcoming thread hmem := (h.upcoming thread hmem).mono (.refl _) hle
  found := h.found

/-- Turning to the next boundary keeps the trails. -/
theorem Trailed.turn (h : s.Trailed On nfa offset) (hentry : Nfa.entry < nfa.size)
    (hle : offset ≤ offset') (hon : On offset') : (s.turn offset').Trailed On nfa offset' where
  current thread hmem := by
    dsimp only [Scratch.turn] at hmem
    rw [Generation.toList_threads_add] at hmem
    rcases List.mem_append.mp hmem with hmem | hmem
    · exact (h.upcoming thread hmem).mono (.refl _) hle
    · cases List.mem_singleton.mp hmem
      exact Thread.trailed_fresh hentry hon _
  upcoming := nofun
  found := h.found

/-- A step keeps the trails. -/
theorem Trailed.step [Atom α] (h : s.Trailed On nfa b.offset) (hmarks : nfa.MarksGroups)
    (hon : On b.offset) : (s.step nfa b).Trailed On nfa b.offset := by
  have hbegin : (⟨s.upcoming, s.captures, s.found, false⟩ : Progress).Trailed On nfa b.offset :=
    ⟨h.upcoming, h.found⟩
  obtain ⟨htrailed, hext⟩ := hbegin.foldl hmarks hon h.current
  exact ⟨fun thread hmem ↦ (h.current thread hmem).mono hext (Nat.le_refl _), htrailed.threads,
    htrailed.found⟩

end Scratch

/-! ## Whole scans -/

namespace Scan

variable [Atom α] {scan : Scan α} {start : Nat} {s : Scratch} {c c' : Cursor}

/-- What the trails of a scan rely on: its automaton is compiled, and its decoder reads a text to the
end. -/
structure Tracked (scan : Scan α) : Prop where
  regular : scan.nfa.Regular
  marks : scan.nfa.MarksGroups
  decoder : scan.decoder.Regular

/-- The offsets that a scan from `start` comes to. -/
def ComesTo (scan : Scan α) (start offset : Nat) : Prop := scan.decoder.ReachesFrom scan.text start offset

/-- A cursor of a scan from `start`, with the trails of its threads and matches. -/
structure Trailed (scan : Scan α) (start : Nat) (c : Cursor) : Prop where
  on : scan.ComesTo start c.offset
  le_size : c.offset ≤ scan.text.size
  scratch : c.scratch.Trailed (scan.ComesTo start) scan.nfa c.offset

/-- The candidates that a scan from `start` leaves have their trails. -/
def Leaves (scan : Scan α) (start : Nat) (s : Scratch) : Prop :=
  ∀ m ∈ s.found.toList, m.Trailed (scan.ComesTo start) scan.nfa.groups s.captures

theorem Trailed.skip (h : scan.Trailed start c) (htracked : scan.Tracked) :
    scan.Trailed start (scan.skip c) := by
  by_cases hskips : scan.Skips c
  · have hreaches := reachesFrom_startOffset htracked.regular htracked.decoder h.le_size
    have hon := h.on.trans hreaches
    rw [skip_of_skips hskips]
    exact ⟨hon, startOffset_le h.le_size,
      h.scratch.anchor htracked.regular.entry_lt (Nat.le_of_lt hskips.2) hon⟩
  · rwa [skip_of_not_skips hskips]

theorem Trailed.stepped (h : scan.Trailed start c) (htracked : scan.Tracked) (next : Option Char) :
    (scan.stepped c next).Trailed (scan.ComesTo start) scan.nfa (scan.skip c).offset := by
  have hskip := h.skip htracked
  exact hskip.scratch.step (b := ⟨(scan.skip c).offset, (scan.skip c).prev, next⟩) htracked.marks
    hskip.on

omit [Atom α] in
theorem leaves_of_trailed {offset : Nat} (h : s.Trailed (scan.ComesTo start) scan.nfa offset) :
    scan.Leaves start s := fun m hm ↦ h.found m (List.mem_reverse.mp hm)

omit [Atom α] in
/-- The marker for the end of the text has a trail without marks. -/
theorem leaves_finish (h : s.Trailed (scan.ComesTo start) scan.nfa offset)
    (hon : scan.ComesTo start scan.text.size) : scan.Leaves start (scan.finish s).2 := by
  have hleaves := leaves_of_trailed h
  obtain ⟨current, upcoming, captures, found⟩ := s
  intro m hm
  by_cases hflag : scan.flags.endBoundary = true
  · simp only [finish, if_pos hflag, MatchBuffer.toList_pushBoundary] at hm
    rcases List.mem_append.mp hm with hm | hm
    · exact hleaves m hm
    · cases List.mem_singleton.mp hm
      exact ⟨CaptureTree.names_none _, Nat.le_refl _, hon, hon,
        (CaptureTree.path_none captures).symm ▸ .nil _ _ _ _⟩
  · simp only [finish, if_neg hflag] at hm
    exact hleaves m hm

/-- Taking the attempts over one character keeps the trails. -/
theorem Trailed.next (h : scan.Trailed start c) (htracked : scan.Tracked) :
    match scan.next c with
    | .inl result => scan.Leaves start result.2
    | .inr c' => scan.Trailed start c' := by
  have hskip := h.skip htracked
  cases hdecode : scan.decoder.decode scan.text (scan.skip c).offset with
  | none =>
    have hsize := (htracked.decoder.decode_eq_none_iff _ _).mp hdecode
    have heq := Nat.le_antisymm hskip.le_size hsize
    rw [next_of_none hdecode]
    exact leaves_finish (h.stepped htracked none) (heq ▸ hskip.on)
  | some r =>
    obtain ⟨char, n⟩ := r
    have hle := (scan.decoder.decode_advances _ _ _ _ hdecode).2
    have hstepped := h.stepped htracked (some char)
    rw [next_of_some hdecode]
    by_cases hfinal : scan.isFinal (scan.stepped c (some char)) = true
    · rw [if_pos hfinal]
      exact leaves_of_trailed hstepped
    · have hon : scan.ComesTo start ((scan.skip c).offset + n) := .next hskip.on hdecode
      rw [if_neg hfinal]
      exact ⟨hon, hle, hstepped.turn htracked.regular.entry_lt (Nat.le_add_right _ _) hon⟩

theorem Visits.trailed (h : scan.Visits start s c) (htracked : scan.Tracked) :
    scan.Trailed start c := by
  induction h with
  | start h =>
    exact ⟨.here, h, (Scratch.trailed_reset _ _ start _ s).anchor htracked.regular.entry_lt
      (Nat.le_refl _) .here⟩
  | next h hnext ih =>
    have hstep := ih.next htracked
    rwa [hnext] at hstep

/-- The candidates that a scan reports have their trails. -/
theorem leaves_run (htracked : scan.Tracked) (start : Nat) (s : Scratch) :
    scan.Leaves start (scan.run start s).2 := by
  rw [run]
  split
  · exact fun m hm ↦ absurd hm List.not_mem_nil
  · rename_i hle
    obtain ⟨c, hc, hnext⟩ := (Visits.start (s := s) (Nat.not_lt.mp hle)).exists_runFrom
    have hleaves := (hc.trailed htracked).next htracked
    rwa [hnext] at hleaves

/-- From an offset that reading comes to, the trails are over such offsets. -/
theorem trailed_run (htracked : scan.Tracked) (hstart : scan.decoder.Reaches scan.text start)
    (s : Scratch) : ∀ m ∈ (Round.ofResult (scan.run start s)).found.toList,
      m.Trailed (scan.decoder.Reaches scan.text) scan.nfa.groups
        (Round.ofResult (scan.run start s)).captures := fun m hm ↦
  (leaves_run htracked start s m hm).imp fun _ hon ↦ hon.reaches hstart

/-- The candidates that scans one after another report have their trails. -/
theorem Calls.trailed {rounds : List Round} (h : scan.Calls start s rounds)
    (htracked : scan.Tracked) (hstart : scan.decoder.Reaches scan.text start) :
    ∀ round ∈ rounds, ∀ m ∈ round.found.toList,
      m.Trailed (scan.decoder.Reaches scan.text) scan.nfa.groups round.captures := by
  induction h with
  | last hne =>
    intro round hmem
    cases List.mem_singleton.mp hmem
    exact trailed_run htracked hstart _
  | resume hresume hlt hle hreaches hrest ih =>
    intro round hmem
    rcases List.mem_cons.mp hmem with rfl | hmem
    · exact trailed_run htracked hstart _
    · exact ih hreaches round hmem

theorem tracked_of_compile {limit : Nat} {nodes : List (Node α)} {nfa : Nfa α}
    (h : Nfa.compile limit nodes = .ok nfa) {decoder : Decoder} (hdecoder : decoder.Regular)
    (text : Text) (flags : ScanFlags) : (⟨nfa, decoder, text, flags⟩ : Scan α).Tracked :=
  ⟨Nfa.regular_of_compile h, Nfa.marksGroups_of_compile h, hdecoder⟩

end Scan

/-! ## Reports -/

/-- The captures of a candidate of a scan from `start` are well formed: its marks go from its start to
its end, at offsets that reading comes to, none of them is dropped when its groups are resolved, group
0 is the whole match, and every other group lies within it. -/
structure Candidate.WellFormed (d : Decoder) (text : Text) (start groups : Nat) (t : CaptureTree)
    (c : Candidate) : Prop where
  names : t.Names c.captures
  descends : (t.path c.captures).Pairwise fun m m' ↦ m'.offset ≤ m.offset
  within : ∀ m ∈ t.path c.captures, c.span.start ≤ m.offset ∧ m.offset ≤ c.span.stop
  reads : ∀ m ∈ t.path c.captures, d.ReachesFrom text start m.offset
  group_le : ∀ m ∈ t.path c.captures, m.group ≤ groups
  size : (c.resolve t groups).size = groups + 1
  whole : (c.resolve t groups)[0]? = some (some c.span)
  inside : ∀ (group : Nat) (span : Span), (c.resolve t groups)[group]? = some (some span) →
    c.span.start ≤ span.start ∧ span.start ≤ span.stop ∧ span.stop ≤ c.span.stop

theorem Candidate.Trailed.wellFormed {d : Decoder} {text : Text} {start groups : Nat} {c : Candidate}
    (h : c.Trailed (d.ReachesFrom text start) groups t) : c.WellFormed d text start groups t where
  names := h.names
  descends := h.trail.descends
  within := h.trail.within
  reads := h.trail.on
  group_le := h.trail.group_le
  size := c.size_resolve t groups
  whole := c.getElem?_resolve_zero t groups
  inside group span hspan := by
    obtain ⟨hstart, hle, hstop, -, -⟩ := h.within hspan
    exact ⟨hstart, hle, hstop⟩

/-- Every group that took part in the match is a string. -/
def Captures.Readable (captures : Captures) : Prop :=
  ∀ group span, captures.span? group = some span → ∃ s, captures.string? group = some s

/-- In the bytes of a string, trails over the offsets between its characters give strings. -/
theorem Candidate.Trailed.readable {s : String} {groups : Nat} {c : Candidate}
    (h : c.Trailed (Decoder.utf8.Reaches s.toUTF8.data) groups t) :
    (Captures.ofCandidate groups s.toUTF8.data t c).Readable := by
  intro group span hspan
  obtain ⟨-, hle, -, hstart, hstop⟩ := h.within (Option.join_eq_some_iff.mp hspan)
  obtain ⟨slice, hslice⟩ :=
    Utf8.exists_toString?_slice (Utf8.toList_data_toUTF8 s) hle hstart hstop
  refine ⟨slice, ?_⟩
  rw [Captures.string?, Captures.bytes?, hspan]
  exact hslice

theorem Round.readable {s : String} {groups : Nat} {round : Round}
    (h : ∀ m ∈ round.found.toList,
      m.Trailed (Decoder.utf8.Reaches s.toUTF8.data) groups round.captures) :
    ∀ captures ∈ round.captureList groups s.toUTF8.data, captures.Readable := by
  intro captures hmem
  obtain ⟨m, hm, rfl⟩ := List.mem_map.mp hmem
  exact (h m hm).readable

namespace Scan

variable [Atom α]

/-- The captures that a scan reports are well formed. In a string that is read from its start as
UTF-8, every group of every match is a string. -/
theorem captures_wellFormed {limit : Nat} {nodes : List (Node α)} {nfa : Nfa α}
    (h : Nfa.compile limit nodes = .ok nfa) (flags : ScanFlags) (s : Scratch) :
    (∀ (decoder : Decoder) (text : Text) (start : Nat), decoder = .utf8 ∨ decoder = .latin1 →
        let scan : Scan α := ⟨nfa, decoder, text, flags⟩
        ∀ m ∈ (scan.run start s).2.found.toList,
          m.WellFormed decoder text start nfa.groups (scan.run start s).2.captures) ∧
      ∀ string : String,
        let scan : Scan α := ⟨nfa, .utf8, string.toUTF8.data, flags⟩
        (∀ captures ∈ (Round.ofResult (scan.run 0 s)).captureList nfa.groups scan.text,
          captures.Readable) ∧
          ∀ captures ∈ nfa.findAll scan.text .utf8 flags, captures.Readable := by
  constructor
  · intro decoder text start hdecoder scan m hm
    have hregular : decoder.Regular := by
      rcases hdecoder with rfl | rfl
      · exact Utf8.regular
      · exact Latin1.lawful.toRegular
    have htracked : scan.Tracked := tracked_of_compile h hregular text flags
    exact (leaves_run htracked start s m hm).wellFormed
  · intro string scan
    have htracked : scan.Tracked := tracked_of_compile h Utf8.regular string.toUTF8.data flags
    have hresumable : scan.Resumable :=
      resumable_of_compile h (.inl rfl) string.toUTF8.data flags
    refine ⟨Round.readable (trailed_run htracked .start s), fun captures hmem ↦ ?_⟩
    obtain ⟨round, hround, hmem⟩ := List.mem_flatMap.mp hmem
    have hcalls := ((anew_start hresumable s).drain hresumable nfa.groups scan.text rfl .empty).1
    exact Round.readable (hcalls.trailed htracked .start round hround) captures hmem

/-- Captures of `(a|(é))*`, the second group in the first one, in a string and in a text with
malformed bytes that is scanned from its middle. -/
theorem captures_wellFormed_of_loop :
    ∃ nfa : Nfa Char,
      Nfa.compile 20 [.atom 'a', .atom 'é', .groupStart (some 2), .groupEnd (some 2), .alternate,
        .groupStart (some 1), .groupEnd (some 1), .zeroOrMore true] = .ok nfa ∧
        nfa.findAll "aéa".toUTF8.data .utf8 {} =
          [⟨"aéa".toUTF8.data, #[some ⟨0, 4⟩, some ⟨3, 4⟩, some ⟨1, 3⟩], false⟩,
            ⟨"aéa".toUTF8.data, #[some ⟨4, 4⟩, none, none], false⟩] ∧
        (∀ captures ∈ nfa.findAll "aéa".toUTF8.data .utf8 {}, captures.Readable) ∧
        let scan : Scan Char := ⟨nfa, .utf8, #[97, 195, 97, 195, 169], ⟨true, true⟩⟩
        (scan.run 1 .empty).2.found.toList ≠ [] ∧
          ∀ m ∈ (scan.run 1 .empty).2.found.toList,
            m.WellFormed .utf8 scan.text 1 nfa.groups (scan.run 1 .empty).2.captures := by
  obtain ⟨nfa, h, hfound, hruns⟩ : ∃ nfa : Nfa Char,
      Nfa.compile 20 [.atom 'a', .atom 'é', .groupStart (some 2), .groupEnd (some 2), .alternate,
        .groupStart (some 1), .groupEnd (some 1), .zeroOrMore true] = .ok nfa ∧
        nfa.findAll "aéa".toUTF8.data .utf8 {} =
          [⟨"aéa".toUTF8.data, #[some ⟨0, 4⟩, some ⟨3, 4⟩, some ⟨1, 3⟩], false⟩,
            ⟨"aéa".toUTF8.data, #[some ⟨4, 4⟩, none, none], false⟩] ∧
        (Scan.run ⟨nfa, .utf8, #[97, 195, 97, 195, 169], ⟨true, true⟩⟩ 1
          .empty).2.found.toList ≠ [] :=
    ⟨_, rfl, by decide +kernel, by decide +kernel⟩
  exact ⟨nfa, h, hfound, ((captures_wellFormed h {} .empty).2 "aéa").2, hruns,
    (captures_wellFormed h ⟨true, true⟩ .empty).1 .utf8 _ 1 (.inl rfl)⟩

/-- Read one byte a character, a string can have a match that ends inside one of its characters. -/
theorem not_readable_of_byte :
    ∃ nfa : Nfa Char, Nfa.compile 10 [.atom 'Ã'] = .ok nfa ∧
      nfa.findAll "é".toUTF8.data .latin1 {} = [⟨"é".toUTF8.data, #[some ⟨0, 1⟩], false⟩] ∧
        ¬ ∀ captures ∈ nfa.findAll "é".toUTF8.data .latin1 {}, captures.Readable := by
  obtain ⟨nfa, h, hfound⟩ : ∃ nfa : Nfa Char, Nfa.compile 10 [.atom 'Ã'] = .ok nfa ∧
      nfa.findAll "é".toUTF8.data .latin1 {} = [⟨"é".toUTF8.data, #[some ⟨0, 1⟩], false⟩] :=
    ⟨_, rfl, by decide +kernel⟩
  refine ⟨nfa, h, hfound, fun hreadable ↦ ?_⟩
  rw [hfound] at hreadable
  obtain ⟨s, hs⟩ := hreadable _ List.mem_cons_self 0 ⟨0, 1⟩ rfl
  have hnone : (⟨"é".toUTF8.data, #[some ⟨0, 1⟩], false⟩ : Captures).string? 0 = none := by
    decide +kernel
  cases hnone.symm.trans hs

end Scan

end Lockstep
