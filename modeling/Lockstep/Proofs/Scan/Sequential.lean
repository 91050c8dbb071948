import Lockstep.Decoder.Latin1
import Lockstep.Pattern
import Lockstep.Proofs.Scan.Advance
import Lockstep.Scan.Run

/-!
# A scan finds what sequential search finds

Before each step of a scan a new attempt begins at its boundary, after those under way, and what the
scratch has in prospect is what has been in prospect from the start: one match after another, each
found by a depth-first search of its own. At the end of the text nothing is left in prospect but
the buffered matches. Where a scan ends early, what is left is the prospect of a scan that begins
there.
-/

namespace Lockstep

universe u

variable {α : Type u}

namespace Generation

/-- No thread is in the generation, and no state counts as entered. -/
structure Vacant (g : Generation) : Prop where
  threads : g.threads.toList = []
  states : g.states.toList = []

theorem vacant_clear (g : Generation) : g.clear.Vacant := ⟨rfl, rfl⟩

theorem vacant_reset (g : Generation) (count : Nat) : (g.reset count).Vacant := ⟨rfl, rfl⟩

theorem Vacant.sound {g : Generation} (h : g.Vacant) (t : CaptureTree) (bound : Nat) :
    g.Sound t bound where
  names := by simp [h.threads]
  start_le := by simp [h.threads]
  sorted := by simp [h.threads]
  entered state hstate := by
    have hmem := SparseSet.contains_iff_mem.mp hstate
    simp [h.states] at hmem

end Generation

/-! ## One step -/

section

variable [Atom α]

theorem prospects_end (nfa : Nfa α) (t : CaptureTree) (threads : List Thread) :
    prospects nfa t [] threads = none := by
  simp [prospects, Thread.prospect]

/-- A new attempt that begins after all buffered matches is what would be made next anyway. -/
theorem outcome_or_entry (nfa : Nfa α) (t : CaptureTree) {kept : List Found} {b : Boundary}
    (rest : Ahead) (hkept : ∀ m ∈ kept, m.span.start < b.offset) (r : Option (Found × Ahead)) :
    outcome nfa kept rest (r.or ((Thread.fresh b.offset).prospect nfa t (b :: rest))) =
      outcome nfa kept (b :: rest) r := by
  cases r with
  | some r => rfl
  | none =>
    have hstaying : staying kept ((Thread.fresh b.offset).prospect nfa t (b :: rest)) = kept := by
      cases hr : (Thread.fresh b.offset).prospect nfa t (b :: rest) with
      | none => rfl
      | some r =>
        refine List.filter_eq_self.mpr fun m hm ↦ decide_eq_true ?_
        rw [Thread.start_of_fresh r hr]
        exact hkept m hm
    rw [Option.none_or, outcome, outcome, hstaying, onwardMatches, sequential_cons nfa t]
    rfl

end

namespace Scratch

/-- A scratch before a step at `offset`: the threads of earlier attempts and that of a new one are
ready, in order of their starts, and the buffered matches begin earlier. -/
structure Ready (s : Scratch) (offset : Nat) (older : List Thread) : Prop where
  current : s.current.threads.toList = older ++ [Thread.fresh offset]
  names : ∀ thread ∈ older, s.captures.Names thread.captures
  start_lt : ∀ thread ∈ older, thread.start < offset
  sorted : older.Pairwise (·.start ≤ ·.start)
  upcoming : s.upcoming.Vacant
  found : s.found.Sound s.captures offset

/-- A scratch after a step at `offset`. -/
structure Stepped (s : Scratch) (offset : Nat) : Prop where
  upcoming : s.upcoming.Sound s.captures offset
  found : s.found.Sound s.captures (offset + 1)

variable {s : Scratch} {older : List Thread} {offset offset' : Nat}

/-- A scratch without attempts under way and without matches is ready where a scan begins. -/
theorem ready_anchor_reset (s : Scratch) (count offset : Nat) :
    ((s.reset count).anchor offset).Ready offset [] where
  current := by simp [anchor, Generation.clear, Thread.fresh]
  names := nofun
  start_lt := nofun
  sorted := List.Pairwise.nil
  upcoming := Generation.vacant_reset _ _
  found := MatchBuffer.sound_empty _ _

/-- The threads that moved on are ready at the next boundary, with a new attempt last. -/
theorem Stepped.ready_turn (h : s.Stepped offset) (hlt : offset < offset') :
    (s.turn offset').Ready offset' s.upcoming.threads.toList where
  current := Generation.toList_threads_add _ _
  names := h.upcoming.names
  start_lt thread hmem := Nat.lt_of_le_of_lt (h.upcoming.start_le thread hmem) hlt
  sorted := h.upcoming.sorted
  upcoming := Generation.vacant_clear _
  found := h.found.mono (.refl _) hlt

variable [Atom α] {nfa : Nfa α} {b : Boundary} {rest : Ahead}

/-- The matches that will have been found in the end, from what lies ahead of a ready scratch. -/
def outcome (nfa : Nfa α) (bs : Ahead) (s : Scratch) : List Found :=
  Lockstep.outcome nfa (s.found.view s.captures) bs.tail
    (prospects nfa s.captures bs s.current.threads.toList)

/-- The matches that will have been found in the end, from what lies ahead of the threads that moved
on. -/
def upcomingOutcome (nfa : Nfa α) (bs : Ahead) (s : Scratch) : List Found :=
  Lockstep.outcome nfa (s.found.view s.captures) bs
    (prospects nfa s.captures bs s.upcoming.threads.toList)

/-- A step at a boundary leads from a ready scratch to a stepped one. -/
theorem Ready.stepped (h : s.Ready b.offset older) (hrest : Ahead.Ordered (b :: rest)) (nfa : Nfa α) :
    (s.step nfa b).Stepped b.offset ∧
      (s.step nfa b).upcomingOutcome nfa rest = s.outcome nfa (b :: rest) := by
  obtain ⟨current, upcoming, captures, found⟩ := s
  obtain ⟨hcurrent, hnames, hlt, hsorted, hvacant, hfound⟩ := h
  dsimp only at hcurrent hnames hvacant hfound
  have hsound : Progress.Sound ⟨upcoming, captures, found, false⟩ 0 b.offset :=
    ⟨hvacant.sound captures 0, hfound⟩
  have holder := Progress.continues_older nfa hrest hsound hnames (fun _ _ ↦ Nat.zero_le _)
    (Nat.zero_le _) hlt hsorted captures
  have hentry := Progress.continues_entry nfa hrest holder.sound captures
  have hstep : (step nfa b ⟨current, upcoming, captures, found⟩) =
      let p := Progress.advance nfa b (older.foldl (Progress.advance nfa b)
        ⟨upcoming, captures, found, false⟩) (Thread.fresh b.offset)
      ⟨current, p.upcoming, p.captures, p.found⟩ := by
    simp [step, hcurrent]
  rw [hstep]
  refine ⟨⟨hentry.sound.upcoming, hentry.sound.found⟩, ?_⟩
  have houtcome := hentry.outcome.trans holder.outcome
  simp only [Progress.outcome, Option.or_none, prospects, hvacant.threads, List.findSome?_nil,
    Option.none_or, Bool.false_eq_true, if_false] at houtcome
  simp only [upcomingOutcome, outcome, prospects, hcurrent, List.findSome?_append, List.tail_cons,
    List.findSome?_singleton]
  exact houtcome

/-- Turning to the next boundary keeps the outcome. -/
theorem Stepped.outcome_turn (h : s.Stepped offset) (hlt : offset < b.offset) (nfa : Nfa α)
    (rest : Ahead) :
    (s.turn b.offset).outcome nfa (b :: rest) = s.upcomingOutcome nfa (b :: rest) := by
  have hcurrent := (h.ready_turn hlt).current
  have hkept : ∀ m ∈ s.found.view s.captures, m.span.start < b.offset := fun m hm ↦
    Nat.lt_of_lt_of_le (MatchBuffer.start_lt_of_mem_view h.found hm) hlt
  rw [outcome, hcurrent, prospects_append, prospects_singleton, List.tail_cons]
  exact outcome_or_entry nfa s.captures rest hkept _

/-- At the end of the text, the matches found are those buffered. -/
theorem upcomingOutcome_end (nfa : Nfa α) (s : Scratch) :
    s.upcomingOutcome nfa [] = s.found.view s.captures := by
  simp [upcomingOutcome, prospects_end, Lockstep.outcome, staying, onwardMatches]

/-- If no thread has moved on, the matches buffered are final. -/
theorem upcomingOutcome_of_isEmpty (h : s.upcoming.isEmpty = true) (nfa : Nfa α) (bs : Ahead) :
    s.upcomingOutcome nfa bs = s.found.view s.captures ++ sequential nfa.attempt bs := by
  have hthreads : s.upcoming.threads.toList = [] := by
    simpa [Generation.isEmpty] using h
  simp [upcomingOutcome, hthreads, prospects, Lockstep.outcome, staying, onwardMatches]

/-- A scratch with only the new attempt and no matches has everything from its boundary on in
prospect. -/
theorem Ready.outcome_of_alone (h : s.Ready b.offset []) (nfa : Nfa α) (rest : Ahead) :
    s.outcome nfa (b :: rest) = s.found.view s.captures ++ sequential nfa.attempt (b :: rest) := by
  have hkept : ∀ m ∈ s.found.view s.captures, m.span.start < b.offset := fun m hm ↦
    MatchBuffer.start_lt_of_mem_view h.found hm
  rw [outcome, h.current, List.nil_append, prospects_singleton, List.tail_cons]
  exact outcome_or_entry nfa s.captures rest hkept none

end Scratch

/-! ## The whole run -/

namespace Scan

/-- What lies ahead of a cursor. -/
def ahead (scan : Scan α) (c : Cursor) : Ahead := scan.decoder.ahead scan.text c.offset c.prev

theorem skip_of_startBytes?_none {scan : Scan α} (h : scan.startBytes? = none) (c : Cursor) :
    scan.skip c = c := by
  obtain ⟨offset, prev, s⟩ := c
  simp [skip, startOffset, h]

variable [Atom α]

/-- A cursor between two steps of a scan that began with `whole` ahead and with `expected` as its
outcome. -/
structure Keeps (scan : Scan α) (whole : Ahead) (expected : List Found) (c : Cursor) : Prop where
  ready : ∃ older, c.scratch.Ready c.offset older
  suffix : scan.ahead c <:+ whole
  outcome : c.scratch.outcome scan.nfa (scan.ahead c) = expected

/-- Skipping ahead is harmless wherever the scan may come. -/
def SkipSafe (scan : Scan α) (whole : Ahead) : Prop :=
  ∀ expected c, scan.Keeps whole expected c → scan.Keeps whole expected (scan.skip c)

/-- The result of a scan accounts for the outcome expected of it. -/
inductive Accounts (scan : Scan α) (whole : Ahead) (expected : List Found) :
    Outcome × Scratch → Prop where
  /-- The text ended, and the matches are buffered. -/
  | ended {s : Scratch} {limit : Nat} (hsound : s.found.Sound s.captures limit)
      (hview : s.found.view s.captures = expected) : Accounts scan whole expected (scan.finish s)
  /-- The matches buffered are the first ones, and the others follow from where the scan stops. -/
  | resume {s : Scratch} {limit offset : Nat} {prev : Option Char}
      (hflag : scan.flags.noEarlyReturn = false) (hne : s.found.isEmpty = false)
      (hsound : s.found.Sound s.captures limit)
      (hsuffix : scan.decoder.ahead scan.text offset prev <:+ whole)
      (hview : s.found.view s.captures ++
        sequential scan.nfa.attempt (scan.decoder.ahead scan.text offset prev) = expected) :
      Accounts scan whole expected (.resume offset, s)

variable {scan : Scan α} {whole : Ahead} {expected : List Found} {c : Cursor}

theorem skipSafe_of_startBytes?_none (h : scan.startBytes? = none) (whole : Ahead) :
    scan.SkipSafe whole := by
  intro _ c hc
  rwa [skip_of_startBytes?_none h]

/-- Taking the attempts over one character keeps the outcome, or accounts for it. -/
theorem Keeps.next (hskip : scan.SkipSafe whole) (h : scan.Keeps whole expected c) :
    match scan.next c with
    | .inl result => scan.Accounts whole expected result
    | .inr c' => scan.Keeps whole expected c' := by
  have hskipped := hskip expected c h
  unfold Scan.next
  generalize scan.skip c = c' at hskipped
  obtain ⟨offset, prev, s⟩ := c'
  obtain ⟨⟨older, hready⟩, hsuffix, houtcome⟩ := hskipped
  have hordered := scan.decoder.ordered_ahead scan.text offset prev
  dsimp only [ahead] at hready hsuffix houtcome ⊢
  cases hdecode : scan.decoder.decode scan.text offset with
  | none =>
    rw [Decoder.ahead_of_none hdecode] at hordered houtcome
    obtain ⟨hstepped, hstep⟩ := hready.stepped (b := ⟨offset, prev, none⟩) hordered scan.nfa
    refine .ended hstepped.found ?_
    rw [← Scratch.upcomingOutcome_end scan.nfa, hstep, houtcome]
  | some r =>
    obtain ⟨char, n⟩ := r
    obtain ⟨hpos, -⟩ := scan.decoder.decode_advances _ _ _ _ hdecode
    rw [Decoder.ahead_of_some hdecode] at hordered houtcome hsuffix
    obtain ⟨hstepped, hstep⟩ := hready.stepped (b := ⟨offset, prev, some char⟩) hordered scan.nfa
    have hsuffix' := (List.suffix_cons _ _).trans hsuffix
    dsimp only
    by_cases hfinal : scan.isFinal (s.step scan.nfa ⟨offset, prev, some char⟩) = true
    · rw [if_pos hfinal]
      simp only [isFinal, Bool.and_eq_true, Bool.not_eq_true'] at hfinal
      obtain ⟨⟨hflag, hempty⟩, hne⟩ := hfinal
      refine .resume hflag hne hstepped.found hsuffix' ?_
      rw [← Scratch.upcomingOutcome_of_isEmpty hempty, hstep, houtcome]
    · rw [if_neg hfinal]
      obtain ⟨next, rest, hahead⟩ :=
        scan.decoder.exists_ahead_eq_cons scan.text (offset + n) (some char)
      refine ⟨⟨_, hstepped.ready_turn (Nat.lt_add_of_pos_right hpos)⟩, hsuffix', ?_⟩
      have hturn := hstepped.outcome_turn (b := ⟨offset + n, some char, next⟩)
        (Nat.lt_add_of_pos_right hpos) scan.nfa rest
      dsimp only [ahead]
      rw [hahead]
      rw [hahead] at hstep houtcome
      exact hturn.trans (hstep.trans houtcome)

/-- A scan from a cursor accounts for the outcome it had in prospect. -/
theorem Keeps.runFrom (hskip : scan.SkipSafe whole) (h : scan.Keeps whole expected c) :
    scan.Accounts whole expected (scan.runFrom c) := by
  fun_induction scan.runFrom c with
  | case1 c result hnext =>
    have hstep := h.next hskip
    rwa [hnext] at hstep
  | case2 c c' hnext ih =>
    have hstep := h.next hskip
    rw [hnext] at hstep
    exact ih hstep

/-- A scan from the start has all matches from there on in prospect. -/
theorem keeps_start (scan : Scan α) {whole : Ahead} {start : Nat} {prev : Option Char} (s : Scratch)
    (hsuffix : scan.decoder.ahead scan.text start prev <:+ whole) :
    scan.Keeps whole (sequential scan.nfa.attempt (scan.decoder.ahead scan.text start prev))
      ⟨start, prev, (s.reset scan.nfa.size).anchor start⟩ := by
  have hready := s.ready_anchor_reset scan.nfa.size start
  refine ⟨⟨[], hready⟩, hsuffix, ?_⟩
  obtain ⟨next, rest, hahead⟩ := scan.decoder.exists_ahead_eq_cons scan.text start prev
  dsimp only [ahead]
  rw [hahead]
  exact (Scratch.Ready.outcome_of_alone (b := ⟨start, prev, next⟩) hready scan.nfa rest)

/-- A scan from `start` accounts for one match after another from there on. -/
theorem accounts_run {start : Nat} (hstart : start ≤ scan.text.size) (s : Scratch)
    (hsuffix : scan.decoder.ahead scan.text start (scan.decoder.before? scan.text start) <:+ whole)
    (hskip : scan.SkipSafe whole) :
    scan.Accounts whole
      (sequential scan.nfa.attempt
        (scan.decoder.ahead scan.text start (scan.decoder.before? scan.text start)))
      (scan.run start s) := by
  rw [run, if_neg (Nat.not_lt.mpr hstart)]
  exact (scan.keeps_start s hsuffix).runFrom hskip

/-- A scan to the end of the text, with all attempts under way at once, leaves in the buffer what
one depth-first search after another finds, spans and marks alike, and nothing else. -/
theorem view_run_eq_sequential {scan : Scan α} (hflags : scan.flags = ⟨true, false⟩)
    (hbytes : scan.startBytes? = none) {start : Nat} (hstart : start ≤ scan.text.size)
    (s : Scratch) :
    (scan.run start s).2.found.view (scan.run start s).2.captures =
        sequential scan.nfa.attempt
          (scan.decoder.ahead scan.text start (scan.decoder.before? scan.text start)) ∧
      ∀ c ∈ (scan.run start s).2.found.toList, c.synthetic = false := by
  have haccounts := accounts_run hstart s List.suffix_rfl (skipSafe_of_startBytes?_none hbytes _)
  generalize hrun : scan.run start s = result at haccounts ⊢
  cases haccounts with
  | ended hsound hview =>
    have hfinish : ∀ s', (scan.finish s').2 = s' := fun s' ↦ by simp [finish, hflags]
    rw [hfinish]
    exact ⟨hview, fun c hc ↦ hsound.plain c (List.mem_reverse.mp hc)⟩
  | resume hflag => simp [hflags] at hflag

/-- The matches of `a*b` in `xaab`, as bytes. -/
theorem view_run_eq_sequential_of_compiled :
    ∃ nfa : Nfa Char,
      Pattern.compile 10 (.concat (.zeroOrMore true (.atom 'a')) (.atom 'b')) = .ok nfa ∧
        let scan : Scan Char :=
          ⟨nfa, { Decoder.latin1 with asciiCompatible := false }, #[120, 97, 97, 98], ⟨true, false⟩⟩
        scan.flags = ⟨true, false⟩ ∧ scan.startBytes? = none ∧ 1 ≤ scan.text.size ∧
          (scan.run 1 .empty).2.found.view (scan.run 1 .empty).2.captures =
              sequential scan.nfa.attempt
                (scan.decoder.ahead scan.text 1 (scan.decoder.before? scan.text 1)) ∧
            ∀ c ∈ (scan.run 1 .empty).2.found.toList, c.synthetic = false :=
  ⟨_, rfl, rfl, rfl, by decide, view_run_eq_sequential rfl rfl (by decide) .empty⟩

end Scan

end Lockstep
