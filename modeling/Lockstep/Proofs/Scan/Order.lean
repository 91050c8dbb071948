import Lockstep.Proofs.Nfa.Compile
import Lockstep.Proofs.Scan.Skip
import Lockstep.Proofs.Scan.Supersede

/-!
# The order of threads and matches

Threads come in the order of their starts, and buffered matches apart from each other. A match is
added without harm because no thread begins inside a buffered one: a thread that completes a match
supersedes the matches from its start on, and begins after the others. What a step cuts keeps it so,
and the attempt that begins at the boundary is spared because nothing ends after it.
-/

namespace Lockstep

universe u

variable {α : Type u}

/-! ## Matches apart from each other -/

/-- A thread begins inside no buffered match. -/
def Thread.Outside (t : Thread) (found : MatchBuffer) : Prop :=
  ∀ c ∈ found.latestFirst, t.start ≤ c.span.start ∨ c.span.stop ≤ t.start

namespace MatchBuffer

/-- Buffered matches of a scan that began at `start` and has come to `offset`: each of them ends
before the next one begins. -/
structure Apart (found : MatchBuffer) (start offset : Nat) : Prop where
  apart : found.latestFirst.Pairwise fun c c' ↦ c'.span.stop ≤ c.span.start
  start_le : ∀ c ∈ found.latestFirst, start ≤ c.span.start
  start_le_stop : ∀ c ∈ found.latestFirst, c.span.start ≤ c.span.stop
  stop_le : ∀ c ∈ found.latestFirst, c.span.stop ≤ offset

variable {found : MatchBuffer} {start offset offset' : Nat} {t t' : Thread}

theorem apart_empty (start offset : Nat) : MatchBuffer.empty.Apart start offset :=
  ⟨List.Pairwise.nil, nofun, nofun, nofun⟩

theorem Apart.mono (h : found.Apart start offset) (hle : offset ≤ offset') :
    found.Apart start offset' :=
  { h with stop_le := fun c hc ↦ Nat.le_trans (h.stop_le c hc) hle }

/-- A match that stays when a thread completes one ends before the thread begins. -/
theorem stop_le_of_start_lt (ht : t.Outside found) {c : Candidate} (hc : c ∈ found.latestFirst)
    (hlt : c.span.start < t.start) : c.span.stop ≤ t.start :=
  (ht c hc).resolve_left (Nat.not_le.mpr hlt)

/-- A thread that begins inside no match may complete one. -/
theorem Apart.insert (h : found.Apart start offset) (hsorted : found.Sorted) (ht : t.Outside found)
    (hstart : start ≤ t.start) (hle : t.start ≤ offset) (last : Option Nat) (synthetic : Bool) :
    (found.insert ⟨⟨t.start, offset⟩, last, synthetic⟩).Apart start offset := by
  constructor
  case apart =>
    rw [latestFirst_insert hsorted]
    refine List.pairwise_cons.mpr ⟨fun c hc ↦ ?_, h.apart.filter _⟩
    obtain ⟨hc, hlt⟩ := List.mem_filter.mp hc
    exact stop_le_of_start_lt ht hc (of_decide_eq_true hlt)
  all_goals
    intro c hc
    rw [latestFirst_insert hsorted] at hc
    rcases List.mem_cons.mp hc with rfl | hc
  case start_le.inl => exact hstart
  case start_le.inr => exact h.start_le c (List.mem_filter.mp hc).1
  case start_le_stop.inl => exact hle
  case start_le_stop.inr => exact h.start_le_stop c (List.mem_filter.mp hc).1
  case stop_le.inl => exact Nat.le_refl _
  case stop_le.inr => exact h.stop_le c (List.mem_filter.mp hc).1

/-- The checks for a completed match succeed. -/
theorem Apart.insert?_eq (h : found.Apart start offset) (hsorted : found.Sorted)
    (ht : t.Outside found) (last : Option Nat) (synthetic : Bool) :
    found.insert? ⟨⟨t.start, offset⟩, last, synthetic⟩ =
      some (found.insert ⟨⟨t.start, offset⟩, last, synthetic⟩) := by
  refine hsorted.insert?_eq fun c hc ↦ ?_
  have hc' := List.mem_reverse.mp hc
  exact ⟨h.stop_le c hc', stop_le_of_start_lt ht hc'⟩

/-- A thread that begins no later than a new match begins inside none. -/
theorem outside_insert (hsorted : found.Sorted) (ht : t.Outside found) {c : Candidate}
    (hle : t.start ≤ c.span.start) : t.Outside (found.insert c) := by
  intro c' hc'
  rw [latestFirst_insert hsorted] at hc'
  rcases List.mem_cons.mp hc' with rfl | hc'
  · exact .inl hle
  · exact ht c' (List.mem_filter.mp hc').1

/-- A thread that begins at the offset, or after it, begins inside no match. -/
theorem Apart.outside (h : found.Apart start offset) (hle : offset ≤ t.start) : t.Outside found :=
  fun c hc ↦ .inr (Nat.le_trans (h.stop_le c hc) hle)

end MatchBuffer

/-- A thread of an attempt that began at `start` or later: it is in a state that consumes, and begins
inside no buffered match. -/
structure Thread.Placed (nfa : Nfa α) (start : Nat) (found : MatchBuffer) (t : Thread) : Prop where
  atom : ∃ a, nfa.states[t.state]? = some (.atom a)
  start_le : start ≤ t.start
  outside : t.Outside found

/-! ## One step -/

namespace Progress

/-- What holds in the midst of a step at `offset`, of a scan that began at `start`. No thread that
was moved on begins after `bound`. -/
structure Orderly (nfa : Nfa α) (start bound offset : Nat) (p : Progress) : Prop where
  sound : p.Sound bound (offset + 1)
  lists : p.upcoming.Lists nfa.size
  threads : ∀ t ∈ p.upcoming.threads.toList, t.Placed nfa start p.found
  found : p.found.Apart start offset

variable {nfa : Nfa α} {b : Boundary} {start bound bound' : Nat} {thread : Thread} {p p' : Progress}
  {tr : Transition} {trs : List Transition} {older : List Thread}

theorem Orderly.mono (h : p.Orderly nfa start bound b.offset) (hle : bound ≤ bound') :
    p.Orderly nfa start bound' b.offset :=
  { h with sound := ⟨h.sound.upcoming.mono (.refl _) hle, h.sound.found⟩ }

/-- A thread may enter a state that is not entered yet. -/
theorem Orderly.enter (h : p.Orderly nfa start thread.start b.offset)
    (hnames : p.captures.Names thread.captures) (hstart : start ≤ thread.start)
    (houtside : thread.Outside p.found) (hnew : p.upcoming.contains tr.target = false)
    (hatom : ∃ a, nfa.states[tr.target]? = some (.atom a)) (htarget : tr.target ≠ Nfa.final) :
    (p.enter nfa b thread tr).Orderly nfa start thread.start b.offset ∧
      p.upcoming.add? (p.successor nfa b thread tr) =
        some (p.upcoming.add (p.successor nfa b thread tr)) := by
  obtain ⟨a, ha⟩ := hatom
  have hlt : tr.target < nfa.size := (Array.getElem?_eq_some_iff.mp ha).1
  refine ⟨⟨h.sound.enter hnames rfl nfa b htarget, h.lists.add hlt hnew, fun t ht ↦ ?_, h.found⟩,
    h.lists.add?_eq hlt hnew⟩
  dsimp only [Progress.enter] at ht ⊢
  rw [Generation.toList_threads_add] at ht
  rcases List.mem_append.mp ht with ht | ht
  · exact h.threads t ht
  · cases List.mem_singleton.mp ht
    exact ⟨⟨a, ha⟩, hstart, houtside⟩

/-- A thread that begins inside no match may complete one, since none that was moved on begins
after it. -/
theorem Orderly.complete (h : p.Orderly nfa start thread.start b.offset)
    (hnames : p.captures.Names thread.captures) (hstart : start ≤ thread.start)
    (hle : thread.start ≤ b.offset) (houtside : thread.Outside p.found) (tr : Transition) :
    (p.complete nfa b thread tr).Orderly nfa start thread.start b.offset ∧
      p.found.insert? (p.candidate nfa b thread tr) =
        some (p.found.insert (p.candidate nfa b thread tr)) := by
  have hsorted := h.sound.found.sorted
  refine ⟨⟨h.sound.complete hnames (Nat.lt_succ_of_le hle) nfa b tr, h.lists, fun t ht ↦ ?_,
    h.found.insert hsorted houtside hstart hle _ _⟩, h.found.insert?_eq hsorted houtside _ _⟩
  obtain ⟨hatom, hlo, hout⟩ := h.threads t ht
  exact ⟨hatom, hlo, MatchBuffer.outside_insert hsorted hout (h.sound.upcoming.start_le t ht)⟩

variable [Atom α]

/-- What a part of a step does is orderly, the tree only grows, and no check fails. -/
structure Succeeds (nfa : Nfa α) (start bound offset : Nat) (p p' : Progress)
    (result : Option Progress) : Prop where
  orderly : p'.Orderly nfa start bound offset
  extend : p'.captures.Extends p.captures
  checked : result = some p'

/-- Taking a thread along its transitions keeps the order. -/
theorem Orderly.follow (h : p.Orderly nfa start thread.start b.offset) (trs : List Transition)
    (hnames : p.captures.Names thread.captures) (hstart : start ≤ thread.start)
    (hle : thread.start ≤ b.offset) (houtside : thread.Outside p.found) :
    Succeeds nfa start thread.start b.offset p (follow nfa b thread trs p)
      (follow? nfa b thread trs p) := by
  induction trs generalizing p with
  | nil => exact ⟨h, .refl _, rfl⟩
  | cons tr trs ih =>
    rcases skipped_or_taken nfa b p tr with hskip | ⟨hnew, henabled⟩
    · rw [follow_skip hskip, follow?_skip hskip]
      exact ih h hnames houtside
    · have hext := CaptureTree.extends_record p.captures thread.captures b.offset (nfa.work tr)
      have hcomplete := h.complete hnames hstart hle houtside tr
      have henter := fun htarget ↦ h.enter hnames hstart houtside hnew
        (Nfa.exists_atom_of_enabled henabled htarget) htarget
      rw [follow_of_enabled hnew henabled,
        follow?_of_enabled hnew henabled (fun _ ↦ hcomplete.2) fun htarget ↦ (henter htarget).2]
      by_cases htarget : tr.target = Nfa.final
      · rw [if_pos htarget, if_pos htarget]
        exact ⟨hcomplete.1, hext, rfl⟩
      · rw [if_neg htarget, if_neg htarget]
        have ih := ih (p := p.enter nfa b thread tr) (henter htarget).1 (hnames.mono hext) houtside
        exact ⟨ih.orderly, ih.extend.trans hext, ih.checked⟩

/-- A thread that completes no match leaves the buffered ones alone. -/
theorem found_follow_of_cut (hcut : (follow nfa b thread trs p).cut = false) :
    (follow nfa b thread trs p).found = p.found := by
  induction trs generalizing p with
  | nil => rfl
  | cons tr trs ih =>
    rcases skipped_or_taken nfa b p tr with hskip | ⟨hnew, henabled⟩
    · rw [follow_skip hskip] at hcut ⊢
      exact ih hcut
    · rw [follow_of_enabled hnew henabled] at hcut ⊢
      by_cases htarget : tr.target = Nfa.final
      · rw [if_pos htarget] at hcut
        cases hcut
      · rw [if_neg htarget] at hcut ⊢
        exact ih hcut

/-- Taking the threads of earlier attempts over a boundary keeps the order. Those still to come
begin inside no match as long as none was completed, and are cut otherwise. -/
theorem Orderly.foldl (h : p.Orderly nfa start bound b.offset)
    (houtside : p.cut = false → ∀ t ∈ older, t.Outside p.found)
    (hnames : ∀ t ∈ older, p.captures.Names t.captures) (hstart : ∀ t ∈ older, start ≤ t.start)
    (hbound : ∀ t ∈ older, bound ≤ t.start) (hle : bound ≤ b.offset)
    (hlt : ∀ t ∈ older, t.start < b.offset) (hsorted : older.Pairwise (·.start ≤ ·.start)) :
    Succeeds nfa start b.offset b.offset p (older.foldl (advance nfa b) p)
      (older.foldlM (advance? nfa b) p) := by
  induction older generalizing p bound with
  | nil => exact ⟨h.mono hle, .refl _, rfl⟩
  | cons thread older ih =>
    obtain ⟨hthread, holder⟩ := List.pairwise_cons.mp hsorted
    have hmem : ∀ t ∈ older, t ∈ thread :: older := fun _ ↦ List.mem_cons_of_mem _
    have hlt' := hlt thread List.mem_cons_self
    rw [List.foldl_cons, List.foldlM_cons]
    cases hcut : p.cut with
    | true =>
      have hskip : (p.cut && thread.start != b.offset) = true := by
        simp [hcut, Nat.ne_of_lt hlt']
      rw [advance, advance?, if_pos hskip, if_pos hskip]
      exact ih h (fun hfalse ↦ by rw [hcut] at hfalse; cases hfalse) (fun t ht ↦ hnames t (hmem t ht))
        (fun t ht ↦ hstart t (hmem t ht)) (fun t ht ↦ hbound t (hmem t ht)) hle
        (fun t ht ↦ hlt t (hmem t ht)) holder
    | false =>
      have hgo : ¬ (p.cut && thread.start != b.offset) = true := by simp [hcut]
      rw [advance, advance?, if_neg hgo, if_neg hgo]
      have hstep := (h.mono (hbound thread List.mem_cons_self)).follow
        (nfa.transitions thread.state) (hnames thread List.mem_cons_self)
        (hstart thread List.mem_cons_self) (Nat.le_of_lt hlt')
        (houtside hcut thread List.mem_cons_self)
      have ih := ih hstep.orderly
        (fun hcut' t ht ↦ by rw [found_follow_of_cut hcut']; exact houtside hcut t (hmem t ht))
        (fun t ht ↦ (hnames t (hmem t ht)).mono hstep.extend) (fun t ht ↦ hstart t (hmem t ht))
        hthread (Nat.le_of_lt hlt') (fun t ht ↦ hlt t (hmem t ht)) holder
      rw [hstep.checked]
      exact ⟨ih.orderly, ih.extend.trans hstep.extend, ih.checked⟩

/-- Taking the thread of the new attempt over its boundary keeps the order: no match ends after the
boundary. -/
theorem Orderly.entry (h : p.Orderly nfa start b.offset b.offset) (hstart : start ≤ b.offset) :
    Succeeds nfa start b.offset b.offset p (advance nfa b p (Thread.fresh b.offset))
      (advance? nfa b p (Thread.fresh b.offset)) := by
  have hgo : ¬ (p.cut && (Thread.fresh b.offset).start != b.offset) = true := by simp
  rw [advance, advance?, if_neg hgo, if_neg hgo]
  have hsame : p.Orderly nfa start (Thread.fresh b.offset).start b.offset := h
  exact hsame.follow (nfa.transitions Nfa.entry) (CaptureTree.names_none _) hstart (Nat.le_refl _)
    (h.found.outside (Nat.le_refl _))

end Progress

namespace Scratch

/-- A scratch before a step at `offset`, of a scan that began at `start`. -/
structure Orderly (nfa : Nfa α) (start offset : Nat) (s : Scratch) (older : List Thread) : Prop where
  ready : s.Ready offset older
  current : s.current.Lists nfa.size
  upcoming : s.upcoming.Lists nfa.size
  older : ∀ t ∈ older, t.Placed nfa start s.found
  found : s.found.Apart start offset

/-- A scratch after a step at `offset`. -/
structure Moved (nfa : Nfa α) (start offset : Nat) (s : Scratch) : Prop where
  stepped : s.Stepped offset
  current : s.current.Lists nfa.size
  upcoming : s.upcoming.Lists nfa.size
  threads : ∀ t ∈ s.upcoming.threads.toList, t.Placed nfa start s.found
  found : s.found.Apart start offset

variable {nfa : Nfa α} {b : Boundary} {s : Scratch} {start offset offset' count : Nat}
  {older : List Thread}

/-- If no thread moved on, a new attempt is alone at the next boundary. -/
theorem size_turn_of_isEmpty (h : s.upcoming.isEmpty = true) (offset : Nat) :
    (s.turn offset).current.size = 1 := by
  rw [Generation.isEmpty, Array.isEmpty_iff_size_eq_zero] at h
  show (s.upcoming.threads.push _).size = 1
  rw [Array.size_push, h]

theorem anchor?_eq (h : s.current.Lists count) (hentry : Nfa.entry < count) (offset : Nat) :
    s.anchor? offset = some (s.anchor offset) ∧ (s.anchor offset).current.Lists count := by
  have hnew := s.current.contains_clear Nfa.entry
  have hadd := h.clear.add?_eq (t := ⟨Nfa.entry, none, offset⟩) hentry hnew
  refine ⟨?_, h.clear.add hentry hnew⟩
  obtain ⟨current, upcoming, captures, found⟩ := s
  dsimp only at hadd
  rw [anchor?, hadd]
  rfl

variable [Atom α]

/-- A new scan is in order. -/
theorem orderly_anchor_reset (hregular : nfa.Regular) (s : Scratch) (start : Nat) :
    ((s.reset nfa.size).anchor start).Orderly nfa start start [] where
  ready := ready_anchor_reset s nfa.size start
  current := (anchor?_eq (Generation.lists_reset _ _) hregular.entry_lt start).2
  upcoming := Generation.lists_reset _ _
  older := nofun
  found := MatchBuffer.apart_empty _ _

/-- Anchoring further on keeps the order. -/
theorem Orderly.anchor (h : s.Orderly nfa start offset older) (hregular : nfa.Regular)
    (hle : offset ≤ offset') : (s.anchor offset').Orderly nfa start offset' [] where
  ready := h.ready.anchor hle
  current := (anchor?_eq h.current hregular.entry_lt offset').2
  upcoming := h.upcoming
  older := nofun
  found := h.found.mono hle

/-- A step keeps the order, and none of its checks fails. -/
theorem Orderly.step (h : s.Orderly nfa start b.offset older) (hstart : start ≤ b.offset) :
    (s.step nfa b).Moved nfa start b.offset ∧ s.step? nfa b = some (s.step nfa b) := by
  obtain ⟨current, upcoming, captures, found⟩ := s
  obtain ⟨⟨hcurrent, hnames, hlt, hsorted, hvacant, hfound⟩, hlists, hlists', hplaced, hapart⟩ := h
  dsimp only at hcurrent hnames hvacant hfound hlists hlists' hplaced hapart
  have hbegin : Progress.Orderly nfa start 0 b.offset ⟨upcoming, captures, found, false⟩ :=
    ⟨⟨hvacant.sound captures 0, hfound.mono (.refl _) (Nat.le_succ _)⟩, hlists',
      by simp [hvacant.threads], hapart⟩
  have holder := hbegin.foldl (fun _ t ht ↦ (hplaced t ht).outside) hnames
    (fun t ht ↦ (hplaced t ht).start_le) (fun _ _ ↦ Nat.zero_le _) (Nat.zero_le _) hlt hsorted
  have hentry := holder.orderly.entry hstart
  have hfold : current.threads.toList.foldl (Progress.advance nfa b) ⟨upcoming, captures, found, false⟩ =
      Progress.advance nfa b (older.foldl (Progress.advance nfa b)
        ⟨upcoming, captures, found, false⟩) (Thread.fresh b.offset) := by
    rw [hcurrent, List.foldl_append]
    rfl
  have hfold? : current.threads.toList.foldlM (Progress.advance? nfa b) ⟨upcoming, captures, found, false⟩ =
      some (Progress.advance nfa b (older.foldl (Progress.advance nfa b)
        ⟨upcoming, captures, found, false⟩) (Thread.fresh b.offset)) := by
    rw [hcurrent, List.foldlM_append, holder.checked, Option.bind_eq_bind, Option.bind_some,
      List.foldlM_cons, hentry.checked]
    rfl
  have horderly := hentry.orderly
  rw [step?, hfold?, step, hfold]
  exact ⟨⟨⟨horderly.sound.upcoming, horderly.sound.found⟩, hlists, horderly.lists, horderly.threads,
    horderly.found⟩, rfl⟩

/-- No thread that moved on is in the entry. -/
theorem Moved.contains_entry (h : s.Moved nfa start offset) (hregular : nfa.Regular) :
    s.upcoming.contains Nfa.entry = false := by
  refine Bool.eq_false_iff.mpr fun hcontains ↦ ?_
  obtain ⟨t, ht, hstate⟩ := h.upcoming.contains_iff.mp hcontains
  obtain ⟨a, ha⟩ := (h.threads t ht).atom
  rw [hstate, hregular.entry] at ha
  cases ha

/-- Turning to the next boundary keeps the order. -/
theorem Moved.turn (h : s.Moved nfa start offset) (hregular : nfa.Regular) (hlt : offset < offset') :
    (s.turn offset').Orderly nfa start offset' s.upcoming.threads.toList ∧
      s.turn? offset' = some (s.turn offset') := by
  have hnew := h.contains_entry hregular
  have hready := h.stepped.ready_turn hlt
  have hadd := h.upcoming.add?_eq (t := Thread.fresh offset') hregular.entry_lt hnew
  refine ⟨⟨hready, h.upcoming.add hregular.entry_lt hnew, h.current.clear, h.threads,
    h.found.mono (Nat.le_of_lt hlt)⟩, ?_⟩
  obtain ⟨current, upcoming, captures, found⟩ := s
  dsimp only at hadd
  rw [turn?, hadd]
  rfl

end Scratch

end Lockstep
