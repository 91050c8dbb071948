import Lockstep.Proofs.Scan.Generation

/-!
# Scans with a past

Two scans that go through the same characters do the same, whatever one of them has behind it. Its
records follow those made before, its matches come after those found before, and its offsets may be
counted from another place. A frame is such a past. Every operation of a scan keeps two scratches
apart by a frame, as long as no attempt reaches back to the matches of the past.
-/

namespace Lockstep

universe u

variable {α : Type u}

/-- What one scan has behind it and another has not. -/
structure Frame where
  /-- How much greater its offsets are. -/
  bytes : Nat
  /-- The records made before. -/
  records : List Record
  /-- The matches found before, the latest first. -/
  matched : List Candidate

namespace Frame

/-- The name that a history has with the records of the past before it. -/
def history (f : Frame) (last : Option Nat) : Option Nat := last.map (f.records.length + ·)

def mark (f : Frame) (m : Mark) : Mark := ⟨m.side, m.group, m.offset + f.bytes⟩

def record (f : Frame) (r : Record) : Record := ⟨f.history r.parent, f.mark r.mark⟩

def thread (f : Frame) (t : Thread) : Thread := ⟨t.state, f.history t.captures, t.start + f.bytes⟩

def candidate (f : Frame) (c : Candidate) : Candidate :=
  ⟨⟨c.span.start + f.bytes, c.span.stop + f.bytes⟩, f.history c.captures, c.synthetic⟩

def boundary (f : Frame) (b : Boundary) : Boundary := ⟨b.offset + f.bytes, b.prev, b.next⟩

/-- No match of the past begins at `start` or later. -/
def Precedes (f : Frame) (start : Nat) : Prop := ∀ c ∈ f.matched, c.span.start < start + f.bytes

/-- Two trees that differ by a frame. -/
def Trees (f : Frame) (t t' : CaptureTree) : Prop :=
  t'.records.toList = f.records ++ t.records.toList.map f.record

/-- Two buffers that differ by a frame. -/
def Buffers (f : Frame) (found found' : MatchBuffer) : Prop :=
  found'.latestFirst = found.latestFirst.map f.candidate ++ f.matched

/-- Two generations that differ by a frame, with room for `count` states. -/
structure Generations (f : Frame) (count : Nat) (g g' : Generation) : Prop where
  lists : g.Lists count
  lists' : g'.Lists count
  threads : g'.threads.toList = g.threads.toList.map f.thread

variable {f : Frame} {t t' : CaptureTree} {last : Option Nat} {found found' : MatchBuffer}
  {g g' : Generation} {count state start : Nat}

@[simp] theorem history_none (f : Frame) : f.history none = none := rfl

theorem Precedes.mono {start' : Nat} (h : f.Precedes start) (hle : start ≤ start') :
    f.Precedes start' :=
  fun c hc ↦ Nat.lt_of_lt_of_le (h c hc) (Nat.add_le_add_right hle _)

/-! ## Histories -/

theorem Trees.size_eq (h : f.Trees t t') : t'.records.size = f.records.length + t.records.size := by
  rw [← Array.length_toList, h, List.length_append, List.length_map, Array.length_toList]

theorem Trees.getElem? (h : f.Trees t t') (id : Nat) :
    t'.records[f.records.length + id]? = t.records[id]?.map f.record := by
  rw [← Array.getElem?_toList, h, List.getElem?_append_right (Nat.le_add_right _ _),
    Nat.add_sub_cancel_left, List.getElem?_map, Array.getElem?_toList]

theorem Trees.push (h : f.Trees t t') (parent : Option Nat) (m : Mark) :
    f.Trees (t.push parent m).2 (t'.push (f.history parent) (f.mark m)).2 ∧
      some (t'.push (f.history parent) (f.mark m)).1 = f.history (some (t.push parent m).1) := by
  constructor
  · show (t'.records.push _).toList = f.records ++ (t.records.push _).toList.map f.record
    rw [Array.toList_push, Array.toList_push, h, List.map_append, List.append_assoc]
    rfl
  · exact congrArg some h.size_eq

/-- Recording the same work keeps trees apart by a frame. -/
theorem Trees.record (h : f.Trees t t') (last : Option Nat) (offset : Nat) (work : List ZeroWidth) :
    f.Trees (t.record last offset work).2
        (t'.record (f.history last) (offset + f.bytes) work).2 ∧
      (t'.record (f.history last) (offset + f.bytes) work).1 =
        f.history (t.record last offset work).1 := by
  induction work generalizing t t' last with
  | nil => exact ⟨h, rfl⟩
  | cons z work ih =>
    cases z with
    | assert index => exact ih h last
    | mark side group =>
      obtain ⟨htrees, hname⟩ := h.push last ⟨side, group, offset⟩
      have ih := ih htrees (some (t.push last ⟨side, group, offset⟩).1)
      rw [← hname] at ih
      exact ih

/-- A history has the same marks, at offsets counted from the other place. -/
theorem Trees.path (h : f.Trees t t') (last : Option Nat) :
    t'.path (f.history last) = (t.path last).map f.mark := by
  fun_induction t.path last with
  | case1 => exact CaptureTree.path_none t'
  | case2 id hid =>
    rw [history, Option.map_some, CaptureTree.path, h.getElem?, hid]
    rfl
  | case3 id mark hid =>
    rw [history, Option.map_some, CaptureTree.path, h.getElem?, hid]
    rfl
  | case4 id parent mark hid hlt ih =>
    rw [history, Option.map_some, CaptureTree.path, h.getElem?, hid]
    show (if f.records.length + parent < f.records.length + id then _ else _) = _
    rw [if_pos (Nat.add_lt_add_left hlt _), List.map_cons, ← ih]
    rfl
  | case5 id parent mark hid hlt =>
    rw [history, Option.map_some, CaptureTree.path, h.getElem?, hid]
    show (if f.records.length + parent < f.records.length + id then _ else _) = _
    rw [if_neg (by omega)]
    rfl

/-! ## Buffers -/

/-- A match that begins after those of the past supersedes none of them. -/
theorem Buffers.insert (h : f.Buffers found found') {c : Candidate} (hc : f.Precedes c.span.start) :
    f.Buffers (found.insert c) (found'.insert (f.candidate c)) := by
  have hmoved : ∀ old : Candidate, decide ((f.candidate c).span.start ≤ (f.candidate old).span.start) =
      decide (c.span.start ≤ old.span.start) := fun old ↦
    decide_eq_decide.mpr Nat.add_le_add_iff_right
  have hpast : f.matched.dropWhile (fun old ↦ (f.candidate c).span.start ≤ old.span.start) =
      f.matched := by
    cases hmatched : f.matched with
    | nil => rfl
    | cons old rest =>
      have hlt := hc old (by rw [hmatched]; exact List.mem_cons_self)
      have hneg : ¬ decide ((f.candidate c).span.start ≤ old.span.start) = true := fun hle ↦
        Nat.lt_irrefl _ (Nat.lt_of_lt_of_le hlt (of_decide_eq_true hle))
      exact List.dropWhile_cons_of_neg hneg
  rw [Buffers, MatchBuffer.insert, MatchBuffer.insert, h, List.dropWhile_append, hpast,
    List.dropWhile_map]
  simp only [Function.comp_def, hmoved]
  split
  · rename_i hnil
    rw [List.isEmpty_iff, List.map_eq_nil_iff] at hnil
    simp [hnil]
  · simp

theorem Buffers.pushBoundary (h : f.Buffers found found') (offset : Nat) :
    f.Buffers (found.pushBoundary offset) (found'.pushBoundary (offset + f.bytes)) := by
  rw [Buffers, MatchBuffer.pushBoundary, MatchBuffer.pushBoundary, h]
  rfl

theorem Buffers.toList (h : f.Buffers found found') :
    found'.toList = f.matched.reverse ++ found.toList.map f.candidate := by
  rw [MatchBuffer.toList, MatchBuffer.toList, h, List.reverse_append, List.map_reverse]

/-! ## Generations -/

theorem Generations.contains (h : f.Generations count g g') (state : Nat) :
    g'.contains state = g.contains state := by
  refine h.lists.contains_congr h.lists' ?_
  rw [h.threads, List.map_map]
  rfl

theorem Generations.add (h : f.Generations count g g') {t : Thread} (hlt : t.state < count)
    (hnew : g.contains t.state = false) : f.Generations count (g.add t) (g'.add (f.thread t)) where
  lists := h.lists.add hlt hnew
  lists' := h.lists'.add hlt (by rw [h.contains]; exact hnew)
  threads := by
    rw [Generation.toList_threads_add, Generation.toList_threads_add, h.threads, List.map_append]
    rfl

theorem Generations.clear (h : f.Generations count g g') : f.Generations count g.clear g'.clear :=
  ⟨h.lists.clear, h.lists'.clear, rfl⟩

theorem Generations.size_eq (h : f.Generations count g g') : g'.size = g.size := by
  rw [Generation.size, Generation.size, ← Array.length_toList, h.threads, List.length_map,
    Array.length_toList]

theorem Generations.isEmpty_eq (h : f.Generations count g g') : g'.isEmpty = g.isEmpty := by
  have hsize : g'.threads.size = g.threads.size := h.size_eq
  rw [Generation.isEmpty, Generation.isEmpty, Bool.eq_iff_iff, Array.isEmpty_iff_size_eq_zero,
    Array.isEmpty_iff_size_eq_zero, hsize]

/-! ## Steps -/

/-- Two steps under way that differ by a frame. -/
structure Steps (f : Frame) (count : Nat) (p p' : Progress) : Prop where
  upcoming : f.Generations count p.upcoming p'.upcoming
  captures : f.Trees p.captures p'.captures
  found : f.Buffers p.found p'.found
  cut : p'.cut = p.cut

variable {nfa : Nfa α} {b : Boundary} {thread : Thread} {tr : Transition} {trs : List Transition}
  {p p' : Progress}

theorem Steps.enter (h : f.Steps nfa.size p p') (hlt : tr.target < nfa.size)
    (hnew : p.upcoming.contains tr.target = false) :
    f.Steps nfa.size (p.enter nfa b thread tr) (p'.enter nfa (f.boundary b) (f.thread thread) tr) := by
  obtain ⟨htrees, hname⟩ := h.captures.record thread.captures b.offset (nfa.work tr)
  refine ⟨?_, htrees, h.found, h.cut⟩
  have hadd := h.upcoming.add (t := p.successor nfa b thread tr) hlt hnew
  simp only [Progress.successor, Frame.thread, ← hname] at hadd
  exact hadd

theorem Steps.complete (h : f.Steps nfa.size p p') (hthread : f.Precedes thread.start)
    (tr : Transition) :
    f.Steps nfa.size (p.complete nfa b thread tr)
      (p'.complete nfa (f.boundary b) (f.thread thread) tr) := by
  obtain ⟨htrees, hname⟩ := h.captures.record thread.captures b.offset (nfa.work tr)
  refine ⟨h.upcoming, htrees, ?_, rfl⟩
  have hinsert := h.found.insert (c := p.candidate nfa b thread tr) hthread
  simp only [Progress.candidate, Frame.candidate, ← hname] at hinsert
  exact hinsert

variable [Atom α]

/-- Taking a thread along its transitions keeps steps apart by a frame. -/
theorem Steps.follow (h : f.Steps nfa.size p p') (hthread : f.Precedes thread.start) :
    f.Steps nfa.size (Progress.follow nfa b thread trs p)
      (Progress.follow nfa (f.boundary b) (f.thread thread) trs p') := by
  induction trs generalizing p p' with
  | nil => exact h
  | cons tr trs ih =>
    have henabled : nfa.enabled (f.boundary b) tr = nfa.enabled b tr := rfl
    rcases Progress.skipped_or_taken nfa b p tr with hskip | ⟨hnew, hgo⟩
    · rw [Progress.follow_skip hskip,
        Progress.follow_skip (by rwa [h.upcoming.contains, henabled])]
      exact ih h
    · rw [Progress.follow_of_enabled hnew hgo,
        Progress.follow_of_enabled (by rwa [h.upcoming.contains]) (henabled.trans hgo)]
      by_cases htarget : tr.target = Nfa.final
      · rw [if_pos htarget, if_pos htarget]
        exact h.complete hthread tr
      · rw [if_neg htarget, if_neg htarget]
        obtain ⟨a, ha⟩ := Nfa.exists_atom_of_enabled hgo htarget
        exact ih (h.enter (Array.getElem?_eq_some_iff.mp ha).1 hnew)

theorem Steps.advance (h : f.Steps nfa.size p p') (hthread : f.Precedes thread.start) :
    f.Steps nfa.size (Progress.advance nfa b p thread)
      (Progress.advance nfa (f.boundary b) p' (f.thread thread)) := by
  have hcond : (p'.cut && (f.thread thread).start != (f.boundary b).offset) =
      (p.cut && thread.start != b.offset) := by
    rw [h.cut, Bool.eq_iff_iff]
    simp [Frame.thread, boundary]
  rw [Progress.advance, Progress.advance, hcond]
  split
  · exact h
  · exact h.follow hthread

theorem Steps.foldl (h : f.Steps nfa.size p p') {threads : List Thread}
    (hthreads : ∀ thread ∈ threads, f.Precedes thread.start) :
    f.Steps nfa.size (threads.foldl (Progress.advance nfa b) p)
      ((threads.map f.thread).foldl (Progress.advance nfa (f.boundary b)) p') := by
  induction threads generalizing p p' with
  | nil => exact h
  | cons thread threads ih =>
    exact ih (h.advance (hthreads thread List.mem_cons_self))
      fun thread' hmem ↦ hthreads thread' (List.mem_cons_of_mem _ hmem)

/-! ## Scratches -/

/-- Two scratches that differ by a frame. -/
structure Scratches (f : Frame) (count : Nat) (s s' : Scratch) : Prop where
  current : f.Generations count s.current s'.current
  upcoming : f.Generations count s.upcoming s'.upcoming
  captures : f.Trees s.captures s'.captures
  found : f.Buffers s.found s'.found

variable {s s' : Scratch} {offset : Nat}

/-- A step over the same characters keeps scratches apart by a frame. -/
theorem Scratches.step (h : f.Scratches nfa.size s s')
    (hthreads : ∀ thread ∈ s.current.threads.toList, f.Precedes thread.start) :
    f.Scratches nfa.size (s.step nfa b) (s'.step nfa (f.boundary b)) := by
  have hbegin : f.Steps nfa.size ⟨s.upcoming, s.captures, s.found, false⟩
      ⟨s'.upcoming, s'.captures, s'.found, false⟩ := ⟨h.upcoming, h.captures, h.found, rfl⟩
  have hsteps := hbegin.foldl (b := b) hthreads
  rw [← h.current.threads] at hsteps
  exact ⟨h.current, hsteps.upcoming, hsteps.captures, hsteps.found⟩

omit [Atom α] in
theorem Scratches.turn (h : f.Scratches count s s') (hentry : Nfa.entry < count)
    (hnew : s.upcoming.contains Nfa.entry = false) (offset : Nat) :
    f.Scratches count (s.turn offset) (s'.turn (offset + f.bytes)) :=
  ⟨h.upcoming.add (t := Thread.fresh offset) hentry hnew, h.current.clear, h.captures, h.found⟩

omit [Atom α] in
theorem Scratches.anchor (h : f.Scratches count s s') (hentry : Nfa.entry < count) (offset : Nat) :
    f.Scratches count (s.anchor offset) (s'.anchor (offset + f.bytes)) :=
  ⟨h.current.clear.add (t := Thread.fresh offset) hentry (Generation.contains_clear _ _), h.upcoming,
    h.captures, h.found⟩

/-! ## No past -/

/-- No past. Scratches that differ by it have the same threads, records and matches. -/
def none : Frame := ⟨0, [], []⟩

@[simp] theorem history_of_none (last : Option Nat) : none.history last = last := by
  cases last <;> simp [history, none]

@[simp] theorem record_none : none.record = id := by
  funext r
  simp [record, mark, none, history]

@[simp] theorem thread_none : none.thread = id := by
  funext t
  simp [Frame.thread, none, history]

@[simp] theorem candidate_none : none.candidate = id := by
  funext c
  simp [candidate, none, history]

@[simp] theorem boundary_none : none.boundary = id := rfl

theorem precedes_none (start : Nat) : none.Precedes start := nofun

theorem trees_none_iff : none.Trees t t' ↔ t' = t := by
  rw [Trees, record_none, List.map_id]
  constructor
  · intro h
    cases t
    cases t'
    exact congrArg CaptureTree.mk (Array.toList_inj.mp h)
  · rintro rfl
    rfl

theorem buffers_none_iff : none.Buffers found found' ↔ found' = found := by
  rw [Buffers, candidate_none, List.map_id]
  constructor
  · intro h
    cases found
    cases found'
    exact congrArg MatchBuffer.mk (h.trans (List.append_nil _))
  · rintro rfl
    exact (List.append_nil _).symm

theorem generations_none_iff : none.Generations count g g' ↔
    g.Lists count ∧ g'.Lists count ∧ g'.threads.toList = g.threads.toList := by
  constructor
  · rintro ⟨hlists, hlists', hthreads⟩
    exact ⟨hlists, hlists', by simpa using hthreads⟩
  · rintro ⟨hlists, hlists', hthreads⟩
    exact ⟨hlists, hlists', by simpa using hthreads⟩

end Frame

end Lockstep
