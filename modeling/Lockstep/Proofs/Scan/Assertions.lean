import Lockstep.Proofs.Scan.Generation
import Lockstep.Scan.Run

/-!
# Scans that check what they rely on

The operations of a scan rely on what holds when they are called: a state that is entered was not
entered before, and a completed match overlaps no buffered one that it does not supersede. Here each
operation checks this first, and gives nothing where it does not hold. An operation that gives
something gives what the one without checks does.
-/

namespace Lockstep

universe u

variable {α : Type u}

/-! ## Sets and generations -/

namespace SparseSet

/-- Adds `id`, which has to be a number below the capacity, if there is room for one more. -/
def insert? (s : SparseSet) (id : Nat) : Option (Bool × SparseSet) :=
  if s.contains id then some (s.insert id)
  else if s.size < s.capacity ∧ id < s.capacity then some (s.insert id)
  else none

/-- There is room for every number below the capacity. -/
theorem insert?_eq {s : SparseSet} {id : Nat} (h : id < s.capacity) :
    s.insert? id = some (s.insert id) := by
  rw [insert?]
  split
  · rfl
  · rename_i hnew
    exact if_pos ⟨size_lt_capacity h (mt contains_iff_mem.mpr hnew), h⟩

end SparseSet

namespace Generation

/-- Adds a thread after all others. No other may be in its state. -/
def add? (g : Generation) (t : Thread) : Option Generation :=
  match g with
  | ⟨threads, states⟩ =>
    match states.insert? t.state with
    | some (true, states) => some ⟨threads.push t, states⟩
    | _ => none

theorem Lists.add?_eq {g : Generation} {count : Nat} {t : Thread} (h : g.Lists count)
    (hlt : t.state < count) (hnew : g.contains t.state = false) : g.add? t = some (g.add t) := by
  obtain ⟨threads, states⟩ := g
  have hstate : t.state < states.capacity := Nat.lt_of_lt_of_le hlt h.capacity
  have hmem : t.state ∉ states.toList := fun hmem ↦ by
    have hcontains : states.contains t.state = true := SparseSet.contains_iff_mem.mpr hmem
    rw [show states.contains t.state = false from hnew] at hcontains
    cases hcontains
  have hfresh : (states.insert t.state).1 = true := (SparseSet.insert_fst hstate).mpr hmem
  rw [add?, SparseSet.insert?_eq hstate]
  generalize hinsert : states.insert t.state = result at hfresh
  obtain ⟨fresh, states'⟩ := result
  cases hfresh
  show some _ = some (⟨threads.push t, (states.insert t.state).2⟩ : Generation)
  rw [hinsert]

end Generation

/-! ## Buffered matches -/

namespace MatchBuffer

/-- Adds a candidate in place of the ones that do not begin before it. They must not end after it,
and the others not after its start. -/
def insert? (b : MatchBuffer) (c : Candidate) : Option MatchBuffer :=
  let begins := fun old : Candidate ↦ decide (c.span.start ≤ old.span.start)
  if (b.latestFirst.takeWhile begins).all (·.span.stop ≤ c.span.stop) ∧
      (b.latestFirst.dropWhile begins).head?.all (·.span.stop ≤ c.span.start) then
    some (b.insert c)
  else none

/-- Adds the marker for the end of the text at `offset`. No match may end after it. -/
def pushBoundary? (b : MatchBuffer) (offset : Nat) : Option MatchBuffer :=
  if b.latestFirst.head?.all (·.span.stop ≤ offset) then some (b.pushBoundary offset) else none

end MatchBuffer

/-! ## Steps -/

namespace Progress

variable [Atom α]

/-- Takes a thread along its transitions. -/
def follow? (nfa : Nfa α) (b : Boundary) (thread : Thread) :
    List Transition → Progress → Option Progress
  | [], p => some p
  | t :: rest, ⟨upcoming, captures, found, cut⟩ =>
    let work := nfa.work t
    if upcoming.contains t.target || !nfa.admits t.target b.next
        || !nfa.holds work b.prev b.next then
      follow? nfa b thread rest ⟨upcoming, captures, found, cut⟩
    else
      let (last, captures) := captures.record thread.captures b.offset work
      if t.target = Nfa.final then do
        let found ← found.insert? ⟨⟨thread.start, b.offset⟩, last, false⟩
        some ⟨upcoming, captures, found, true⟩
      else do
        let upcoming ← upcoming.add? ⟨t.target, last, thread.start⟩
        follow? nfa b thread rest ⟨upcoming, captures, found, cut⟩

/-- Takes a thread over the boundary, unless a preferred one has completed a match. -/
def advance? (nfa : Nfa α) (b : Boundary) (p : Progress) (thread : Thread) : Option Progress :=
  if p.cut && thread.start != b.offset then some p
  else follow? nfa b thread (nfa.transitions thread.state) p

variable {nfa : Nfa α} {b : Boundary} {thread : Thread} {tr : Transition} {trs : List Transition}
  {p : Progress}

theorem follow?_skip (h : p.upcoming.contains tr.target = true ∨ nfa.enabled b tr = false) :
    follow? nfa b thread (tr :: trs) p = follow? nfa b thread trs p := by
  obtain ⟨upcoming, captures, found, cut⟩ := p
  unfold Nfa.enabled at h
  rw [follow?]
  dsimp only at h ⊢
  rw [if_pos]
  rcases h with h | h
  · rw [h]
    simp
  · rcases Bool.and_eq_false_iff.mp h with h | h <;> rw [h] <;> simp

/-- Entering a state and completing a match need one check each. -/
theorem follow?_of_enabled (hnew : p.upcoming.contains tr.target = false)
    (h : nfa.enabled b tr = true)
    (hcomplete : tr.target = Nfa.final →
      p.found.insert? (p.candidate nfa b thread tr) =
        some (p.found.insert (p.candidate nfa b thread tr)))
    (henter : tr.target ≠ Nfa.final →
      p.upcoming.add? (p.successor nfa b thread tr) =
        some (p.upcoming.add (p.successor nfa b thread tr))) :
    follow? nfa b thread (tr :: trs) p =
      if tr.target = Nfa.final then some (p.complete nfa b thread tr)
      else follow? nfa b thread trs (p.enter nfa b thread tr) := by
  obtain ⟨upcoming, captures, found, cut⟩ := p
  unfold Nfa.enabled at h
  obtain ⟨hadmits, hholds⟩ := Bool.and_eq_true_iff.mp h
  unfold candidate at hcomplete
  unfold successor at henter
  rw [follow?]
  dsimp only at hnew hcomplete henter ⊢
  rw [if_neg (by rw [hnew, hadmits, hholds]; decide)]
  by_cases htarget : tr.target = Nfa.final
  · rw [if_pos htarget, if_pos htarget, hcomplete htarget]
    rfl
  · rw [if_neg htarget, if_neg htarget, henter htarget]
    rfl

end Progress

namespace Scratch

/-- Leaves no attempt but a new one at `offset`. -/
def anchor? (s : Scratch) (offset : Nat) : Option Scratch :=
  match s with
  | ⟨current, upcoming, captures, found⟩ => do
    let current ← current.clear.add? ⟨Nfa.entry, none, offset⟩
    some ⟨current, upcoming, captures, found⟩

/-- Takes the threads of the current generation over a boundary. -/
def step? [Atom α] (nfa : Nfa α) (b : Boundary) (s : Scratch) : Option Scratch :=
  match s with
  | ⟨current, upcoming, captures, found⟩ => do
    let p ← current.threads.toList.foldlM (Progress.advance? nfa b) ⟨upcoming, captures, found, false⟩
    some ⟨current, p.upcoming, p.captures, p.found⟩

/-- Makes the upcoming generation the current one, with a new attempt at `offset` last. -/
def turn? (s : Scratch) (offset : Nat) : Option Scratch :=
  match s with
  | ⟨current, upcoming, captures, found⟩ => do
    let upcoming ← upcoming.add? ⟨Nfa.entry, none, offset⟩
    some ⟨upcoming, current.clear, captures, found⟩

end Scratch

/-! ## Scans -/

namespace Scan

/-- Moves the new attempt to where it could match, if no other is under way. -/
def skip? (scan : Scan α) (c : Cursor) : Option Cursor :=
  match c with
  | ⟨offset, prev, s⟩ =>
    if s.current.size = 1 then
      let target := scan.startOffset offset
      if offset < target then do
        let s ← s.anchor? target
        some ⟨target, scan.decoder.before? scan.text target, s⟩
      else some ⟨offset, prev, s⟩
    else some ⟨offset, prev, s⟩

/-- Ends the scan at the end of the text. -/
def finish? (scan : Scan α) (s : Scratch) : Option (Outcome × Scratch) :=
  match s with
  | ⟨current, upcoming, captures, found⟩ => do
    let found ← if scan.flags.endBoundary then found.pushBoundary? scan.text.size else some found
    some (if found.isEmpty then .notFound else .exhausted, ⟨current, upcoming, captures, found⟩)

/-- Takes the attempts over one character, or ends the scan. -/
def next? [Atom α] (scan : Scan α) (c : Cursor) : Option ((Outcome × Scratch) ⊕ Cursor) := do
  let ⟨offset, prev, s⟩ ← scan.skip? c
  match scan.decoder.decode scan.text offset with
  | none => do
    let s ← s.step? scan.nfa ⟨offset, prev, none⟩
    let result ← scan.finish? s
    some (.inl result)
  | some (char, n) => do
    let s ← s.step? scan.nfa ⟨offset, prev, some char⟩
    if scan.isFinal s then some (.inl (.resume (offset + n), s))
    else do
      let s ← s.turn? (offset + n)
      some (.inr ⟨offset + n, some char, s⟩)

end Scan

end Lockstep
