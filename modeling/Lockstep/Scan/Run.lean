import Lockstep.Nfa.StartBytes
import Lockstep.Scan.Step

/-!
# Scans

A scan takes the attempts of all offsets through a text together. It ends early when no attempt is
under way and a match is buffered, and says where the next scan goes on; `Scan.drain` scans until
the text is exhausted.
-/

namespace Lockstep

universe u

variable {α : Type u}

structure ScanFlags where
  /-- Scan to the end of the text even when the buffered matches are final. -/
  noEarlyReturn : Bool := false
  /-- Mark the end of the text with a synthetic candidate. -/
  endBoundary : Bool := false
deriving DecidableEq, Repr

/-- What is scanned, and how. -/
structure Scan (α : Type u) where
  nfa : Nfa α
  decoder : Decoder
  text : Text
  flags : ScanFlags

inductive Outcome where
  /-- Nothing was buffered. -/
  | notFound
  /-- The text ended. -/
  | exhausted
  /-- The buffered matches are final, and the next scan starts at `offset`. -/
  | resume (offset : Nat)
deriving DecidableEq, Repr

/-- Where a scan stands: an offset, the character before it, and the attempts under way there. -/
structure Cursor where
  offset : Nat
  prev : Option Char
  scratch : Scratch
deriving Repr

/-- What one scan found. -/
structure Round where
  outcome : Outcome
  found : MatchBuffer
  captures : CaptureTree
deriving Repr

namespace Scan

/-- The start bytes that the scan relies on. They are bytes of the text only where the decoder
promises so. -/
def startBytes? (scan : Scan α) : Option StartBytes :=
  if scan.decoder.asciiCompatible then scan.nfa.startBytes? else none

/-- The first offset from `offset` on at which an attempt could match, as far as start bytes
tell. -/
def startOffset (scan : Scan α) (offset : Nat) : Nat :=
  match scan.startBytes? with
  | none => offset
  | some s => max offset ((s.next? scan.text offset).getD scan.text.size)

/-- Moves the new attempt to where it could match, if no other is under way. -/
def skip (scan : Scan α) (c : Cursor) : Cursor :=
  match c with
  | ⟨offset, prev, s⟩ =>
    if s.current.size = 1 then
      let target := scan.startOffset offset
      if offset < target then ⟨target, scan.decoder.before? scan.text target, s.anchor target⟩
      else ⟨offset, prev, s⟩
    else ⟨offset, prev, s⟩

/-- Ends the scan at the end of the text. -/
def finish (scan : Scan α) (s : Scratch) : Outcome × Scratch :=
  match s with
  | ⟨current, upcoming, captures, found⟩ =>
    let found := if scan.flags.endBoundary then found.pushBoundary scan.text.size else found
    (if found.isEmpty then .notFound else .exhausted, ⟨current, upcoming, captures, found⟩)

/-- Whether the scan may stop after a step. -/
def isFinal (scan : Scan α) (s : Scratch) : Bool :=
  !scan.flags.noEarlyReturn && s.upcoming.isEmpty && !s.found.isEmpty

theorem le_startOffset (scan : Scan α) (offset : Nat) : offset ≤ scan.startOffset offset := by
  unfold startOffset
  split
  · exact Nat.le_refl _
  · exact Nat.le_max_left _ _

theorem le_offset_skip (scan : Scan α) (c : Cursor) : c.offset ≤ (scan.skip c).offset := by
  unfold skip
  dsimp only
  split
  · split
    · exact scan.le_startOffset c.offset
    · exact Nat.le_refl _
  · exact Nat.le_refl _

theorem outcome_finish (scan : Scan α) (s : Scratch) :
    (scan.finish s).1 = .notFound ∨ (scan.finish s).1 = .exhausted := by
  simp only [finish]
  by_cases h : (if scan.flags.endBoundary = true then s.found.pushBoundary scan.text.size
    else s.found).isEmpty = true
  · exact .inl (if_pos h)
  · exact .inr (if_neg h)

variable [Atom α]

/-- Takes the attempts over one character, or ends the scan. -/
def next (scan : Scan α) (c : Cursor) : (Outcome × Scratch) ⊕ Cursor :=
  match scan.skip c with
  | ⟨offset, prev, s⟩ =>
    match scan.decoder.decode scan.text offset with
    | none => .inl (scan.finish (s.step scan.nfa ⟨offset, prev, none⟩))
    | some (char, n) =>
      let s := s.step scan.nfa ⟨offset, prev, some char⟩
      if scan.isFinal s then .inl (.resume (offset + n), s)
      else .inr ⟨offset + n, some char, s.turn (offset + n)⟩

theorem offset_of_next {scan : Scan α} {c c' : Cursor} (h : scan.next c = .inr c') :
    c.offset < c'.offset ∧ c'.offset ≤ scan.text.size := by
  have hle := le_offset_skip scan c
  simp only [next] at h
  split at h
  · cases h
  · rename_i char n hdecode
    have hadv := scan.decoder.decode_advances _ _ _ _ hdecode
    split at h
    · cases h
    · cases h
      dsimp only
      omega

theorem resume_of_next {scan : Scan α} {c : Cursor} {s : Scratch} {offset : Nat}
    (h : scan.next c = .inl (.resume offset, s)) :
    c.offset < offset ∧ offset ≤ scan.text.size := by
  have hle := le_offset_skip scan c
  simp only [next] at h
  split at h
  · injection h with h
    have hout := outcome_finish scan
      ((scan.skip c).scratch.step scan.nfa ⟨(scan.skip c).offset, (scan.skip c).prev, none⟩)
    rw [h] at hout
    simp at hout
  · rename_i char n hdecode
    have hadv := scan.decoder.decode_advances _ _ _ _ hdecode
    split at h
    · cases h
      omega
    · cases h

/-- Scans on from a cursor. -/
def runFrom (scan : Scan α) (c : Cursor) : Outcome × Scratch :=
  match _h : scan.next c with
  | .inl result => result
  | .inr c' => scan.runFrom c'
termination_by scan.text.size - c.offset
decreasing_by
  have := offset_of_next _h
  omega

/-- Scans from `start`. Afterwards the scratch holds the matches found and their histories. -/
def run (scan : Scan α) (start : Nat) (s : Scratch) : Outcome × Scratch :=
  let s := s.reset scan.nfa.size
  if scan.text.size < start then (.notFound, s)
  else scan.runFrom ⟨start, scan.decoder.before? scan.text start, s.anchor start⟩

theorem resume_of_runFrom {scan : Scan α} {c : Cursor} {offset : Nat}
    (h : (scan.runFrom c).1 = .resume offset) :
    c.offset < offset ∧ offset ≤ scan.text.size := by
  fun_induction scan.runFrom c with
  | case1 c result hnext =>
    obtain ⟨outcome, s⟩ := result
    cases h
    exact resume_of_next hnext
  | case2 c c' hnext ih =>
    have := offset_of_next hnext
    have := ih h
    omega

theorem resume_of_run {scan : Scan α} {start : Nat} {s : Scratch} {offset : Nat}
    (h : (scan.run start s).1 = .resume offset) : start < offset ∧ offset ≤ scan.text.size := by
  simp only [run] at h
  split at h
  · cases h
  · exact resume_of_runFrom h

/-- Scans from `start` and then from where each scan says to go on. -/
def drain (scan : Scan α) (start : Nat) (s : Scratch) : List Round × Scratch :=
  match _h : scan.run start s with
  | (.resume offset, s) =>
    let round : Round := ⟨.resume offset, s.found, s.captures⟩
    let (rounds, s) := scan.drain offset s
    (round :: rounds, s)
  | (outcome, s) => ([⟨outcome, s.found, s.captures⟩], s)
termination_by scan.text.size - start
decreasing_by
  have := resume_of_run (congrArg Prod.fst _h)
  omega

end Scan

end Lockstep
