import Lockstep.Capture.MatchBuffer
import Lockstep.Nfa.Basic
import Lockstep.Scan.Generation

/-!
# Steps

A step takes every thread of a generation over one boundary of the text, and over the character
after it if there is one. The first thread to complete a match ends the attempts after it, all but
the one that begins at this boundary.
-/

namespace Lockstep

universe u

variable {α : Type u}

/-- An offset and the characters before and after it. -/
structure Boundary where
  offset : Nat
  prev : Option Char
  next : Option Char
deriving DecidableEq, Repr

/-- Adds the marks of `work`, passed at `offset`, to the history that ends at `last`. -/
def CaptureTree.record (t : CaptureTree) (last : Option Nat) (offset : Nat) :
    List ZeroWidth → Option Nat × CaptureTree
  | [] => (last, t)
  | .assert _ :: work => t.record last offset work
  | .mark side group :: work =>
    let (id, t) := t.push last ⟨side, group, offset⟩
    t.record (some id) offset work

/-- What a step has done so far. -/
structure Progress where
  upcoming : Generation
  captures : CaptureTree
  found : MatchBuffer
  /-- A match was completed in this step. -/
  cut : Bool
deriving Repr

namespace Progress

variable [Atom α]

/-- Takes a thread along its transitions, the preferred one first, up to one that completes a
match. A state that a thread is in already is not entered again, and nothing is recorded for a
transition that is not taken. -/
def follow (nfa : Nfa α) (b : Boundary) (thread : Thread) : List Transition → Progress → Progress
  | [], p => p
  | t :: rest, ⟨upcoming, captures, found, cut⟩ =>
    let work := nfa.work t
    if upcoming.contains t.target || !nfa.admits t.target b.next
        || !nfa.holds work b.prev b.next then
      follow nfa b thread rest ⟨upcoming, captures, found, cut⟩
    else
      let (last, captures) := captures.record thread.captures b.offset work
      if t.target = Nfa.final then
        ⟨upcoming, captures, found.insert ⟨⟨thread.start, b.offset⟩, last, false⟩, true⟩
      else
        follow nfa b thread rest
          ⟨upcoming.add ⟨t.target, last, thread.start⟩, captures, found, cut⟩

/-- Takes a thread over the boundary, unless a preferred one has completed a match. -/
def advance (nfa : Nfa α) (b : Boundary) (p : Progress) (thread : Thread) : Progress :=
  if p.cut && thread.start != b.offset then p
  else follow nfa b thread (nfa.transitions thread.state) p

end Progress

/-- The state of a scan. It may be used for one scan after another. -/
structure Scratch where
  current : Generation
  upcoming : Generation
  captures : CaptureTree
  found : MatchBuffer
deriving Repr

namespace Scratch

def empty : Scratch := ⟨.empty, .empty, .empty, .empty⟩

/-- Forgets all that earlier scans left, before a scan of an automaton with `count` states. -/
def reset (s : Scratch) (count : Nat) : Scratch :=
  match s with
  | ⟨current, upcoming, captures, found⟩ =>
    ⟨current.reset count, upcoming.reset count, captures.clear, found.clear⟩

/-- Leaves no attempt but a new one at `offset`. -/
def anchor (s : Scratch) (offset : Nat) : Scratch :=
  match s with
  | ⟨current, upcoming, captures, found⟩ =>
    ⟨current.clear.add ⟨Nfa.entry, none, offset⟩, upcoming, captures, found⟩

/-- Takes the threads of the current generation over a boundary. -/
def step [Atom α] (nfa : Nfa α) (b : Boundary) (s : Scratch) : Scratch :=
  match s with
  | ⟨current, upcoming, captures, found⟩ =>
    let p := current.threads.toList.foldl (Progress.advance nfa b) ⟨upcoming, captures, found, false⟩
    ⟨current, p.upcoming, p.captures, p.found⟩

/-- Makes the upcoming generation the current one, with a new attempt at `offset` last. -/
def turn (s : Scratch) (offset : Nat) : Scratch :=
  match s with
  | ⟨current, upcoming, captures, found⟩ =>
    ⟨upcoming.add ⟨Nfa.entry, none, offset⟩, current.clear, captures, found⟩

end Scratch

end Lockstep
