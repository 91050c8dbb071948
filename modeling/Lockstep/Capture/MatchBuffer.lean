import Lockstep.Capture.Resolve

/-!
# Match buffers

The matches found so far, sorted and apart from each other. A match that ends later but does not
begin later supersedes the ones buffered, so the ones it supersedes are the latest.
-/

namespace Lockstep

/-- A match that is complete, or the marker for the end of the text. -/
structure Candidate where
  span : Span
  /-- The last record of the match's history. -/
  captures : Option Nat
  /-- The candidate marks the end of the text and is no match of the expression. -/
  synthetic : Bool
deriving DecidableEq, Repr

/-- The spans of all groups; group 0 is the whole match. -/
def Candidate.resolve (c : Candidate) (t : CaptureTree) (groups : Nat) : Array (Option Span) :=
  (t.resolve c.captures groups).setIfInBounds 0 (some c.span)

structure MatchBuffer where
  latestFirst : List Candidate
deriving DecidableEq, Repr

namespace MatchBuffer

def empty : MatchBuffer := ⟨[]⟩

def isEmpty (b : MatchBuffer) : Bool := b.latestFirst.isEmpty

/-- The buffered matches in text order. -/
def toList (b : MatchBuffer) : List Candidate := b.latestFirst.reverse

/-- Adds a candidate in place of the ones that do not begin before it. -/
def insert (b : MatchBuffer) (c : Candidate) : MatchBuffer :=
  ⟨c :: b.latestFirst.dropWhile fun old ↦ c.span.start ≤ old.span.start⟩

/-- Adds the marker for the end of the text at `offset`. -/
def pushBoundary (b : MatchBuffer) (offset : Nat) : MatchBuffer :=
  ⟨⟨⟨offset, offset⟩, none, true⟩ :: b.latestFirst⟩

def clear (_ : MatchBuffer) : MatchBuffer := empty

@[simp] theorem toList_empty : empty.toList = [] := rfl

@[simp] theorem toList_pushBoundary (b : MatchBuffer) (offset : Nat) :
    (b.pushBoundary offset).toList = b.toList ++ [⟨⟨offset, offset⟩, none, true⟩] := by
  simp [pushBoundary, toList]

end MatchBuffer

end Lockstep
