import Lockstep.Capture.Tree

/-!
# Groups of a history

A group spans from the last opening before its last closing to that closing. Reading a history
from its end, the first closing of a group counts, and then the first opening after it.
-/

namespace Lockstep

/-- What is known of a group, reading a history from its end. -/
inductive Bounds where
  | unseen
  | closed (stop : Nat)
  | complete (span : Span)
deriving DecidableEq, Repr

namespace Bounds

/-- Takes notice of an earlier mark of the group. -/
def see (b : Bounds) (m : Mark) : Bounds :=
  match b, m.side with
  | .unseen, .closing => .closed m.offset
  | .closed stop, .opening => .complete ⟨m.offset, stop⟩
  | b, _ => b

def span? : Bounds → Option Span
  | .complete s => some s
  | _ => none

end Bounds

/-- The spans of the groups up to `groups` in a sequence of marks, the latest first. -/
def resolveMarks (groups : Nat) (marks : List Mark) : Array (Option Span) :=
  (marks.foldl (fun bounds m ↦ bounds.modify m.group (·.see m))
    (Array.replicate (groups + 1) Bounds.unseen)).map Bounds.span?

/-- The spans of the groups up to `groups` in the history that ends at `last`. -/
def CaptureTree.resolve (t : CaptureTree) (last : Option Nat) (groups : Nat) :
    Array (Option Span) :=
  resolveMarks groups (t.path last)

@[simp] theorem size_resolveMarks (groups : Nat) (marks : List Mark) :
    (resolveMarks groups marks).size = groups + 1 := by
  have size_foldl (bounds : Array Bounds) :
      (marks.foldl (fun bounds m ↦ bounds.modify m.group (·.see m)) bounds).size = bounds.size := by
    induction marks generalizing bounds with
    | nil => rfl
    | cons m marks ih => simp [ih]
  simp [resolveMarks, size_foldl]

end Lockstep
