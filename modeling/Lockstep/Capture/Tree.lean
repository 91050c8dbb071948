import Lockstep.Capture.Mark

/-!
# Capture trees

The histories of all attempts in one array. A record holds a mark and the record it follows, so
attempts that fork share the history up to the fork, and a history is named by its last record.
-/

namespace Lockstep

structure Record where
  /-- The record before this one, if it is not the first of its history. -/
  parent : Option Nat
  mark : Mark
deriving DecidableEq, Repr

structure CaptureTree where
  records : Array Record
deriving DecidableEq, Repr

namespace CaptureTree

def empty : CaptureTree := ⟨#[]⟩

def size (t : CaptureTree) : Nat := t.records.size

def isEmpty (t : CaptureTree) : Bool := t.records.isEmpty

/-- Adds a mark to the history that ends at `parent`, and names the new history. -/
def push (t : CaptureTree) (parent : Option Nat) (mark : Mark) : Nat × CaptureTree :=
  match t with
  | ⟨records⟩ =>
    let id := records.size
    (id, ⟨records.push ⟨parent, mark⟩⟩)

def get? (t : CaptureTree) (id : Nat) : Option Record := t.records[id]?

def clear (_ : CaptureTree) : CaptureTree := empty

/-- The marks of the history that ends at `last`, the latest first. A record follows an earlier
one only. -/
def path (t : CaptureTree) (last : Option Nat) : List Mark :=
  match last with
  | none => []
  | some id =>
    match t.records[id]? with
    | none => []
    | some ⟨none, mark⟩ => [mark]
    | some ⟨some parent, mark⟩ => if parent < id then mark :: t.path (some parent) else [mark]
termination_by last.elim 0 (· + 1)

@[simp] theorem path_none (t : CaptureTree) : t.path none = [] := by
  rw [path]

end CaptureTree

end Lockstep
