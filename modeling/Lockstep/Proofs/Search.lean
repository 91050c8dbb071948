import Lockstep.Proofs.Ahead

/-!
# Depth-first search of a transition table

The reference for the lock-step scan: from a state, try its transitions in the order of the table,
and the first one that leads to the final state wins. A search looks at nothing but the state and
the boundaries ahead, so attempts that meet in a state have the same future.
-/

namespace Lockstep

universe u

variable {α : Type u}

/-- The mark that a piece of zero-width work records, if it records one. -/
def ZeroWidth.mark? : ZeroWidth → Option (Side × Nat)
  | .mark side group => some (side, group)
  | .assert _ => none

/-- The marks that `work` records at `offset`, in order. -/
def marksAt (offset : Nat) (work : List ZeroWidth) : List Mark :=
  (work.filterMap ZeroWidth.mark?).map fun m ↦ ⟨m.1, m.2, offset⟩

@[simp] theorem marksAt_nil (offset : Nat) : marksAt offset [] = [] := rfl

@[simp] theorem marksAt_mark (offset group : Nat) (side : Side) (work : List ZeroWidth) :
    marksAt offset (.mark side group :: work) = ⟨side, group, offset⟩ :: marksAt offset work := rfl

@[simp] theorem marksAt_assert (offset index : Nat) (work : List ZeroWidth) :
    marksAt offset (.assert index :: work) = marksAt offset work := rfl

namespace Nfa

variable [Atom α]

/-- Whether a transition may be taken at a boundary: its target takes the character after the
boundary, and all assertions on the way hold. -/
def enabled (nfa : Nfa α) (b : Boundary) (t : Transition) : Bool :=
  nfa.admits t.target b.next && nfa.holds (nfa.work t) b.prev b.next

/-- The target of a transition that may be taken is the final state or one that consumes. -/
theorem exists_atom_of_enabled {nfa : Nfa α} {b : Boundary} {t : Transition}
    (h : nfa.enabled b t = true) (htarget : t.target ≠ final) :
    ∃ a, nfa.states[t.target]? = some (.atom a) := by
  have hadmits := (Bool.and_eq_true_iff.mp h).1
  unfold admits at hadmits
  rw [beq_false_of_ne htarget, Bool.false_or] at hadmits
  split at hadmits
  · exact ⟨_, by assumption⟩
  · cases hadmits

/-- Depth-first search for the final state: where the first match stops, and the marks on the way
there. -/
def search (nfa : Nfa α) : Ahead → Nat → Option (Ahead × List Mark)
  | [], _ => none
  | b :: rest, state =>
    (nfa.transitions state).findSome? fun t ↦
      if nfa.enabled b t then
        (if t.target = final then some (b :: rest, []) else nfa.search rest t.target).map
          fun r ↦ (r.1, marksAt b.offset (nfa.work t) ++ r.2)
      else none

/-- What the search finds behind the target of a transition. -/
def beyond (nfa : Nfa α) (b : Boundary) (rest : Ahead) (target : Nat) :
    Option (Ahead × List Mark) :=
  if target = final then some (b :: rest, []) else nfa.search rest target

/-- What the search finds along one transition. -/
def along (nfa : Nfa α) (b : Boundary) (rest : Ahead) (t : Transition) :
    Option (Ahead × List Mark) :=
  if nfa.enabled b t then
    (nfa.beyond b rest t.target).map fun r ↦ (r.1, marksAt b.offset (nfa.work t) ++ r.2)
  else none

variable {nfa : Nfa α} {b : Boundary} {rest : Ahead}

@[simp] theorem search_nil (state : Nat) : nfa.search [] state = none := by
  rw [search]

theorem search_cons (state : Nat) :
    nfa.search (b :: rest) state = (nfa.transitions state).findSome? (nfa.along b rest) := by
  rw [search]
  rfl

/-- A search stops at a boundary ahead, with nothing left out after it. -/
theorem suffix_of_search {bs stop : Ahead} {state : Nat} {marks : List Mark}
    (h : nfa.search bs state = some (stop, marks)) : stop <:+ bs := by
  induction bs generalizing state stop marks with
  | nil => simp at h
  | cons b rest ih =>
    rw [search_cons] at h
    obtain ⟨t, -, ht⟩ := List.exists_of_findSome?_eq_some h
    unfold along beyond at ht
    split at ht
    · obtain ⟨r, hr, heq⟩ := Option.map_eq_some_iff.mp ht
      cases heq
      split at hr
      · cases hr
        exact List.suffix_rfl
      · exact (ih hr).trans (List.suffix_cons _ _)
    · cases ht

/-- One attempt at a match: a search from the entry. -/
def attempt (nfa : Nfa α) (bs : Ahead) : Option (Ahead × List Mark) := nfa.search bs entry

end Nfa

end Lockstep
