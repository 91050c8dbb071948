/-!
# Atoms

An automaton is built over a type of atoms. An atom is a predicate on characters, a check at the
boundary between two characters, and possibly the one character it stands for.
-/

namespace Lockstep

universe u

/-- The predicates that nodes carry. A boundary at either edge of the text has no character on
that side. -/
class Atom (α : Type u) where
  /-- Whether the atom accepts a character. -/
  accepts : α → Char → Bool
  /-- Whether the atom holds between the previous and the next character. -/
  check : α → Option Char → Option Char → Bool := fun _ _ _ ↦ true
  /-- The only character the atom accepts, if it is known to accept one only. -/
  literal? : α → Option Char := fun _ ↦ none

/-- Atoms whose literals are exact: a literal is accepted, and nothing else is. -/
class LawfulAtom (α : Type u) [Atom α] : Prop where
  accepts_iff_of_literal {a : α} {l : Char} :
    Atom.literal? a = some l → ∀ c, Atom.accepts a c = true ↔ c = l

/-- A character is the atom that accepts itself, and holds at every boundary. -/
instance instAtomChar : Atom Char where
  accepts a c := a == c
  literal? a := some a

instance instLawfulAtomChar : LawfulAtom Char where
  accepts_iff_of_literal h c := by
    cases h
    exact beq_iff_eq.trans eq_comm

end Lockstep
