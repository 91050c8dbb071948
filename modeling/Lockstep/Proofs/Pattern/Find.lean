import Lockstep.Proofs.Matches
import Lockstep.Proofs.Pattern.Compiled
import Lockstep.Proofs.Pattern.Language

/-!
# The first match of a pattern

The automaton of a pattern finds a match in a string if and only if the pattern matches some part of
it, and the match it finds is as far left as possible.
-/

namespace Lockstep

universe u

variable {α : Type u} [Atom α]

open Ahead (IsPlace)

namespace Pattern

variable {limit : Nat} {p : Pattern α} {nfa : Nfa α} {bs stop : Ahead}

/-- Where an attempt stops, a match of the pattern does. -/
theorem matches_of_attempt (h : p.compile limit = .ok nfa) {marks : List Mark}
    (hattempt : nfa.attempt bs = some (stop, marks)) : p.Matches bs stop := by
  obtain ⟨g, haccepted, hsearch⟩ := exists_graph_of_compile h
  rw [hsearch] at hattempt
  exact haccepted.matches_of_search hattempt

/-- Where a match of the pattern begins, an attempt succeeds. -/
theorem attempt_ne_none (h : p.compile limit = .ok nfa) (hmatches : p.Matches bs stop)
    (hne : stop ≠ []) : nfa.attempt bs ≠ none := by
  obtain ⟨g, haccepted, hsearch⟩ := exists_graph_of_compile h
  rw [hsearch, ← Option.isSome_iff_ne_none]
  exact haccepted.isSome_search hmatches hne

/-- A match in a string stops at one of its boundaries. -/
theorem isPlace_of_matches {s : String} (hbs : IsPlace s bs) (hmatches : p.Matches bs stop) :
    IsPlace s stop :=
  invariant_of_matches (fun {b c rest} hc h ↦ h.of_suffix (List.suffix_cons b rest) fun hnil ↦ by
    rw [hnil] at h
    rw [h.next_eq_none] at hc
    cases hc) hmatches hbs

/-- Group 0 of a match is the whole match. -/
theorem span?_zero_captures (groups : Nat) (text : Text) (m : Found) :
    (m.captures groups text).span? 0 = some m.span := by
  simp [Found.captures, Captures.span?]

variable [LawfulAtom α]

/-- There is a match in a string if and only if the pattern matches between two of its boundaries. The
one found is between two such boundaries, and no match begins further left. -/
theorem find?_leftmost (h : p.compile limit = .ok nfa) (s : String) :
    (nfa.isMatch s.toUTF8.data = true ↔
      ∃ bs stop, IsPlace s bs ∧ IsPlace s stop ∧ p.Matches bs stop) ∧
    (nfa.isMatch s.toUTF8.data = true → ∃ (bs stop : Ahead) (c : Captures),
      nfa.find? s.toUTF8.data = some c ∧ c.span? 0 = some ⟨bs.offset, stop.offset⟩ ∧
        IsPlace s bs ∧ IsPlace s stop ∧ p.Matches bs stop ∧
          ∀ bs' stop' : Ahead, IsPlace s bs' → IsPlace s stop' → p.Matches bs' stop' →
            bs.offset ≤ bs'.offset) := by
  have hsound := sound_of_compile h
  rw [Nfa.isMatch_iff hsound, Nfa.find?_eq hsound]
  rcases sequential_eq_nil_or_exists nfa.attempt (Ahead.ofString s) with
    ⟨hnil, hnone⟩ | ⟨bs, stop, marks, later, hsuffix, hne, hattempt, heq, hfirst⟩
  · refine ⟨⟨fun hne ↦ absurd hnil hne, ?_⟩, fun hne ↦ absurd hnil hne⟩
    rintro ⟨bs, stop, hbs, hstop, hmatches⟩
    exact absurd (hnone bs hbs.suffix hbs.ne_nil) (attempt_ne_none h hmatches hstop.ne_nil)
  · have hmatches := matches_of_attempt h hattempt
    have hbs : IsPlace s bs := ⟨hsuffix, hne⟩
    have hstop := isPlace_of_matches hbs hmatches
    refine ⟨⟨fun _ ↦ ⟨bs, stop, hbs, hstop, hmatches⟩, fun _ hnil ↦ ?_⟩, fun _ ↦
      ⟨bs, stop, Found.captures nfa.groups s.toUTF8.data ⟨⟨bs.offset, stop.offset⟩, marks⟩, ?_,
        span?_zero_captures _ _ _, hbs, hstop, hmatches,
        fun bs' stop' hbs' hstop' hmatches' ↦ ?_⟩⟩
    · rw [heq] at hnil
      cases hnil
    · rw [heq]
      rfl
    · have hle := hfirst bs' hbs'.suffix hbs'.ne_nil (attempt_ne_none h hmatches' hstop'.ne_nil)
      exact hbs.offset_le hle hbs'.ne_nil

/-- The matches of `(a*)*b` in `xab`. -/
theorem find?_leftmost_of_nullable_loop :
    let p : Pattern Char := .concat (.zeroOrMore true (.zeroOrMore true (.atom 'a'))) (.atom 'b')
    ∃ nfa, p.compile 10 = .ok nfa ∧
      (nfa.isMatch "xab".toUTF8.data = true ↔
        ∃ bs stop, IsPlace "xab" bs ∧ IsPlace "xab" stop ∧ p.Matches bs stop) ∧
      (nfa.isMatch "xab".toUTF8.data = true → ∃ (bs stop : Ahead) (c : Captures),
        nfa.find? "xab".toUTF8.data = some c ∧ c.span? 0 = some ⟨bs.offset, stop.offset⟩ ∧
          IsPlace "xab" bs ∧ IsPlace "xab" stop ∧ p.Matches bs stop ∧
            ∀ bs' stop' : Ahead, IsPlace "xab" bs' → IsPlace "xab" stop' → p.Matches bs' stop' →
              bs.offset ≤ bs'.offset) := by
  intro p
  obtain ⟨nfa, h⟩ : ∃ nfa, p.compile 10 = .ok nfa := ⟨_, rfl⟩
  exact ⟨nfa, h, find?_leftmost h "xab"⟩

end Pattern

end Lockstep
