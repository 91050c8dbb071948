import Lockstep.Proofs.Scan.Twins

/-!
# Reuse of a scratch

A scratch serves one scan after another, of automata of any sizes, and it is not made anew in
between: the sets of states keep what earlier scans have written to them, and a scan that stops early
leaves its threads, its records and its matches behind. None of this shows in a later scan. What the
reset leaves of two scratches differs in the stale part of the sets only, so the scans from them are
twins.
-/

namespace Lockstep

universe u

namespace Scan

variable {α : Type u} [Atom α] {scan : Scan α} {start : Nat}

/-- After the reset, scans that begin at one offset are twins, whatever their scratches held. -/
theorem twins_start (hregular : scan.nfa.Regular) (s s' : Scratch) (prev : Option Char)
    (h : start ≤ scan.text.size) :
    scan.Twins start ⟨start, prev, (s.reset scan.nfa.size).anchor start⟩
      ⟨start, prev, (s'.reset scan.nfa.size).anchor start⟩ where
  inOrder := inOrder_start hregular s prev h
  offset := rfl
  prev := rfl
  scratch := by
    have hs := Scratch.orderly_anchor_reset hregular s start
    have hs' := Scratch.orderly_anchor_reset hregular s' start
    exact ⟨Frame.generations_none_iff.mpr ⟨hs.current, hs'.current, rfl⟩,
      Frame.generations_none_iff.mpr ⟨hs.upcoming, hs'.upcoming, rfl⟩,
      Frame.trees_none_iff.mpr rfl, Frame.buffers_none_iff.mpr rfl⟩

/-- What a scan finds does not depend on the scratch that it is given. -/
theorem same_run (hregular : scan.nfa.Regular) (start : Nat) (s s' : Scratch) :
    Same (scan.run start s) (scan.run start s') := by
  rw [run, run]
  by_cases hlt : scan.text.size < start
  · rw [if_pos hlt, if_pos hlt]
    exact ⟨rfl, rfl, rfl⟩
  · rw [if_neg hlt, if_neg hlt]
    exact (twins_start hregular s s' _ (Nat.not_lt.mp hlt)).runFrom hregular

end Scan

/-! ## One scan after another -/

/-- A scan to be made from an offset, with the automaton of an expression. The atoms are any atoms,
and a start past the end of the text is allowed. -/
structure Request where
  {α : Type u}
  [atom : Atom α]
  limit : Nat
  nodes : List (Node α)
  nfa : Nfa α
  compiled : Nfa.compile limit nodes = .ok nfa
  decoder : Decoder
  text : Text
  flags : ScanFlags
  start : Nat

namespace Request

def scan (r : Request.{u}) : Scan r.α := ⟨r.nfa, r.decoder, r.text, r.flags⟩

/-- Makes the scan with a scratch. -/
def run (r : Request.{u}) (s : Scratch) : Outcome × Scratch :=
  letI := r.atom
  r.scan.run r.start s

/-- The scratch after one scan after another. -/
def exhaust (rs : List Request.{u}) (s : Scratch) : Scratch :=
  rs.foldl (fun s r ↦ (r.run s).2) s

/-- A scratch leaks nothing: after any scans that it has served, a scan has the outcome that it has
with a new scratch, and leaves the same matches and the same records. -/
theorem same_run_reused (history : List Request.{u}) (r : Request.{u}) :
    Scan.Same (r.run (exhaust history .empty)) (r.run .empty) :=
  letI := r.atom
  Scan.same_run (Nfa.regular_of_compile r.compiled) r.start _ _

/-- A scan for `b` after one for `(a|b)*c` that stopped early, one that found nothing and one from
past the end of its text. -/
theorem same_run_reused_of_mixed_history :
    ∃ (large small : Nfa Char) (hlarge : Nfa.compile 20
      [.atom 'a', .atom 'b', .alternate, .zeroOrMore true, .atom 'c', .concat] = .ok large)
      (hsmall : Nfa.compile 4 [.atom 'b'] = .ok small),
      let early : Request := ⟨20, _, large, hlarge, .utf8, "abcx".toUTF8.data, {}, 0⟩
      let vain : Request := ⟨20, _, large, hlarge, .latin1, #[97, 98], ⟨true, false⟩, 1⟩
      let past : Request := ⟨4, _, small, hsmall, .utf8, #[98], {}, 2⟩
      let last : Request := ⟨4, _, small, hsmall, .utf8, "xéb".toUTF8.data, ⟨false, true⟩, 1⟩
      (early.run .empty).1 = .resume 4 ∧ (vain.run .empty).1 = .notFound ∧
        (past.run .empty).1 = .notFound ∧ (last.run .empty).1 = .exhausted ∧
        Scan.Same (last.run (exhaust [early, vain, past] .empty)) (last.run .empty) := by
  obtain ⟨large, hlarge, hearly, hvain⟩ : ∃ nfa : Nfa Char, Nfa.compile 20
      [.atom 'a', .atom 'b', .alternate, .zeroOrMore true, .atom 'c', .concat] = .ok nfa ∧
      (Scan.run ⟨nfa, .utf8, "abcx".toUTF8.data, {}⟩ 0 .empty).1 = .resume 4 ∧
      (Scan.run ⟨nfa, .latin1, #[97, 98], ⟨true, false⟩⟩ 1 .empty).1 = .notFound :=
    ⟨_, rfl, by decide +kernel, by decide +kernel⟩
  obtain ⟨small, hsmall, hpast, hlast⟩ : ∃ nfa : Nfa Char, Nfa.compile 4 [.atom 'b'] = .ok nfa ∧
      (Scan.run ⟨nfa, .utf8, #[98], {}⟩ 2 .empty).1 = .notFound ∧
      (Scan.run ⟨nfa, .utf8, "xéb".toUTF8.data, ⟨false, true⟩⟩ 1 .empty).1 = .exhausted :=
    ⟨_, rfl, by decide +kernel, by decide +kernel⟩
  exact ⟨large, small, hlarge, hsmall, hearly, hvain, hpast, hlast, same_run_reused _ _⟩

end Request

end Lockstep
