import Lockstep.Proofs.Scan.Frame
import Lockstep.Proofs.Scan.Reports

/-!
# Scans that do the same

What a scan does is decided by the threads, the records and the matches of its scratch. Two cursors
that agree on these, and on where they stand, come to the same end, whatever an earlier scan left in
the sets of states.
-/

namespace Lockstep

universe u

variable {α : Type u} [Atom α]

namespace Scan

variable {scan : Scan α} {start : Nat} {c c' : Cursor} {r r' : Outcome × Scratch}

/-! ## The steps of a run -/

theorem runFrom_of_inl (h : scan.next c = .inl r) : scan.runFrom c = r := by
  rw [runFrom]
  split
  · rename_i result hresult
    rw [h] at hresult
    exact (Sum.inl.inj hresult).symm
  · rename_i hnext
    rw [h] at hnext
    cases hnext

theorem runFrom_of_inr (h : scan.next c = .inr c') : scan.runFrom c = scan.runFrom c' := by
  rw [runFrom]
  split
  · rename_i hresult
    rw [h] at hresult
    cases hresult
  · rename_i hnext
    rw [h] at hnext
    rw [Sum.inr.inj hnext]

/-! ## Twins -/

/-- Results with the same outcome, the same matches and the same records. -/
structure Same (r r' : Outcome × Scratch) : Prop where
  outcome : r.1 = r'.1
  found : r.2.found = r'.2.found
  captures : r.2.captures = r'.2.captures

/-- Cursors at the same place, of a scan that began at `start`, with the same threads, records and
matches. -/
structure Twins (scan : Scan α) (start : Nat) (c c' : Cursor) : Prop where
  inOrder : scan.InOrder start c
  offset : c.offset = c'.offset
  prev : c.prev = c'.prev
  scratch : Frame.none.Scratches scan.nfa.size c.scratch c'.scratch

/-- What twins come to next: the same result, or twins again. -/
inductive Alike (scan : Scan α) (start : Nat) :
    (Outcome × Scratch) ⊕ Cursor → (Outcome × Scratch) ⊕ Cursor → Prop where
  | same {r r' : Outcome × Scratch} (h : Same r r') : Alike scan start (.inl r) (.inl r')
  | twins {c c' : Cursor} (h : scan.Twins start c c') : Alike scan start (.inr c) (.inr c')

theorem Twins.skip (h : scan.Twins start c c') (hregular : scan.nfa.Regular) :
    scan.Twins start (scan.skip c) (scan.skip c') := by
  have hskipped := (h.inOrder.skip hregular).1
  have hiff : scan.Skips c' ↔ scan.Skips c := by
    rw [Skips, Skips, h.scratch.current.size_eq, h.offset]
  by_cases hskips : scan.Skips c
  · rw [skip_of_skips hskips] at hskipped ⊢
    rw [skip_of_skips (hiff.mpr hskips), ← h.offset]
    exact ⟨hskipped, rfl, rfl, h.scratch.anchor hregular.entry_lt _⟩
  · rwa [skip_of_not_skips hskips, skip_of_not_skips fun hskips' ↦ hskips (hiff.mp hskips')]

omit [Atom α] in
theorem same_finish {s s' : Scratch} (hfound : s'.found = s.found) (hcaptures : s'.captures = s.captures) :
    Same (scan.finish s) (scan.finish s') := by
  obtain ⟨current, upcoming, captures, found⟩ := s
  obtain ⟨current', upcoming', captures', found'⟩ := s'
  cases hfound
  cases hcaptures
  exact ⟨rfl, rfl, rfl⟩

theorem Twins.next (h : scan.Twins start c c') (hregular : scan.nfa.Regular) :
    Alike scan start (scan.next c) (scan.next c') := by
  have htwins := h.skip hregular
  have hprecedes := fun t : Thread ↦ Frame.precedes_none t.start
  have hstepped : ∀ next, Frame.none.Scratches scan.nfa.size (scan.stepped c next)
      (scan.stepped c' next) := fun next ↦ by
    have hstep := htwins.scratch.step (b := ⟨(scan.skip c).offset, (scan.skip c).prev, next⟩)
      fun t _ ↦ hprecedes t
    rw [stepped, stepped, ← htwins.offset, ← htwins.prev]
    exact hstep
  cases hdecode : scan.decoder.decode scan.text (scan.skip c).offset with
  | none =>
    rw [next_of_none hdecode, next_of_none (htwins.offset ▸ hdecode)]
    exact .same (same_finish (Frame.buffers_none_iff.mp (hstepped _).found)
      (Frame.trees_none_iff.mp (hstepped _).captures))
  | some r =>
    obtain ⟨char, n⟩ := r
    have hfound := Frame.buffers_none_iff.mp (hstepped (some char)).found
    have hcaptures := Frame.trees_none_iff.mp (hstepped (some char)).captures
    have hfinal : scan.isFinal (scan.stepped c' (some char)) =
        scan.isFinal (scan.stepped c (some char)) := by
      rw [isFinal, isFinal, hfound, (hstepped _).upcoming.isEmpty_eq]
    have hnext := (h.inOrder.next hregular).2
    rw [next_of_some hdecode] at hnext ⊢
    rw [next_of_some (htwins.offset ▸ hdecode), hfinal, ← htwins.offset]
    by_cases hif : scan.isFinal (scan.stepped c (some char)) = true
    · rw [if_pos hif, if_pos hif]
      exact .same ⟨rfl, hfound.symm, hcaptures.symm⟩
    · rw [if_neg hif] at hnext ⊢
      rw [if_neg hif]
      have hentry := (h.inOrder.step hregular (some char)).1.contains_entry hregular
      exact .twins ⟨hnext, rfl, rfl, (hstepped _).turn hregular.entry_lt hentry _⟩

/-- Twins come to the same end. -/
theorem Twins.runFrom (h : scan.Twins start c c') (hregular : scan.nfa.Regular) :
    Same (scan.runFrom c) (scan.runFrom c') := by
  fun_induction scan.runFrom c generalizing c' with
  | case1 c result hnext =>
    have halike := h.next hregular
    rw [hnext] at halike
    generalize hnext' : scan.next c' = next' at halike
    cases halike with
    | same hsame =>
      rw [runFrom_of_inl hnext']
      exact hsame
  | case2 c c₂ hnext ih =>
    have halike := h.next hregular
    rw [hnext] at halike
    generalize hnext' : scan.next c' = next' at halike
    cases halike with
    | twins htwins =>
      rw [runFrom_of_inr hnext']
      exact ih htwins

end Scan

end Lockstep
