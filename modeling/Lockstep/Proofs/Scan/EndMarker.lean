import Lockstep.Proofs.Scan.Resume

/-!
# The marker for the end of the text

A scan that marks the end of the text does what it would do without, until it comes to the end. There
it adds the marker after all matches, and so it never reports that it found nothing. A scan that stops
early adds none, so of all the scans that follow each other only the last one does, and everything
else that is reported is a match.
-/

namespace Lockstep

universe u

variable {α : Type u}

/-! ## The marker -/

namespace Captures

/-- The captures that mark the end of a text. -/
def endMarker (groups : Nat) (text : Text) : Captures :=
  ofCandidate groups text .empty ⟨⟨text.size, text.size⟩, none, true⟩

/-- A marker has no history, so the tree does not matter. -/
theorem ofCandidate_marker (groups : Nat) (text : Text) (t : CaptureTree) :
    ofCandidate groups text t ⟨⟨text.size, text.size⟩, none, true⟩ = endMarker groups text :=
  ofCandidate_congr rfl rfl ((t.path_none).trans (CaptureTree.path_none _).symm) groups text

theorem size_ofCandidate (groups : Nat) (text : Text) (t : CaptureTree) (c : Candidate) :
    (ofCandidate groups text t c).size = groups + 1 := by
  simp [ofCandidate, size, Candidate.resolve, CaptureTree.resolve]

/-- A group other than the whole match needs a mark in the history. -/
theorem span?_ofCandidate_of_none (groups : Nat) (text : Text) (t : CaptureTree) (span : Span)
    (synthetic : Bool) {group : Nat} (h : group ≠ 0) :
    (ofCandidate groups text t ⟨span, none, synthetic⟩).span? group = none := by
  rw [ofCandidate, span?, Candidate.resolve, Array.getElem?_setIfInBounds_ne (Ne.symm h),
    CaptureTree.resolve, CaptureTree.path_none]
  simp only [resolveMarks, List.foldl_nil, Array.map_replicate, Bounds.span?,
    Array.getElem?_replicate]
  split <;> rfl

end Captures

/-- The marker comes after the matches of a round. -/
theorem Round.captureList_pushBoundary (groups : Nat) (text : Text) (found : MatchBuffer)
    (t : CaptureTree) (outcome outcome' : Outcome) :
    captureList groups text ⟨outcome', found.pushBoundary text.size, t⟩ =
      captureList groups text ⟨outcome, found, t⟩ ++ [Captures.endMarker groups text] := by
  rw [captureList, captureList, MatchBuffer.toList_pushBoundary, List.map_append, List.map_singleton,
    Captures.ofCandidate_marker]

/-! ## One call -/

namespace Scan

/-- The scan that marks the end of the text. -/
def marking (scan : Scan α) : Scan α := { scan with flags := { scan.flags with endBoundary := true } }

/-- A result with the end of the text marked, if the scan has come to it. -/
def markEnd (size : Nat) : Outcome × Scratch → Outcome × Scratch
  | (.resume offset, s) => (.resume offset, s)
  | (_, ⟨current, upcoming, captures, found⟩) =>
    (.exhausted, ⟨current, upcoming, captures, found.pushBoundary size⟩)

variable {scan : Scan α} {start offset : Nat} {s s' : Scratch}

theorem finish_marking (hflag : scan.flags.endBoundary = false) (s : Scratch) :
    scan.marking.finish s = markEnd scan.text.size (scan.finish s) := by
  rw [finish_eq hflag]
  cases s.found.isEmpty <;> rfl

variable [Atom α]

/-- The two do the same up to the end of the text. -/
theorem next_marking (hflag : scan.flags.endBoundary = false) (c : Cursor) :
    scan.marking.next c = (scan.next c).map (markEnd scan.text.size) id := by
  cases hdecode : scan.decoder.decode scan.text (scan.skip c).offset with
  | none =>
    have hdecode' : scan.marking.decoder.decode scan.marking.text (scan.marking.skip c).offset = none :=
      hdecode
    rw [next_of_none hdecode, next_of_none hdecode', Sum.map_inl]
    exact congrArg Sum.inl (finish_marking hflag _)
  | some r =>
    obtain ⟨char, n⟩ := r
    have hdecode' : scan.marking.decoder.decode scan.marking.text (scan.marking.skip c).offset =
        some (char, n) := hdecode
    have hfinal : scan.marking.isFinal (scan.marking.stepped c (some char)) =
        scan.isFinal (scan.stepped c (some char)) := rfl
    rw [next_of_some hdecode, next_of_some hdecode', hfinal]
    split <;> rfl

theorem runFrom_marking (hflag : scan.flags.endBoundary = false) (c : Cursor) :
    scan.marking.runFrom c = markEnd scan.text.size (scan.runFrom c) := by
  fun_induction scan.runFrom c with
  | case1 c result hnext => exact runFrom_of_inl (by rw [next_marking hflag, hnext, Sum.map_inl])
  | case2 c c' hnext ih =>
    exact (runFrom_of_inr (by rw [next_marking hflag, hnext, Sum.map_inr, id])).trans ih

/-- A scan marks the end of the text if it comes to it, and does nothing else. -/
theorem run_marking (hflag : scan.flags.endBoundary = false) (hle : start ≤ scan.text.size)
    (s : Scratch) : scan.marking.run start s = markEnd scan.text.size (scan.run start s) := by
  have hle' : start ≤ scan.marking.text.size := hle
  rw [run_of_le hle, run_of_le hle']
  exact runFrom_marking hflag _

/-- Without the marker, all that a scan reports are matches. -/
theorem plain_run (hregular : scan.nfa.Regular) (hflag : scan.flags.endBoundary = false)
    (start : Nat) (s : Scratch) : ∀ m ∈ (scan.run start s).2.found.toList, m.synthetic = false := by
  rw [run]
  split
  · exact fun m hm ↦ absurd hm List.not_mem_nil
  · rename_i hle
    obtain ⟨c, hc, hnext⟩ := (Visits.start (s := s) (Nat.not_lt.mp hle)).exists_runFrom
    have hplain : ∀ next, ∀ m ∈ (scan.stepped c next).found.toList, m.synthetic = false :=
      fun next m hm ↦
        have hmoved := ((hc.inOrder hregular).step hregular next).1
        hmoved.stepped.found.plain m (List.mem_reverse.mp hm)
    cases hdecode : scan.decoder.decode scan.text (scan.skip c).offset with
    | none =>
      rw [next_of_none hdecode, finish_eq hflag] at hnext
      rw [← Sum.inl.inj hnext]
      exact hplain none
    | some r =>
      rw [next_of_some hdecode] at hnext
      split at hnext
      · rw [← Sum.inl.inj hnext]
        exact hplain _
      · cases hnext

/-! ## All calls -/

theorem drain_of_resume (h : scan.run start s = (.resume offset, s')) : (scan.drain start s).1 =
    ⟨.resume offset, s'.found, s'.captures⟩ :: (scan.drain offset s').1 := by
  rw [drain]
  split
  · rename_i hrun
    cases h.symm.trans hrun
    rfl
  · rename_i hne hrun
    cases h.symm.trans hrun
    exact absurd rfl (hne offset)

theorem drain_of_ne (h : ∀ offset, (scan.run start s).1 ≠ .resume offset) :
    (scan.drain start s).1 = [.ofResult (scan.run start s)] := by
  rw [drain]
  split
  · rename_i offset s' hrun
    exact absurd (congrArg Prod.fst hrun) (h offset)
  · rename_i hrun
    rw [hrun]
    rfl

/-- Of scans one after another, the last one marks the end of the text. -/
theorem flatMap_drain_marking (hflag : scan.flags.endBoundary = false) (hle : start ≤ scan.text.size)
    (groups : Nat) (s : Scratch) :
    (scan.marking.drain start s).1.flatMap (Round.captureList groups scan.text) =
      (scan.drain start s).1.flatMap (Round.captureList groups scan.text) ++
        [Captures.endMarker groups scan.text] := by
  fun_induction scan.drain start s with
  | case1 start s offset s' hrun round rounds s'' hdrain ih =>
    have hmarked : scan.marking.run start s = (.resume offset, s') := by
      rw [run_marking hflag hle, hrun, markEnd]
    have hle' := (resume_of_run (congrArg Prod.fst hrun)).2
    rw [hdrain] at ih
    rw [drain_of_resume hmarked, List.flatMap_cons, ih hle', List.flatMap_cons, List.append_assoc]
  | case2 start s outcome s' hne hrun =>
    have hmarked := run_marking hflag hle s
    rw [hrun] at hmarked
    have hexhausted : scan.marking.run start s =
        (.exhausted, { s' with found := s'.found.pushBoundary scan.text.size }) := by
      cases outcome with
      | resume offset => exact absurd rfl (hne offset)
      | notFound => exact hmarked
      | exhausted => exact hmarked
    have hlast : ∀ offset, (scan.marking.run start s).1 ≠ .resume offset := by
      intro offset heq
      rw [hexhausted] at heq
      cases heq
    rw [drain_of_ne hlast, hexhausted, List.flatMap_singleton, List.flatMap_singleton]
    exact Round.captureList_pushBoundary groups scan.text s'.found s'.captures _ _

theorem plain_drain (hregular : scan.nfa.Regular) (hflag : scan.flags.endBoundary = false)
    (groups : Nat) (text : Text) (start : Nat) (s : Scratch) :
    ∀ m ∈ (scan.drain start s).1.flatMap (Round.captureList groups text), m.synthetic = false := by
  have hround : ∀ {start s result}, scan.run start s = result → ∀ outcome,
      ∀ m ∈ Round.captureList groups text ⟨outcome, result.2.found, result.2.captures⟩,
        m.synthetic = false := by
    rintro start s result rfl outcome m hm
    obtain ⟨c, hc, rfl⟩ := List.mem_map.mp hm
    exact plain_run hregular hflag start s c hc
  fun_induction scan.drain start s with
  | case1 start s offset s' hrun round rounds s'' hdrain ih =>
    rw [hdrain] at ih
    rw [List.flatMap_cons]
    exact fun m hm ↦ (List.mem_append.mp hm).elim (hround hrun _ m) (ih m)
  | case2 start s outcome s' hne hrun =>
    rw [List.flatMap_singleton]
    exact hround hrun outcome

end Scan

/-! ## What an iteration yields -/

namespace Nfa

variable [Atom α]

/-- Marking the end of a text adds one element, the last one: it is marked as such, spans the empty
end of the text and has no other group. Nothing else is so marked. -/
theorem findAll_endBoundary {limit : Nat} {nodes : List (Node α)} {nfa : Nfa α}
    (h : Nfa.compile limit nodes = .ok nfa) (decoder : Decoder) (text : Text)
    (noEarlyReturn : Bool) :
    ∃ marker : Captures,
      nfa.findAll text decoder ⟨noEarlyReturn, true⟩ =
        nfa.findAll text decoder ⟨noEarlyReturn, false⟩ ++ [marker] ∧
      marker.text = text ∧ marker.synthetic = true ∧ marker.size = nfa.groups + 1 ∧
      marker.span? 0 = some ⟨text.size, text.size⟩ ∧ (∀ group ≠ 0, marker.span? group = none) ∧
      ∀ m ∈ nfa.findAll text decoder ⟨noEarlyReturn, false⟩, m.synthetic = false := by
  let scan : Scan α := ⟨nfa, decoder, text, ⟨noEarlyReturn, false⟩⟩
  have hflag : scan.flags.endBoundary = false := rfl
  refine ⟨Captures.endMarker nfa.groups text, ?_, rfl, rfl, Captures.size_ofCandidate _ _ _ _,
    Captures.span?_ofCandidate _ _ _ _,
    fun group hgroup ↦ Captures.span?_ofCandidate_of_none _ _ _ _ _ hgroup, ?_⟩
  · exact Scan.flatMap_drain_marking hflag (Nat.zero_le _) nfa.groups .empty
  · exact Scan.plain_drain (Nfa.regular_of_compile h) hflag nfa.groups text 0 .empty

/-- Matches of `(a)?`, the last of which is empty at the end of the text. -/
theorem findAll_endBoundary_of_empty_last :
    ∃ nfa : Nfa Char,
      Nfa.compile 10 [.atom 'a', .groupStart (some 1), .groupEnd (some 1), .zeroOrOne true] =
          .ok nfa ∧
        ∃ marker : Captures,
          nfa.findAll #[97, 120, 97] .utf8 ⟨false, true⟩ =
            nfa.findAll #[97, 120, 97] .utf8 ⟨false, false⟩ ++ [marker] ∧
          marker.text = #[97, 120, 97] ∧ marker.synthetic = true ∧ marker.size = nfa.groups + 1 ∧
          marker.span? 0 = some ⟨3, 3⟩ ∧ (∀ group ≠ 0, marker.span? group = none) ∧
          ∀ m ∈ nfa.findAll #[97, 120, 97] .utf8 ⟨false, false⟩, m.synthetic = false := by
  obtain ⟨nfa, h⟩ : ∃ nfa : Nfa Char, Nfa.compile 10
      [.atom 'a', .groupStart (some 1), .groupEnd (some 1), .zeroOrOne true] = .ok nfa := ⟨_, rfl⟩
  exact ⟨nfa, h, findAll_endBoundary h .utf8 #[97, 120, 97] false⟩

end Nfa

end Lockstep
