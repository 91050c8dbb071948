import Lockstep.Matches
import Lockstep.Proofs.Scan.Outlook

/-!
# Groups of a match

The marks of a match say of each group where it was last passed. Reading a history from its end, all
groups at once, comes to the same as asking for the groups one by one.
-/

namespace Lockstep

/-- The span of a group in the marks of a match: from the last opening before its last closing to that
closing. -/
def groupSpan? (group : Nat) (marks : List Mark) : Option Span :=
  match (marks.reverse.filter (·.group = group)).dropWhile (·.side = .opening) with
  | [] => none
  | closing :: earlier =>
    (earlier.find? (·.side = .opening)).map fun opening ↦ ⟨opening.offset, closing.offset⟩

namespace Bounds

theorem foldl_see_complete (span : Span) (marks : List Mark) :
    marks.foldl see (complete span) = complete span := by
  induction marks with
  | nil => rfl
  | cons m marks ih => exact ih

/-- After the last closing, the first opening counts. -/
theorem span?_foldl_see_closed (stop : Nat) (marks : List Mark) :
    (marks.foldl see (closed stop)).span? =
      (marks.find? (·.side = .opening)).map fun m ↦ ⟨m.offset, stop⟩ := by
  induction marks with
  | nil => rfl
  | cons m marks ih =>
    obtain ⟨side, group, offset⟩ := m
    cases side with
    | opening => exact congrArg span? (foldl_see_complete ⟨offset, stop⟩ marks)
    | closing => exact ih

theorem span?_foldl_see_unseen (marks : List Mark) :
    (marks.foldl see unseen).span? =
      match marks.dropWhile (·.side = .opening) with
      | [] => none
      | closing :: earlier =>
        (earlier.find? (·.side = .opening)).map fun opening ↦ ⟨opening.offset, closing.offset⟩ := by
  induction marks with
  | nil => rfl
  | cons m marks ih =>
    obtain ⟨side, group, offset⟩ := m
    cases side with
    | opening => exact ih
    | closing => exact span?_foldl_see_closed offset marks

/-- What is known of one group depends on its marks only. -/
theorem getElem?_foldl_modify (bounds : Array Bounds) (group : Nat) (marks : List Mark) :
    (marks.foldl (fun bounds m ↦ bounds.modify m.group (·.see m)) bounds)[group]? =
      bounds[group]?.map ((marks.filter (·.group = group)).foldl see) := by
  induction marks generalizing bounds with
  | nil => exact Option.map_id'.symm
  | cons m marks ih =>
    rw [List.foldl_cons, ih, Array.getElem?_modify]
    by_cases hm : m.group = group
    · rw [if_pos hm, Option.map_map, List.filter_cons_of_pos (by simpa using hm)]
      rfl
    · rw [if_neg hm, List.filter_cons_of_neg (by simpa using hm)]

end Bounds

/-- Resolving the marks of a match gives the spans of its groups. -/
theorem getElem?_resolveMarks {groups group : Nat} (h : group ≤ groups) (marks : List Mark) :
    (resolveMarks groups marks.reverse)[group]? = some (groupSpan? group marks) := by
  have hunseen : (Array.replicate (groups + 1) Bounds.unseen)[group]? = some .unseen := by
    rw [Array.getElem?_replicate, if_pos (Nat.lt_succ_of_le h)]
  rw [resolveMarks, Array.getElem?_map, Bounds.getElem?_foldl_modify, hunseen, Option.map_some,
    Option.map_some, Bounds.span?_foldl_see_unseen, groupSpan?]

/-- The groups of a match. Group 0 is the whole match. -/
def Found.captures (groups : Nat) (text : Text) (m : Found) : Captures :=
  ⟨text, (Array.range (groups + 1)).map fun group ↦
    if group = 0 then some m.span else groupSpan? group m.marks, false⟩

/-- The groups of a candidate are those of the match that it is. -/
theorem Captures.ofCandidate_eq {c : Candidate} (h : c.synthetic = false) (groups : Nat) (text : Text)
    (t : CaptureTree) :
    Captures.ofCandidate groups text t c = (Found.ofCandidate t c).captures groups text := by
  have hspans : c.resolve t groups = (Array.range (groups + 1)).map fun group ↦
      if group = 0 then some c.span else groupSpan? group (t.path c.captures).reverse := by
    refine Array.ext_getElem? fun group ↦ ?_
    rw [Candidate.resolve, CaptureTree.resolve, Array.getElem?_setIfInBounds, size_resolveMarks,
      Array.getElem?_map, Array.getElem?_range]
    by_cases hgroup : group < groups + 1
    · have hmarks := getElem?_resolveMarks (Nat.le_of_lt_succ hgroup) (t.path c.captures).reverse
      rw [List.reverse_reverse] at hmarks
      rw [hmarks, if_pos hgroup, Option.map_some]
      by_cases hzero : 0 = group
      · rw [if_pos hzero, if_pos hzero.symm, if_pos (Nat.succ_pos _)]
      · rw [if_neg hzero, if_neg fun heq ↦ hzero heq.symm]
    · have hsize : (resolveMarks groups (t.path c.captures)).size ≤ group := by
        rw [size_resolveMarks]
        exact Nat.not_lt.mp hgroup
      rw [if_neg hgroup, if_neg (by omega), Array.getElem?_eq_none hsize, Option.map_none]
  rw [Captures.ofCandidate, hspans, h, Found.captures, Found.ofCandidate]

end Lockstep
