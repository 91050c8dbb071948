import Lockstep.Proofs.Scan.Assertions

/-!
# Which candidates stay in a buffer

A candidate removes the buffered ones that do not begin before it, and looks at the latest of them
only. Since the buffer is in the order of the starts, these are all there are to remove, and after any
candidates the buffer holds those that no later one has superseded.
-/

namespace Lockstep

/-- None of the candidates `cs` begins at the start of `c` or before. -/
def Candidate.outlasts (c : Candidate) (cs : List Candidate) : Bool :=
  cs.all (c.span.start < ·.span.start)

namespace MatchBuffer

/-- The candidates that outlast all that come after them. -/
def unsuperseded : List Candidate → List Candidate
  | [] => []
  | c :: cs => if c.outlasts cs then c :: unsuperseded cs else unsuperseded cs

/-- No buffered candidate ends after the new one, and those that begin before it end at its start or
before. -/
def Admits (b : MatchBuffer) (c : Candidate) : Prop :=
  ∀ old ∈ b.toList, old.span.stop ≤ c.span.stop ∧
    (old.span.start < c.span.start → old.span.stop ≤ c.span.start)

/-- Each candidate is admitted by the buffer with the ones before it. -/
def AdmitsAll (b : MatchBuffer) : List Candidate → Prop
  | [] => True
  | c :: cs => b.Admits c ∧ (b.insert c).AdmitsAll cs

/-- Each candidate begins after the ones before it, and not before they end. -/
def Disjoint (b : MatchBuffer) : Prop :=
  b.toList.Pairwise fun c c' ↦ c.span.start < c'.span.start ∧ c.span.stop ≤ c'.span.start

instance (b : MatchBuffer) (c : Candidate) : Decidable (b.Admits c) :=
  inferInstanceAs (Decidable (∀ old ∈ b.toList, old.span.stop ≤ c.span.stop ∧
    (old.span.start < c.span.start → old.span.stop ≤ c.span.start)))

instance decidableAdmitsAll (b : MatchBuffer) : (cs : List Candidate) → Decidable (b.AdmitsAll cs)
  | [] => .isTrue trivial
  | c :: cs =>
    have := decidableAdmitsAll (b.insert c) cs
    inferInstanceAs (Decidable (b.Admits c ∧ (b.insert c).AdmitsAll cs))

variable {b : MatchBuffer} {c : Candidate} {cs : List Candidate}

/-! ## One candidate -/

theorem disjoint_empty : empty.Disjoint := List.Pairwise.nil

theorem Disjoint.sorted (h : b.Disjoint) : b.Sorted :=
  (List.pairwise_reverse.mp h).imp And.left

/-- The checks for a candidate that is admitted succeed. -/
theorem Sorted.insert?_eq (h : b.Sorted) (hc : b.Admits c) : b.insert? c = some (b.insert c) := by
  refine if_pos ⟨List.all_eq_true.mpr fun old hold ↦ ?_, ?_⟩
  · have hmem := List.mem_reverse.mpr ((List.takeWhile_prefix _).subset hold)
    exact decide_eq_true (hc old hmem).1
  · rw [dropWhile_eq_filter c.span.start h]
    cases hhead : (b.latestFirst.filter (·.span.start < c.span.start)).head? with
    | none => rfl
    | some old =>
      obtain ⟨hold, hlt⟩ := List.mem_filter.mp (List.mem_of_head? hhead)
      exact decide_eq_true ((hc old (List.mem_reverse.mpr hold)).2 (of_decide_eq_true hlt))

theorem Disjoint.insert (h : b.Disjoint) (hc : b.Admits c) : (b.insert c).Disjoint := by
  rw [Disjoint, toList_insert h.sorted]
  refine List.pairwise_append.mpr ⟨h.filter _, List.pairwise_singleton _ _, fun old hold c' hc' ↦ ?_⟩
  obtain ⟨hmem, hlt⟩ := List.mem_filter.mp hold
  obtain rfl := List.mem_singleton.mp hc'
  exact ⟨of_decide_eq_true hlt, (hc old hmem).2 (of_decide_eq_true hlt)⟩

/-- A marker at or after the last end removes nothing. -/
theorem pushBoundary?_eq {offset : Nat} (h : ∀ last ∈ b.toList.getLast?, last.span.stop ≤ offset) :
    b.pushBoundary? offset = some (b.pushBoundary offset) := by
  rw [toList, List.getLast?_reverse] at h
  refine if_pos ?_
  cases hhead : b.latestFirst.head? with
  | none => rfl
  | some last => exact decide_eq_true (h last hhead)

/-! ## One candidate after another -/

theorem AdmitsAll.take (h : b.AdmitsAll cs) (n : Nat) : b.AdmitsAll (cs.take n) := by
  induction cs generalizing b n with
  | nil => rwa [List.take_nil]
  | cons c cs ih =>
    cases n with
    | zero => trivial
    | succ n => exact ⟨h.1, ih h.2 n⟩

theorem foldlM_insert?_eq (h : b.Disjoint) (hcs : b.AdmitsAll cs) :
    cs.foldlM insert? b = some (cs.foldl insert b) ∧ (cs.foldl insert b).Disjoint := by
  induction cs generalizing b with
  | nil => exact ⟨rfl, h⟩
  | cons c cs ih =>
    obtain ⟨hfold, hdisjoint⟩ := ih (h.insert hcs.1) hcs.2
    refine ⟨?_, hdisjoint⟩
    rw [List.foldlM_cons, h.sorted.insert?_eq hcs.1]
    exact hfold

theorem unsuperseded_cons (c : Candidate) (cs : List Candidate) :
    unsuperseded (c :: cs) = [c].filter (·.outlasts cs) ++ unsuperseded cs := by
  rw [unsuperseded, List.filter_cons, List.filter_nil]
  split <;> rfl

/-- What is buffered already stays if it outlasts all the candidates. -/
theorem toList_foldl_insert (h : b.Sorted) (cs : List Candidate) :
    (cs.foldl insert b).toList = b.toList.filter (·.outlasts cs) ++ unsuperseded cs := by
  induction cs generalizing b with
  | nil =>
    have hall : b.toList.filter (·.outlasts []) = b.toList := List.filter_eq_self.mpr fun _ _ ↦ rfl
    rw [unsuperseded, List.append_nil, hall]
    rfl
  | cons c cs ih =>
    have hfilter : (b.toList.filter (·.span.start < c.span.start)).filter (·.outlasts cs) =
        b.toList.filter (·.outlasts (c :: cs)) := by
      rw [List.filter_filter]
      exact List.filter_congr fun old _ ↦ Bool.and_comm _ _
    calc
      (cs.foldl insert (b.insert c)).toList
      _ = (b.insert c).toList.filter (·.outlasts cs) ++ unsuperseded cs := ih (h.insert c)
      _ = b.toList.filter (·.outlasts (c :: cs)) ++ ([c].filter (·.outlasts cs) ++
          unsuperseded cs) := by
        rw [toList_insert h, List.filter_append, hfilter, List.append_assoc]
      _ = b.toList.filter (·.outlasts (c :: cs)) ++ unsuperseded (c :: cs) := by
        rw [unsuperseded_cons]

theorem unsuperseded_sublist (cs : List Candidate) : (unsuperseded cs).Sublist cs := by
  induction cs with
  | nil => exact .slnil
  | cons c cs ih =>
    rw [unsuperseded]
    split
    · exact ih.cons_cons c
    · exact ih.cons c

/-- After each of the candidates that it admitted since it was cleared, the buffer holds those so far
that no later one superseded, in their order. Each begins after the ones before it, and not before they
end, no check fails, and a marker at or after the last end removes nothing. -/
theorem foldlM_insert?_eq_unsuperseded (cleared : MatchBuffer) (cs : List Candidate)
    (h : cleared.clear.AdmitsAll cs) (n : Nat) :
    let before := cs.take n
    ∃ b, before.foldlM insert? cleared.clear = some b ∧
      b = before.foldl insert cleared.clear ∧
      b.toList = unsuperseded before ∧ b.toList.Sublist before ∧
      b.toList.Pairwise (fun c c' ↦ c.span.start < c'.span.start ∧ c.span.stop ≤ c'.span.start) ∧
      ∀ offset, (∀ last ∈ b.toList.getLast?, last.span.stop ≤ offset) →
        ∃ b', b.pushBoundary? offset = some b' ∧
          b'.toList = b.toList ++ [⟨⟨offset, offset⟩, none, true⟩] := by
  intro before
  obtain ⟨hfold, hdisjoint⟩ := foldlM_insert?_eq disjoint_empty (h.take n)
  have hlist := toList_foldl_insert disjoint_empty.sorted before
  refine ⟨_, hfold, rfl, hlist, ?_, hdisjoint, fun offset hoffset ↦ ?_⟩
  · exact hlist ▸ unsuperseded_sublist before
  · exact ⟨_, pushBoundary?_eq hoffset, toList_pushBoundary _ offset⟩

/-- Candidates that touch, are empty, have one start, or remove several at once, in a buffer that held
a later one before it was cleared, and a marker that touches the last. -/
theorem foldlM_insert?_eq_unsuperseded_of_touching :
    let c (start stop : Nat) (last : Option Nat) : Candidate := ⟨⟨start, stop⟩, last, false⟩
    let cleared : MatchBuffer := ⟨[c 7 9 none]⟩
    let cs := [c 0 1 none, c 1 1 none, c 1 2 none, c 2 3 none, c 4 4 (some 0), c 1 5 (some 2),
      c 5 5 (some 3), c 5 5 (some 4)]
    let kept := [c 0 1 none, c 1 5 (some 2), c 5 5 (some 4)]
    cleared.clear.AdmitsAll cs ∧
      (∃ b, (cs.take 5).foldlM insert? cleared.clear = some b ∧
        b.toList = [c 0 1 none, c 1 2 none, c 2 3 none, c 4 4 (some 0)]) ∧
      ∃ b, cs.foldlM insert? cleared.clear = some b ∧ b.toList = kept ∧
        ∃ b', b.pushBoundary? 5 = some b' ∧ b'.toList = kept ++ [⟨⟨5, 5⟩, none, true⟩] := by
  intro c cleared cs kept
  have hadmits : cleared.clear.AdmitsAll cs := by decide
  obtain ⟨early, hearly, -, hbefore, -⟩ := foldlM_insert?_eq_unsuperseded cleared cs hadmits 5
  obtain ⟨b, hfold, -, hlist, -, -, hmarker⟩ := foldlM_insert?_eq_unsuperseded cleared cs hadmits 8
  have hkept : b.toList = kept := hlist
  obtain ⟨b', hb', hlist'⟩ := hmarker 5 (by rw [hkept]; decide)
  exact ⟨hadmits, ⟨early, hearly, hbefore⟩, b, hfold, hkept, b', hb', hkept ▸ hlist'⟩

end MatchBuffer

end Lockstep
