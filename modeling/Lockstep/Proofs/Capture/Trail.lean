import Lockstep.Proofs.Capture.Groups

/-!
# Trails

The history of an attempt is a trail: read from its end, the offsets of its marks never increase,
they lie between the start of the attempt and the place it has come to, and the groups are groups of
the expression. New marks keep it one, since they are made at the place the attempt has come to. What
a group spans in a trail lies within it, and the group's opening is not after its closing.
-/

namespace Lockstep

/-- Marks, the latest first, at offsets from `lo` to `hi` that `On` holds of, of the groups up to
`groups`. -/
structure Trail (On : Nat → Prop) (groups lo hi : Nat) (marks : List Mark) : Prop where
  descends : marks.Pairwise fun m m' ↦ m'.offset ≤ m.offset
  within : ∀ m ∈ marks, lo ≤ m.offset ∧ m.offset ≤ hi
  on : ∀ m ∈ marks, On m.offset
  group_le : ∀ m ∈ marks, m.group ≤ groups

namespace Trail

variable {On : Nat → Prop} {groups group lo hi hi' : Nat} {marks : List Mark} {t : CaptureTree}
  {last : Option Nat}

theorem nil (On : Nat → Prop) (groups lo hi : Nat) : Trail On groups lo hi [] :=
  ⟨.nil, nofun, nofun, nofun⟩

theorem mono (h : Trail On groups lo hi marks) (hle : hi ≤ hi') : Trail On groups lo hi' marks :=
  { h with within := fun m hm ↦ ⟨(h.within m hm).1, Nat.le_trans (h.within m hm).2 hle⟩ }

/-- A mark may be added at the end of the trail. -/
theorem cons (h : Trail On groups lo hi marks) (side : Side) (hgroup : group ≤ groups) (hle : lo ≤ hi)
    (hon : On hi) : Trail On groups lo hi (⟨side, group, hi⟩ :: marks) where
  descends := List.pairwise_cons.mpr ⟨fun m hm ↦ (h.within m hm).2, h.descends⟩
  within := List.forall_mem_cons.mpr ⟨⟨hle, Nat.le_refl _⟩, h.within⟩
  on := List.forall_mem_cons.mpr ⟨hon, h.on⟩
  group_le := List.forall_mem_cons.mpr ⟨hgroup, h.group_le⟩

/-- The marks of a transition go on with the trail. -/
theorem record {work : List ZeroWidth} (h : Trail On groups lo hi (t.path last))
    (hnames : t.Names last) (hle : lo ≤ hi) (hon : On hi)
    (hwork : ∀ side group, .mark side group ∈ work → group ≤ groups) :
    Trail On groups lo hi ((t.record last hi work).2.path (t.record last hi work).1) := by
  induction work generalizing t last with
  | nil => exact h
  | cons z work ih =>
    have hrest : ∀ side group, .mark side group ∈ work → group ≤ groups := fun side group hz ↦
      hwork side group (List.mem_cons_of_mem _ hz)
    cases z with
    | assert index => exact ih h hnames hrest
    | mark side group =>
      have hpath := CaptureTree.path_push hnames ⟨side, group, hi⟩
      refine ih ?_ (CaptureTree.names_push t last ⟨side, group, hi⟩) hrest
      refine Eq.subst hpath.symm ?_
      exact h.cons side (hwork side group List.mem_cons_self) hle hon

/-! ## Groups -/

/-- A group of a trail spans a part of it. -/
theorem groupSpan? (h : Trail On groups lo hi marks) {span : Span}
    (hspan : groupSpan? group marks.reverse = some span) :
    lo ≤ span.start ∧ span.start ≤ span.stop ∧ span.stop ≤ hi ∧ On span.start ∧ On span.stop := by
  rw [Lockstep.groupSpan?, List.reverse_reverse] at hspan
  have hsublist : ((marks.filter (·.group = group)).dropWhile (·.side = .opening)).Sublist marks :=
    (List.dropWhile_sublist _).trans List.filter_sublist
  generalize (marks.filter (·.group = group)).dropWhile (·.side = .opening) = seen at hspan hsublist
  cases seen with
  | nil => cases hspan
  | cons closing earlier =>
    obtain ⟨opening, hopening, rfl⟩ := Option.map_eq_some_iff.mp hspan
    have hmem := List.mem_of_find?_eq_some hopening
    have hclosing := hsublist.subset List.mem_cons_self
    have hopening := hsublist.subset (List.mem_cons_of_mem closing hmem)
    exact ⟨(h.within opening hopening).1,
      (List.pairwise_cons.mp (h.descends.sublist hsublist)).1 opening hmem,
      (h.within closing hclosing).2, h.on opening hopening, h.on closing hclosing⟩

end Trail

/-- A candidate with a trail from the start of its match to its end. -/
structure Candidate.Trailed (On : Nat → Prop) (groups : Nat) (t : CaptureTree) (c : Candidate) :
    Prop where
  names : t.Names c.captures
  start_le : c.span.start ≤ c.span.stop
  start_on : On c.span.start
  stop_on : On c.span.stop
  trail : Trail On groups c.span.start c.span.stop (t.path c.captures)

namespace Candidate

variable {On : Nat → Prop} {groups group : Nat} {t t' : CaptureTree} {c : Candidate}

theorem Trailed.mono (h : c.Trailed On groups t) (hext : t'.Extends t) : c.Trailed On groups t' :=
  { h with names := h.names.mono hext, trail := hext.path_eq h.names ▸ h.trail }

theorem Trailed.imp {On' : Nat → Prop} (h : c.Trailed On groups t) (himp : ∀ offset, On offset → On' offset) :
    c.Trailed On' groups t where
  names := h.names
  start_le := h.start_le
  start_on := himp _ h.start_on
  stop_on := himp _ h.stop_on
  trail := { h.trail with on := fun m hm ↦ himp _ (h.trail.on m hm) }

theorem size_resolve (c : Candidate) (t : CaptureTree) (groups : Nat) :
    (c.resolve t groups).size = groups + 1 := by
  rw [resolve, CaptureTree.resolve, Array.size_setIfInBounds, size_resolveMarks]

theorem getElem?_resolve_zero (c : Candidate) (t : CaptureTree) (groups : Nat) :
    (c.resolve t groups)[0]? = some (some c.span) := by
  rw [resolve, CaptureTree.resolve, Array.getElem?_setIfInBounds, if_pos rfl, size_resolveMarks,
    if_pos (Nat.succ_pos groups)]

/-- Every group of a candidate lies within its span. -/
theorem Trailed.within (h : c.Trailed On groups t) {span : Span}
    (hspan : (c.resolve t groups)[group]? = some (some span)) :
    c.span.start ≤ span.start ∧ span.start ≤ span.stop ∧ span.stop ≤ c.span.stop ∧
      On span.start ∧ On span.stop := by
  by_cases hzero : 0 = group
  · subst hzero
    rw [getElem?_resolve_zero] at hspan
    cases hspan
    exact ⟨Nat.le_refl _, h.start_le, Nat.le_refl _, h.start_on, h.stop_on⟩
  · have hlt := (Array.getElem?_eq_some_iff.mp hspan).1
    rw [size_resolve] at hlt
    have hmarks := getElem?_resolveMarks (Nat.le_of_lt_succ hlt) (t.path c.captures).reverse
    rw [List.reverse_reverse] at hmarks
    rw [resolve, CaptureTree.resolve, Array.getElem?_setIfInBounds, if_neg hzero, hmarks] at hspan
    exact h.trail.groupSpan? (Option.some.inj hspan)

end Candidate

end Lockstep
