import Lockstep.Proofs.Search

/-!
# Histories in a growing tree

Records are only ever added to a capture tree, and a record follows an earlier one, so a history
that has a name keeps its marks whatever is recorded later. Adding the marks of a transition gives
the history they extend, with the new marks last.
-/

namespace Lockstep

namespace CaptureTree

/-- The tree `t'` has the records of `t`, and possibly more after them. -/
def Extends (t' t : CaptureTree) : Prop := t.records.toList <+: t'.records.toList

/-- A name of a history in the tree; `none` names the empty one. -/
def Names (t : CaptureTree) (last : Option Nat) : Prop := ∀ id ∈ last, id < t.size

variable {t t' t'' : CaptureTree} {last : Option Nat}

theorem Extends.refl (t : CaptureTree) : t.Extends t := List.prefix_rfl

theorem Extends.trans (h : t''.Extends t') (h' : t'.Extends t) : t''.Extends t :=
  List.IsPrefix.trans h' h

theorem Extends.getElem? (h : t'.Extends t) {id : Nat} (hid : id < t.size) :
    t'.records[id]? = t.records[id]? := by
  obtain ⟨more, hmore⟩ := h
  rw [← Array.getElem?_toList, ← Array.getElem?_toList, ← hmore]
  exact List.getElem?_append_left (by simpa [size] using hid)

theorem Extends.size_le (h : t'.Extends t) : t.size ≤ t'.size := by
  simpa [size] using h.length_le

@[simp] theorem names_none (t : CaptureTree) : t.Names none := fun _ h ↦ by cases h

theorem names_some {id : Nat} (h : id < t.size) : t.Names (some id) := by
  intro _ h'
  cases h'
  exact h

theorem Names.mono (h : t.Names last) (hext : t'.Extends t) : t'.Names last :=
  fun id hid ↦ Nat.lt_of_lt_of_le (h id hid) hext.size_le

/-- A history keeps its marks when the tree grows. -/
theorem Extends.path_eq (h : t'.Extends t) (hlast : t.Names last) : t'.path last = t.path last := by
  fun_induction t.path last with
  | case1 => exact path_none t'
  | case2 id hid => exact absurd (hlast id rfl) (by simpa [size] using hid)
  | case3 id mark hid =>
    rw [path, h.getElem? (hlast id rfl), hid]
  | case4 id parent mark hid hlt ih =>
    rw [path, h.getElem? (hlast id rfl), hid]
    dsimp only
    rw [if_pos hlt, ih (names_some (Nat.lt_trans hlt (hlast id rfl)))]
  | case5 id parent mark hid hlt =>
    rw [path, h.getElem? (hlast id rfl), hid]
    dsimp only
    rw [if_neg hlt]

theorem extends_push (t : CaptureTree) (parent : Option Nat) (mark : Mark) :
    (t.push parent mark).2.Extends t := by
  simp [Extends, push]

theorem names_push (t : CaptureTree) (parent : Option Nat) (mark : Mark) :
    (t.push parent mark).2.Names (some (t.push parent mark).1) :=
  names_some (by simp [push, size])

/-- A new history is the one it follows, and the new mark. -/
theorem path_push {parent : Option Nat} (h : t.Names parent) (mark : Mark) :
    (t.push parent mark).2.path (some (t.push parent mark).1) = mark :: t.path parent := by
  have hget : (t.push parent mark).2.records[(t.push parent mark).1]? = some ⟨parent, mark⟩ := by
    simp [push]
  rw [path, hget]
  cases parent with
  | none => simp
  | some id =>
    have hlt : id < (t.push (some id) mark).1 := h id rfl
    dsimp only
    rw [if_pos hlt, (extends_push t (some id) mark).path_eq h]

theorem extends_record (t : CaptureTree) (last : Option Nat) (offset : Nat)
    (work : List ZeroWidth) : (t.record last offset work).2.Extends t := by
  fun_induction t.record last offset work with
  | case1 t last => exact .refl t
  | case2 t last index work ih => exact ih
  | case3 t last side group work id t' hpush ih =>
    have hext := extends_push t last ⟨side, group, offset⟩
    rw [hpush] at hext
    exact ih.trans hext

theorem names_record (h : t.Names last) (offset : Nat) (work : List ZeroWidth) :
    (t.record last offset work).2.Names (t.record last offset work).1 := by
  fun_induction t.record last offset work with
  | case1 t last => exact h
  | case2 t last index work ih => exact ih h
  | case3 t last side group work id t' hpush ih =>
    have hnames := names_push t last ⟨side, group, offset⟩
    rw [hpush] at hnames
    exact ih hnames

/-- Recording the marks of `work` extends a history by them. -/
theorem reverse_path_record (h : t.Names last) (offset : Nat) (work : List ZeroWidth) :
    ((t.record last offset work).2.path (t.record last offset work).1).reverse =
      (t.path last).reverse ++ marksAt offset work := by
  fun_induction t.record last offset work with
  | case1 t last => simp
  | case2 t last index work ih => simpa using ih h
  | case3 t last side group work id t' hpush ih =>
    have hnames := names_push t last ⟨side, group, offset⟩
    have hpath := path_push h ⟨side, group, offset⟩
    rw [hpush] at hnames hpath
    rw [ih hnames, hpath]
    simp

end CaptureTree

end Lockstep
