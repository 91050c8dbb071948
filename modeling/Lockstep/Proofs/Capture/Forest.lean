import Lockstep.Proofs.Capture.Groups

/-!
# A tree that is only added to

Marks are added to the empty history and to histories whose name was given out since the tree was last
cleared. Then each record follows an earlier one, so that reading a history comes to an end, and a
history is the same whatever is recorded after it: attempts that fork share what they have in common
and nothing else.
-/

namespace Lockstep

namespace CaptureTree

/-! ## Reading a history -/

/-- The last record of a history, and the history that it follows. -/
def next? (t : CaptureTree) (last : Option Nat) : Option (Record × Option Nat) :=
  (last.bind t.get?).map fun r ↦ (r, r.parent)

/-- Reading the history that ends at `last` gives `records`, the latest first, and then ends. -/
inductive Yields (t : CaptureTree) : (last : Option Nat) → List Record → Prop where
  | stop {last : Option Nat} (hnext : t.next? last = none) : Yields t last []
  | record {last parent : Option Nat} {r : Record} {records : List Record}
      (hnext : t.next? last = some (r, parent)) (hrest : Yields t parent records) :
      Yields t last (r :: records)

variable {t t' : CaptureTree} {last : Option Nat} {records records' : List Record}

theorem next?_some {id : Nat} {r : Record} (h : t.get? id = some r) :
    t.next? (some id) = some (r, r.parent) := by
  rw [next?, Option.bind_some, h, Option.map_some]

theorem exists_of_next? {parent : Option Nat} {r : Record} (h : t.next? last = some (r, parent)) :
    ∃ id, last = some id ∧ t.get? id = some r ∧ r.parent = parent := by
  obtain ⟨r', hr, heq⟩ := Option.map_eq_some_iff.mp h
  obtain ⟨id, rfl, hget⟩ := Option.bind_eq_some_iff.mp hr
  cases heq
  exact ⟨id, rfl, hget, rfl⟩

/-- A history is read in one way only. -/
theorem Yields.unique (h : t.Yields last records) (h' : t.Yields last records') :
    records = records' := by
  induction h generalizing records' with
  | stop hnext =>
    cases h' with
    | stop => rfl
    | record hnext' => cases hnext.symm.trans hnext'
  | record hnext hrest ih =>
    cases h' with
    | stop hnext' => cases hnext.symm.trans hnext'
    | record hnext' hrest' =>
      cases hnext.symm.trans hnext'
      rw [ih hrest']

/-! ## Records that follow earlier ones -/

/-- Every record follows an earlier one, or none. -/
def Descends (t : CaptureTree) : Prop :=
  ∀ id r, t.get? id = some r → ∀ parent ∈ r.parent, parent < id

theorem descends_empty : empty.Descends := by
  intro id r hget
  cases hget

/-- A record that is added follows one that is there. -/
theorem Descends.push (h : t.Descends) (hnames : t.Names last) (mark : Mark) :
    (t.push last mark).2.Descends := by
  intro id r hget parent hparent
  rw [get?, CaptureTree.push, Array.getElem?_push] at hget
  split at hget
  · rename_i hid
    cases hget
    exact hid ▸ hnames parent hparent
  · exact h id r hget parent hparent

theorem Descends.names_parent (h : t.Descends) {id : Nat} {r : Record} (hget : t.get? id = some r) :
    t.Names r.parent := fun parent hparent ↦
  Nat.lt_trans (h id r hget parent hparent) (Array.getElem?_eq_some_iff.mp hget).1

/-- Reading a history ends, and gives its marks. -/
theorem Descends.exists_yields (h : t.Descends) (hnames : t.Names last) :
    ∃ records, t.Yields last records ∧ t.path last = records.map Record.mark := by
  fun_induction t.path last with
  | case1 => exact ⟨[], .stop rfl, rfl⟩
  | case2 id hget => exact absurd (hnames id rfl) (by simpa [size] using hget)
  | case3 id mark hget => exact ⟨[⟨none, mark⟩], .record (next?_some hget) (.stop rfl), rfl⟩
  | case4 id parent mark hget hlt ih =>
    obtain ⟨records, hyields, hpath⟩ := ih (h.names_parent hget)
    exact ⟨⟨some parent, mark⟩ :: records, .record (next?_some hget) hyields, congrArg (mark :: ·) hpath⟩
  | case5 id parent mark hget hlt => exact absurd (h id _ hget parent rfl) hlt

/-- What is added later is not read. -/
theorem Yields.extends (h : t.Yields last records) (hdescends : t.Descends) (hnames : t.Names last)
    (hext : t'.Extends t) : t'.Yields last records := by
  induction h with
  | @stop last hnext =>
    cases last with
    | none => exact .stop rfl
    | some id =>
      have hsome : (t.get? id).isSome := by simpa [get?, size] using hnames id rfl
      obtain ⟨r, hget⟩ := Option.isSome_iff_exists.mp hsome
      cases hnext.symm.trans (next?_some hget)
  | record hnext hrest ih =>
    obtain ⟨id, rfl, hget, rfl⟩ := exists_of_next? hnext
    have hget' : t'.get? id = some _ := (hext.getElem? (hnames id rfl)).trans hget
    exact .record (next?_some hget') (ih (hdescends.names_parent hget))

/-! ## Changes -/

/-- What may be done to a tree. -/
inductive Change where
  | push (parent : Option Nat) (mark : Mark)
  | clear
deriving DecidableEq, Repr

/-- A tree, and the names that were given out since it was last cleared, the latest first. -/
structure Growth where
  tree : CaptureTree
  issued : List Nat
deriving DecidableEq, Repr

namespace Growth

def initial : Growth := ⟨.empty, []⟩

def change : Growth → Change → Growth
  | ⟨tree, issued⟩, .push parent mark =>
    let (id, tree) := tree.push parent mark
    ⟨tree, id :: issued⟩
  | ⟨tree, _⟩, .clear => ⟨tree.clear, []⟩

def run (g : Growth) (changes : List Change) : Growth := changes.foldl change g

/-- The name of the empty history, or one that was given out. -/
def Knows (g : Growth) (last : Option Nat) : Prop := ∀ id ∈ last, id ∈ g.issued

/-- A mark may be added to a history that is known. -/
def Allows (g : Growth) : Change → Prop
  | .push parent _ => g.Knows parent
  | .clear => True

/-- Each change is allowed when it is made. -/
def AllowsAll (g : Growth) : List Change → Prop
  | [] => True
  | c :: changes => g.Allows c ∧ (g.change c).AllowsAll changes

instance (g : Growth) (last : Option Nat) : Decidable (g.Knows last) :=
  inferInstanceAs (Decidable (∀ id ∈ last, id ∈ g.issued))

instance (g : Growth) (c : Change) : Decidable (g.Allows c) :=
  match c with
  | .push parent _ => inferInstanceAs (Decidable (g.Knows parent))
  | .clear => .isTrue trivial

instance decidableAllowsAll (g : Growth) : (changes : List Change) → Decidable (g.AllowsAll changes)
  | [] => .isTrue trivial
  | c :: changes =>
    have := decidableAllowsAll (g.change c) changes
    inferInstanceAs (Decidable (g.Allows c ∧ (g.change c).AllowsAll changes))

/-- The names that were given out are those of the records, and each record follows an earlier one. -/
structure Sound (g : Growth) : Prop where
  issued : ∀ id, id ∈ g.issued ↔ id < g.tree.size
  descends : g.tree.Descends

variable {g : Growth} {changes : List Change}

theorem sound_initial : initial.Sound where
  issued id := by simp [initial, size, empty]
  descends := descends_empty

theorem Sound.names (h : g.Sound) (hlast : g.Knows last) : g.tree.Names last := fun id hid ↦
  (h.issued id).mp (hlast id hid)

theorem Sound.change (h : g.Sound) {c : Change} (hallows : g.Allows c) : (g.change c).Sound := by
  cases c with
  | push parent mark =>
    refine ⟨fun id ↦ ?_, h.descends.push (h.names hallows) mark⟩
    show id ∈ g.tree.size :: g.issued ↔ id < (g.tree.records.push ⟨parent, mark⟩).size
    rw [List.mem_cons, h.issued, Array.size_push, Nat.lt_succ_iff_lt_or_eq, or_comm]
    rfl
  | clear => exact sound_initial

theorem Sound.run (h : g.Sound) (hallows : g.AllowsAll changes) : (g.run changes).Sound := by
  induction changes generalizing g with
  | nil => exact h
  | cons c changes ih => exact ih (h.change hallows.1) hallows.2

/-- Additions leave the records that are there. -/
theorem extends_run_push (g : Growth) (added : List (Option Nat × Mark)) :
    (g.run (added.map fun a ↦ .push a.1 a.2)).tree.Extends g.tree := by
  induction added generalizing g with
  | nil => exact .refl _
  | cons a added ih => exact (ih _).trans (extends_push g.tree a.1 a.2)

/-- The tree is a forest that only grows. Every record follows an earlier one, so reading a history
that is known comes to an end. A new history is its mark and the history that it follows, and what is
added later, to whatever histories, changes nothing of a history that is known. -/
theorem forest_run (changes : List Change) (h : initial.AllowsAll changes) :
    let g := initial.run changes
    (∀ id, id ∈ g.issued ↔ (g.tree.get? id).isSome) ∧
      (∀ id r, g.tree.get? id = some r → ∀ parent ∈ r.parent, parent < id) ∧
      ∀ last, g.Knows last → ∃ records, g.tree.Yields last records ∧
        g.tree.path last = records.map Record.mark ∧
        (∀ mark, (g.tree.push last mark).2.Yields (some (g.tree.push last mark).1)
            (⟨last, mark⟩ :: records) ∧
          (g.tree.push last mark).2.path (some (g.tree.push last mark).1) =
            mark :: g.tree.path last) ∧
        ∀ added : List (Option Nat × Mark),
          let later := g.run (added.map fun a ↦ .push a.1 a.2)
          (∀ id ∈ last, later.tree.get? id = g.tree.get? id) ∧ later.tree.Yields last records ∧
            later.tree.path last = g.tree.path last ∧
            ∀ groups, later.tree.resolve last groups = g.tree.resolve last groups := by
  intro g
  have hsound : g.Sound := sound_initial.run h
  refine ⟨fun id ↦ (hsound.issued id).trans ?_, hsound.descends, fun last hlast ↦ ?_⟩
  · simp [get?, size]
  have hnames := hsound.names hlast
  obtain ⟨records, hyields, hpath⟩ := hsound.descends.exists_yields hnames
  refine ⟨records, hyields, hpath, fun mark ↦ ⟨?_, path_push hnames mark⟩, fun added ↦ ?_⟩
  · have hget : (g.tree.push last mark).2.get? (g.tree.push last mark).1 = some ⟨last, mark⟩ :=
      Array.getElem?_push_size
    exact .record (next?_some hget)
      (hyields.extends hsound.descends hnames (extends_push g.tree last mark))
  · have hext := extends_run_push g added
    have hpath' := hext.path_eq hnames
    refine ⟨fun id hid ↦ hext.getElem? (hnames id hid),
      hyields.extends hsound.descends hnames hext, hpath', fun groups ↦ ?_⟩
    rw [resolve, resolve, hpath']

/-- Two closings after one opening, in a tree that was cleared before, and what is added to each of
them and beside them. -/
theorem forest_run_of_fork :
    let opening : Mark := ⟨.opening, 1, 0⟩
    let closing (offset : Nat) : Mark := ⟨.closing, 1, offset⟩
    let changes : List Change := [.push none opening, .push (some 0) (closing 9), .clear,
      .push none opening, .push (some 0) (closing 2), .push (some 0) (closing 3)]
    let g := initial.run changes
    let later := g.run [.push (some 1) opening, .push (some 2) (closing 4), .push none (closing 5)]
    initial.AllowsAll changes ∧ g.issued = [2, 1, 0] ∧ later.issued = [5, 4, 3, 2, 1, 0] ∧
      ∀ last, g.Knows last → ∃ records, g.tree.Yields last records ∧ later.tree.Yields last records ∧
        later.tree.resolve last 1 = g.tree.resolve last 1 := by
  intro opening closing changes g later
  have hallows : initial.AllowsAll changes := by decide
  refine ⟨hallows, rfl, rfl, fun last hlast ↦ ?_⟩
  obtain ⟨records, hyields, -, -, hlater⟩ := (forest_run changes hallows).2.2 last hlast
  obtain ⟨-, hyields', -, hresolve⟩ :=
    hlater [(some 1, opening), (some 2, closing 4), (none, closing 5)]
  exact ⟨records, hyields, hyields', hresolve 1⟩

end Growth

end CaptureTree

end Lockstep
