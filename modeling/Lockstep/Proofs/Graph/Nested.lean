import Lockstep.Proofs.Graph.Block
import Lockstep.Proofs.Graph.Onward
import Lockstep.Proofs.Pattern.Wired

/-!
# Two loop nodes in the place of one

A loop inside a loop makes two nodes that choose between another iteration and the way out. If one
node took the place of both, a search would find the same. A path that comes from the one choice to the
other finds one of the branches cut, as it leads back to the first choice, or finds there once more what
the first choice finds.
-/

namespace Lockstep

universe u

variable {α : Type u}

/-! ## Nested loops -/

/-- Two quantifiers, the inner one first. -/
inductive Pattern.Nest where
  | starStar
  | plusStar
  | starPlus
  | starOption
deriving DecidableEq, Repr

namespace Pattern.Nest

/-- The two quantifiers over a pattern. -/
def wrap (greedy : Bool) (p : Pattern α) : Nest → Pattern α
  | .starStar => .zeroOrMore greedy (.zeroOrMore greedy p)
  | .plusStar => .zeroOrMore greedy (.oneOrMore greedy p)
  | .starPlus => .oneOrMore greedy (.zeroOrMore greedy p)
  | .starOption => .zeroOrOne greedy (.zeroOrMore greedy p)

/-- Where the inner quantifier is left to. The outer one stands behind it. -/
def ahead (loop exit : Nat) : Nest → Nat
  | .starStar | .plusStar | .starPlus => loop + 1
  | .starOption => exit

/-- Where the outer quantifier goes on. -/
def back (body loop : Nat) : Nest → Nat
  | .starStar | .starPlus | .starOption => loop
  | .plusStar => body

/-- Where the way through the two begins. -/
def head (loop : Nat) : Nest → Nat
  | .starStar | .plusStar | .starOption => loop + 1
  | .starPlus => loop

theorem eq_head {loop id : Nat} {n : Nest} (h : id = n.head loop) :
    id = loop ∧ n = .starPlus ∨ id = loop + 1 ∧ n ≠ .starPlus := by
  cases n <;> simpa [head] using h

end Pattern.Nest

namespace Graph

open Pattern (Nest branches)

/-- The numbers when the nodes `loop` and `loop + 1` are one. -/
def merge (loop id : Nat) : Nat := if id ≤ loop then id else id - 1

section

variable {loop id id' : Nat}

theorem merge_of_le (h : id ≤ loop) : merge loop id = id := if_pos h

theorem merge_of_gt (h : loop < id) : merge loop id = id - 1 := if_neg (Nat.not_le.mpr h)

theorem merge_succ (loop : Nat) : merge loop (loop + 1) = loop := merge_of_gt (Nat.lt_succ_self _)

/-- Only the two nodes become one. -/
theorem merge_inj (h : merge loop id = merge loop id') (hid : id ≠ loop ∧ id ≠ loop + 1) :
    id = id' := by
  unfold merge at h
  split at h <;> split at h <;> omega

theorem merge_eq_final_iff (hid : id ≠ loop ∧ id ≠ loop + 1) :
    merge loop id = final ↔ id = final := by
  have hfinal : merge loop final = final := merge_of_le (Nat.zero_le loop)
  refine ⟨fun heq ↦ merge_inj (heq.trans hfinal.symm) hid, ?_⟩
  rintro rfl
  exact hfinal

end

/-- In the one graph, two nested loops are around the nodes from `base` on, which begin at `body`. In
the other graph, there is one loop in their place. -/
structure Merges (g' g : Graph α) (n : Nest) (greedy : Bool) (base body loop exit : Nat) : Prop where
  base_le : base ≤ body
  body_lt : body < loop
  exit_outside : exit < base ∨ loop + 1 < exit
  same : ∀ {id : Nat}, id ≠ loop → id ≠ loop + 1 →
    g.nodes[merge loop id]? = g'.nodes[id]?.map (Node.expand fun id ↦ [merge loop id])
  inside : ∀ {id next : Nat} {node : Node α}, base ≤ id → id < loop → g'.nodes[id]? = some node →
    next ∈ node.out → base ≤ next ∧ next ≤ loop
  outside : ∀ {id next : Nat} {node : Node α}, id < base ∨ loop + 1 < id → g'.nodes[id]? = some node →
    next ∈ node.out → next < base ∨ next = n.head loop ∨ loop + 1 < next
  inner : Forks g'.nodes loop (branches greedy body (n.ahead loop exit))
  outer : Forks g'.nodes (loop + 1) (branches greedy (n.back body loop) exit)
  single : Forks g.nodes loop (branches greedy body (merge loop exit))

/-! ## Paths in the two graphs -/

variable {g' g : Graph α} {n : Nest} {greedy : Bool} {base body loop exit id next : Nat}
  {passed' passed more : List Nat} {node : Node α}

theorem Merges.base_lt (h : Merges g' g n greedy base body loop exit) : base < loop :=
  Nat.lt_of_le_of_lt h.base_le h.body_lt

/-- Around the loops, only the head of the two is led to. -/
theorem Merges.edge (h : Merges g' g n greedy base body loop exit) (hid : id < base ∨ loop + 1 < id)
    (hnode : g'.nodes[id]? = some node) (hnext : next ∈ node.out) : next < base ∨
      (next = loop ∧ n = .starPlus ∨ next = loop + 1 ∧ n ≠ .starPlus) ∨ loop + 1 < next :=
  (h.outside hid hnode hnext).imp_right (.imp_left Nest.eq_head)

/-- A node of both graphs does not lead to the outer loop, if the way through the two begins at the
inner one. -/
theorem Merges.reached (h : Merges g' g n greedy base body loop exit)
    (hid : id ≠ loop ∧ id ≠ loop + 1) (hnode : g'.nodes[id]? = some node) (hnext : next ∈ node.out)
    (heq : next = loop + 1) : n ≠ .starPlus := by
  have hlt := h.base_lt
  by_cases hin : base ≤ id ∧ id ≤ loop
  · have := h.inside hin.1 (Nat.lt_of_le_of_ne hin.2 hid.1) hnode hnext
    omega
  · have hedge := h.edge (by omega) hnode hnext
    grind

/-- The two graphs have passed the same nodes. Two loops count as one. -/
structure SamePassed (g' : Graph α) (loop : Nat) (passed' passed : List Nat) : Prop where
  mem_iff : ∀ {i : Nat}, i ≠ loop → i ≠ loop + 1 → (i ∈ passed' ↔ merge loop i ∈ passed)
  loop_mem_iff : loop ∈ passed ↔ loop ∈ passed' ∨ loop + 1 ∈ passed'
  isConsuming : ∀ {i : Nat} {node : Node α}, i ∈ passed' → g'.nodes[i]? = some node →
    node.isConsuming = false

/-- The loops that are passed on one turn. -/
structure Turn (loop : Nat) (more : List Nat) : Prop where
  ne_nil : more ≠ []
  eq_or_eq : ∀ i ∈ more, i = loop ∨ i = loop + 1

theorem turn_inner (loop : Nat) : Turn loop [loop] := ⟨by simp, by simp⟩

theorem turn_outer (loop : Nat) : Turn loop [loop + 1] := ⟨by simp, by simp⟩

theorem turn_inner_outer (loop : Nat) : Turn loop [loop + 1, loop] := ⟨by simp, by simp⟩

theorem turn_outer_inner (loop : Nat) : Turn loop [loop, loop + 1] := ⟨by simp, by simp⟩

namespace SamePassed

theorem nil : SamePassed g' loop [] [] where
  mem_iff _ _ := by simp
  loop_mem_iff := by simp
  isConsuming := nofun

/-- A node is passed that is in both graphs. -/
theorem cons (h : SamePassed g' loop passed' passed) (hid : id ≠ loop ∧ id ≠ loop + 1)
    (hnode : g'.nodes[id]? = some node) (hcons : node.isConsuming = false) :
    SamePassed g' loop (id :: passed') (merge loop id :: passed) where
  mem_iff {i} hi hi' := by
    rw [List.mem_cons, List.mem_cons, h.mem_iff hi hi']
    exact or_congr_left ⟨fun heq ↦ heq ▸ rfl, fun heq ↦ merge_inj heq ⟨hi, hi'⟩⟩
  loop_mem_iff := by
    have hne : loop ≠ merge loop id := fun heq ↦
      hid.1 (merge_inj (heq.symm.trans (merge_of_le (Nat.le_refl _)).symm) hid)
    simp [h.loop_mem_iff, hne, hid.1.symm, hid.2.symm]
  isConsuming {i node'} hi hnode' := by
    rcases List.mem_cons.mp hi with rfl | hi
    · cases hnode.symm.trans hnode'
      exact hcons
    · exact h.isConsuming hi hnode'

/-- Loops are passed. -/
theorem turn (h : SamePassed g' loop passed' passed)
    (hmerges : Merges g' g n greedy base body loop exit) (hmore : Turn loop more) :
    SamePassed g' loop (more ++ passed') (loop :: passed) where
  mem_iff {i} hi hi' := by
    have hnotMem : i ∉ more := fun hmem ↦ (hmore.eq_or_eq i hmem).elim hi hi'
    have hmerge : merge loop i ≠ loop := fun heq ↦
      hi (merge_inj (heq.trans (merge_of_le (Nat.le_refl _)).symm) ⟨hi, hi'⟩)
    simp [hnotMem, hmerge, h.mem_iff hi hi']
  loop_mem_iff := by
    obtain ⟨i, hi⟩ := List.exists_mem_of_ne_nil more hmore.ne_nil
    rcases hmore.eq_or_eq i hi with rfl | rfl <;> simp [hi]
  isConsuming {i node} hi hnode := by
    rcases List.mem_append.mp hi with hi | hi
    · rcases hmore.eq_or_eq i hi with rfl | rfl
      · obtain ⟨-, _, hnode', hcons, -⟩ := hmerges.inner
        cases hnode.symm.trans hnode'
        exact hcons
      · obtain ⟨-, _, hnode', hcons, -⟩ := hmerges.outer
        cases hnode.symm.trans hnode'
        exact hcons
    · exact h.isConsuming hi hnode

end SamePassed

/-- What the paths to a node have passed in the two graphs. When a path has passed only one of the two
loops, it does not find more by passing the other one. -/
structure Tracks (g' : Graph α) (n : Nest) (base body loop exit : Nat) (passed' passed : List Nat)
    (id : Nat) : Prop extends SamePassed g' loop passed' passed where
  inside : base ≤ id → id ≤ loop → loop + 1 ∈ passed' →
    loop ∈ passed' ∨ n = .plusStar ∧ (body ∈ passed' ∨ id = body)
  outside : id < base ∨ loop < id →
    (n = .starPlus → loop + 1 ∈ passed' → loop ∈ passed') ∧
    (n ≠ .starPlus → loop ∈ passed' →
      loop + 1 ∈ passed' ∨ n = .starOption ∧ (exit ∈ passed' ∨ id = exit))
  reached : id = loop + 1 → n ≠ .starPlus

namespace Tracks

theorem start (hreached : id = loop + 1 → n ≠ .starPlus) :
    Tracks g' n base body loop exit [] [] id :=
  ⟨.nil, nofun, fun _ ↦ ⟨nofun, nofun⟩, hreached⟩

/-- A node is passed that is in both graphs. -/
theorem pass (h : Tracks g' n base body loop exit passed' passed id)
    (hmerges : Merges g' g n greedy base body loop exit) (hid : id ≠ loop ∧ id ≠ loop + 1)
    (hnode : g'.nodes[id]? = some node) (hcons : node.isConsuming = false) (hnext : next ∈ node.out) :
    Tracks g' n base body loop exit (id :: passed') (merge loop id :: passed) next := by
  have hsame := h.toSamePassed.cons hid hnode hcons
  have hinner : loop ∈ id :: passed' ↔ loop ∈ passed' := by simp [hid.1.symm]
  have houter : loop + 1 ∈ id :: passed' ↔ loop + 1 ∈ passed' := by simp [hid.2.symm]
  by_cases hin : base ≤ id ∧ id ≤ loop
  · obtain ⟨hle, hle'⟩ := hmerges.inside hin.1 (Nat.lt_of_le_of_ne hin.2 hid.1) hnode hnext
    refine ⟨hsame, fun _ _ hmem ↦ ?_, by omega, hmerges.reached hid hnode hnext⟩
    rw [houter] at hmem
    rw [hinner]
    exact (h.inside hin.1 hin.2 hmem).imp_right (.imp_right fun hbody ↦ .inl (List.mem_cons.mpr
      (hbody.symm.imp_left Eq.symm)))
  · have hedge := hmerges.edge (by omega) hnode hnext
    have hlt := hmerges.base_lt
    obtain ⟨hstar, hother⟩ := h.outside (by omega)
    refine ⟨hsame, fun _ _ hmem ↦ ?_, fun _ ↦ ⟨?_, fun hn hmem ↦ ?_⟩,
      hmerges.reached hid hnode hnext⟩
    · rw [houter] at hmem
      rw [hinner]
      exact .inl (hstar (by grind) hmem)
    · rwa [hinner, houter]
    · rw [hinner] at hmem
      rw [houter]
      exact (hother hn hmem).imp_right (.imp_right fun hexit ↦ .inl (List.mem_cons.mpr
        (hexit.symm.imp_left Eq.symm)))

/-- Loops are passed, and the way goes on to their operand. -/
theorem enter (h : SamePassed g' loop passed' passed)
    (hmerges : Merges g' g n greedy base body loop exit) (hmore : Turn loop more)
    (hbody : n = .plusStar ∨ loop ∈ more) :
    Tracks g' n base body loop exit (more ++ passed') (loop :: passed) body := by
  have hle := hmerges.base_le
  have hlt := hmerges.body_lt
  refine ⟨h.turn hmerges hmore, fun _ _ _ ↦ ?_, by omega, by omega⟩
  exact hbody.symm.imp (List.mem_append_left _) fun hn ↦ ⟨hn, .inr rfl⟩

/-- Loops are passed, and the way goes on behind them. -/
theorem leave (h : SamePassed g' loop passed' passed)
    (hmerges : Merges g' g n greedy base body loop exit) (hmore : Turn loop more)
    (hexit : n = .starOption ∨ n.head loop ∈ more) :
    Tracks g' n base body loop exit (more ++ passed') (loop :: passed) exit := by
  have hout := hmerges.exit_outside
  have hlt : base < loop := hmerges.base_lt
  refine ⟨h.turn hmerges hmore, by omega, fun _ ↦ ⟨?_, fun hn _ ↦ ?_⟩, by omega⟩
  · rintro rfl -
    exact List.mem_append_left _ (hexit.resolve_left (by simp))
  · refine (hexit.symm.imp (fun hmem ↦ List.mem_append_left _ ?_) fun hn ↦ ⟨hn, .inr rfl⟩)
    obtain ⟨-, rfl⟩ | ⟨heq, -⟩ := Nest.eq_head (rfl : n.head loop = n.head loop)
    · exact absurd rfl hn
    · exact heq ▸ hmem

end Tracks

/-! ## Nodes that have not been passed -/

/-- How many nodes have not been passed. -/
def fresh (g : Graph α) (passed : List Nat) : Nat :=
  (List.range g.nodes.size).countP fun i ↦ i ∉ passed

theorem fresh_lt (hnode : g'.nodes[id]? = some node) (hid : id ∉ passed') (hmem : id ∈ more)
    (hsub : ∀ i ∈ passed', i ∈ more) : fresh g' more < fresh g' passed' := by
  obtain ⟨hlt, -⟩ := Array.getElem?_eq_some_iff.mp hnode
  exact countP_lt_countP (fun i hi ↦ by simpa using fun h ↦ (by simpa using hi : i ∉ more) (hsub i h))
    (List.mem_range.mpr hlt) (by simpa using hmem) (by simpa using hid)

theorem Merges.fresh_turn_lt (h : Merges g' g n greedy base body loop exit) (hinner : loop ∉ passed')
    (houter : loop + 1 ∉ passed') (hmore : Turn loop more) :
    fresh g' (more ++ passed') < fresh g' passed' := by
  obtain ⟨i, hi⟩ := List.exists_mem_of_ne_nil more hmore.ne_nil
  obtain ⟨-, node, hnode, -⟩ := h.inner
  obtain ⟨-, node', hnode', -⟩ := h.outer
  rcases hmore.eq_or_eq i hi with rfl | rfl
  · exact fresh_lt hnode hinner (List.mem_append_left _ hi) fun _ ↦ List.mem_append_right _
  · exact fresh_lt hnode' houter (List.mem_append_left _ hi) fun _ ↦ List.mem_append_right _

/-! ## Searches in the two graphs -/

section

variable {β : Type}

theorem findSome?_out_expand (node : Node α) (f : Nat → Option β) :
    (node.expand fun id ↦ [merge loop id]).out.findSome? f =
      node.out.findSome? fun next ↦ f (merge loop next) := by
  rw [Node.expand, findSome?_flatMap]
  exact findSome?_congr fun next _ ↦ List.findSome?_singleton

end

theorem passing_expand (image : Nat → List Nat) (node : Node α) (id id' : Nat) :
    passing (node.expand image) id' = passing node id := by
  obtain ⟨kind, greedy, capturing, group, out⟩ := node
  cases kind <;> cases capturing <;> rfl

namespace Merges

variable [Atom α] {b : Boundary} {rest : Ahead}

theorem holdsAt_eq (h : Merges g' g n greedy base body loop exit) (hid : id ≠ loop ∧ id ≠ loop + 1) :
    holdsAt g.nodes b (merge loop id) = holdsAt g'.nodes b id := by
  rw [holdsAt, holdsAt, h.same hid.1 hid.2]
  cases g'.nodes[id]? <;> rfl

theorem admits_eq (h : Merges g' g n greedy base body loop exit) (hid : id ≠ loop ∧ id ≠ loop + 1)
    (next : Option Char) : admits g.nodes (merge loop id) next = admits g'.nodes id next := by
  have hfinal : (merge loop id == final) = (id == final) := by
    rw [Bool.eq_iff_iff, beq_iff_eq, beq_iff_eq, merge_eq_final_iff hid]
  unfold admits
  rw [h.same hid.1 hid.2, hfinal]
  cases g'.nodes[id]? <;> rfl

/-- Nothing is different behind a node that consumes, if nothing is different before the rest. -/
theorem beyond_eq (h : Merges g' g n greedy base body loop exit) (hid : id ≠ loop ∧ id ≠ loop + 1)
    (hrest : g'.search rest id = g.search rest (merge loop id)) :
    g'.beyond b rest id = g.beyond b rest (merge loop id) := by
  simp only [beyond, h.admits_eq hid, merge_eq_final_iff hid, hrest]

section

variable {x y : Option (Ahead × List Mark)}

/-- However the two loops have been passed, a search finds `x` from their operand on, and `y` behind
them. -/
structure Finds (g' : Graph α) (n : Nest) (body loop exit : Nat) (b : Boundary) (rest : Ahead)
    (passed' : List Nat) (x y : Option (Ahead × List Mark)) : Prop where
  inner : loop ∉ passed'
  outer : loop + 1 ∉ passed'
  body : ∀ {more}, Turn loop more → n = .plusStar ∨ loop ∈ more →
    g'.onward b rest (more ++ passed') body = x
  exit : ∀ {more}, Turn loop more → n = .starOption ∨ n.head loop ∈ more →
    g'.onward b rest (more ++ passed') exit = y

variable (h : Merges g' g n greedy base body loop exit)
  (hfinds : Finds g' n body loop exit b rest passed' x y)

include h hfinds

/-- What is found from the inner loop on. -/
theorem onward_inner : g'.onward b rest passed' loop = prefer greedy x y := by
  have houter : loop + 1 ∉ loop :: passed' := by simp [hfinds.outer]
  have hbody : g'.onward b rest (loop :: passed') body = x :=
    hfinds.body (turn_inner loop) (by simp)
  have hexit : g'.onward b rest ((loop + 1) :: loop :: passed') exit = y :=
    hfinds.exit (turn_inner_outer loop) (by cases n <;> simp [Nest.head])
  have hcut : g'.onward b rest ((loop + 1) :: loop :: passed') loop = none :=
    h.inner.onward_of_mem (by simp)
  rw [h.inner.onward hfinds.inner, findSome?_branches, hbody]
  cases n with
  | starStar | starPlus =>
    -- the outer loop leads back to the inner one, which is on the path
    rw [Nest.ahead, h.outer.onward houter, findSome?_branches, Nest.back, hcut, hexit,
      prefer_none_left]
  | plusStar =>
    -- the outer loop leads to the operand once more
    have hagain : g'.onward b rest ((loop + 1) :: loop :: passed') body = x :=
      hfinds.body (turn_inner_outer loop) (.inl rfl)
    rw [Nest.ahead, h.outer.onward houter, findSome?_branches, Nest.back, hagain, hexit,
      prefer_prefer_self_left]
  | starOption =>
    have hexit : g'.onward b rest (loop :: passed') exit = y :=
      hfinds.exit (turn_inner loop) (.inl rfl)
    rw [Nest.ahead, hexit]

/-- What is found from the outer loop on, if the way through the loops begins there. -/
theorem onward_outer (hn : n ≠ .starPlus) :
    g'.onward b rest passed' (loop + 1) = prefer greedy x y := by
  have hinner : loop ∉ (loop + 1) :: passed' := by simp [hfinds.inner]
  have hexit : g'.onward b rest ((loop + 1) :: passed') exit = y :=
    hfinds.exit (turn_outer loop) (by cases n <;> simp [Nest.head] at hn ⊢)
  have hbody : g'.onward b rest (loop :: (loop + 1) :: passed') body = x :=
    hfinds.body (turn_outer_inner loop) (by simp)
  have hcut : g'.onward b rest (loop :: (loop + 1) :: passed') (loop + 1) = none :=
    h.outer.onward_of_mem (by simp)
  rw [h.outer.onward hfinds.outer, findSome?_branches, hexit]
  cases n with
  | starStar =>
    -- the inner loop leads back to the outer one, which is on the path
    rw [Nest.back, h.inner.onward hinner, findSome?_branches, hbody, Nest.ahead, hcut,
      prefer_none_right]
  | plusStar =>
    have hbody : g'.onward b rest ((loop + 1) :: passed') body = x :=
      hfinds.body (turn_outer loop) (.inl rfl)
    rw [Nest.back, hbody]
  | starPlus => exact absurd rfl hn
  | starOption =>
    -- both lead out
    have hagain : g'.onward b rest (loop :: (loop + 1) :: passed') exit = y :=
      hfinds.exit (turn_outer_inner loop) (.inl rfl)
    rw [Nest.back, h.inner.onward hinner, findSome?_branches, hbody, Nest.ahead, hagain,
      prefer_prefer_self_right]

end

/-- A node is not passed again. -/
theorem onward_of_passed (h : SamePassed g' loop passed' passed) (hid : id ∈ passed') {p : List Nat}
    (hp : id ∈ p) : g'.onward b rest p id = none :=
  onward_of_mem (fun _ hnode ↦ h.isConsuming hid hnode) hp

/-- From the inner loop on nothing is found if the single loop has been passed. -/
theorem onward_inner_of_mem (h : Merges g' g n greedy base body loop exit)
    (htracks : Tracks g' n base body loop exit passed' passed loop) (hmem : loop ∈ passed) :
    g'.onward b rest passed' loop = none := by
  by_cases hinner : loop ∈ passed'
  · exact h.inner.onward_of_mem hinner
  have houter := (htracks.loop_mem_iff.mp hmem).resolve_left hinner
  obtain ⟨rfl, hbody⟩ :=
    (htracks.inside (Nat.le_of_lt h.base_lt) (Nat.le_refl _) houter).resolve_left hinner
  have hbody := hbody.resolve_right (Nat.ne_of_gt h.body_lt)
  rw [h.inner.onward hinner, findSome?_branches, Nest.ahead,
    onward_of_passed htracks.toSamePassed hbody (List.mem_cons_of_mem _ hbody),
    h.outer.onward_of_mem (List.mem_cons_of_mem _ houter), prefer_none_left]

/-- From the outer loop on nothing is found if the single loop has been passed. -/
theorem onward_outer_of_mem (h : Merges g' g n greedy base body loop exit)
    (htracks : Tracks g' n base body loop exit passed' passed (loop + 1)) (hmem : loop ∈ passed) :
    g'.onward b rest passed' (loop + 1) = none := by
  by_cases houter : loop + 1 ∈ passed'
  · exact h.outer.onward_of_mem houter
  have hinner := (htracks.loop_mem_iff.mp hmem).resolve_right houter
  obtain ⟨rfl, hexit⟩ := ((htracks.outside (.inr (Nat.lt_succ_self _))).2 (htracks.reached rfl)
    hinner).resolve_left houter
  have hexit := hexit.resolve_right (by have := h.exit_outside; have := h.base_lt; omega)
  rw [h.outer.onward houter, findSome?_branches, Nest.back,
    onward_of_passed htracks.toSamePassed hexit (List.mem_cons_of_mem _ hexit),
    h.inner.onward_of_mem (List.mem_cons_of_mem _ hinner), prefer_none_left]

/-- What is found from a node on, if the two graphs find the same later and from the next nodes on. -/
theorem onward_eq_of_plain (h : Merges g' g n greedy base body loop exit)
    (hrest : g'.search rest id = g.search rest (merge loop id))
    (hid : id ≠ loop ∧ id ≠ loop + 1) (hsame : SamePassed g' loop passed' passed)
    (hnext : ∀ node, g'.nodes[id]? = some node → node.isConsuming = false → id ∉ passed' →
      ∀ next ∈ node.out, g'.onward b rest (id :: passed') next =
        g.onward b rest (merge loop id :: passed) (merge loop next)) :
    g'.onward b rest passed' id = g.onward b rest passed (merge loop id) := by
  have hnode' := h.same hid.1 hid.2
  cases hnode : g'.nodes[id]? with
  | none =>
    rw [hnode] at hnode'
    rw [onward_of_none hnode, onward_of_none hnode']
  | some node =>
    rw [hnode] at hnode'
    cases hcons : node.isConsuming with
    | true =>
      rw [onward_of_consuming hnode hcons, onward_of_consuming hnode' hcons, h.beyond_eq hid hrest]
    | false =>
      by_cases hmem : id ∈ passed'
      · have hmem' := (hsame.mem_iff hid.1 hid.2).mp hmem
        rw [onward_of_passed hsame hmem hmem, onward_of_mem (fun _ hnode'' ↦ ?_) hmem']
        cases hnode'.symm.trans hnode''
        exact hcons
      · have hmem' := mt (hsame.mem_iff hid.1 hid.2).mpr hmem
        rw [onward_of_notMem hnode hcons hmem, onward_of_notMem hnode' hcons hmem', h.holdsAt_eq hid,
          findSome?_out_expand, passing_expand _ node id,
          findSome?_congr (hnext node hnode hcons hmem)]

/-- A search finds the same from a node on in the two graphs. -/
theorem onward_eq (h : Merges g' g n greedy base body loop exit)
    (hrest : ∀ id, id ≠ loop ∧ id ≠ loop + 1 → g'.search rest id = g.search rest (merge loop id))
    (htracks : Tracks g' n base body loop exit passed' passed id) :
    g'.onward b rest passed' id = g.onward b rest passed (merge loop id) := by
  -- a path passes no node twice, so there are fewer nodes to pass at each step
  induction hfresh : fresh g' passed' using Nat.strongRecOn generalizing passed' passed id with
  | _ _ ih =>
  subst hfresh
  by_cases hid : id ≠ loop ∧ id ≠ loop + 1
  · refine h.onward_eq_of_plain (hrest id hid) hid htracks.toSamePassed
      fun node hnode hcons hnew next hnext ↦ ih _ ?_ (htracks.pass h hid hnode hcons hnext) rfl
    exact fresh_lt hnode hnew List.mem_cons_self fun _ ↦ List.mem_cons_of_mem _
  have hfinds (hmem : loop ∉ passed) : Finds g' n body loop exit b rest passed'
      (g.onward b rest (loop :: passed) body)
      (g.onward b rest (loop :: passed) (merge loop exit)) := by
    obtain ⟨hinner, houter⟩ := not_or.mp (mt htracks.loop_mem_iff.mpr hmem)
    refine ⟨hinner, houter, fun hmore hbody ↦ ?_, fun hmore hexit ↦ ?_⟩
    · rw [ih _ (h.fresh_turn_lt hinner houter hmore) (.enter htracks.toSamePassed h hmore hbody) rfl,
        merge_of_le (Nat.le_of_lt h.body_lt)]
    · exact ih _ (h.fresh_turn_lt hinner houter hmore) (.leave htracks.toSamePassed h hmore hexit) rfl
  rcases (by omega : id = loop ∨ id = loop + 1) with heq | heq
  · rw [heq] at htracks ⊢
    rw [merge_of_le (Nat.le_refl _)]
    by_cases hmem : loop ∈ passed
    · rw [h.single.onward_of_mem hmem, h.onward_inner_of_mem htracks hmem]
    · rw [h.single.onward hmem, findSome?_branches, h.onward_inner (hfinds hmem)]
  · rw [heq] at htracks ⊢
    rw [merge_succ]
    by_cases hmem : loop ∈ passed
    · rw [h.single.onward_of_mem hmem, h.onward_outer_of_mem htracks hmem]
    · have hn := htracks.reached rfl
      rw [h.single.onward hmem, findSome?_branches, h.onward_outer (hfinds hmem) hn]

/-- A search finds the same in the two graphs, from nodes that both have. -/
theorem search_eq (h : Merges g' g n greedy base body loop exit) (hid : id ≠ loop ∧ id ≠ loop + 1)
    (bs : Ahead) : g'.search bs id = g.search bs (merge loop id) := by
  induction bs generalizing id with
  | nil => rfl
  | cons b rest ih =>
    have hnode' := h.same hid.1 hid.2
    by_cases hfinal : id = final
    · have hfinal' := (merge_eq_final_iff hid).mpr hfinal
      rw [search_cons, search_cons, paths, paths, if_pos hfinal, if_pos hfinal']
      rfl
    have hfinal' := mt (merge_eq_final_iff hid).mp hfinal
    cases hnode : g'.nodes[id]? with
    | none =>
      rw [hnode] at hnode'
      rw [search_cons, search_cons, paths, paths, if_neg hfinal, if_neg hfinal', hnode, hnode']
      rfl
    | some node =>
      rw [hnode] at hnode'
      rw [search_eq_onward hfinal hnode, search_eq_onward hfinal' hnode', findSome?_out_expand]
      exact findSome?_congr fun next hnext ↦
        h.onward_eq (fun id hid ↦ ih hid) (.start fun heq ↦ h.reached hid hnode hnext heq)

end Merges

end Graph

end Lockstep
