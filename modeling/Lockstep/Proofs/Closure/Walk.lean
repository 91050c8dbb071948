import Lockstep.Proofs.Closure.Pruned
import Lockstep.Proofs.SparseSet

/-!
# The closure walk

The walk from a node reaches the ends of all paths from there, but for paths that earlier ones cover.
The invariant behind it is about the settled nodes: a settled node was entered by a path without
assertions, and of each node on that path, all paths from it on are walked already, or it is still on
the path. A path that goes through a settled node has a last node on the settling path, and from
there on it has been walked with no more assertions than it has itself.
-/

namespace Lockstep

universe u

variable {α : Type u} {nodes : Array (Node α)}

/-! ## Numbered assertions -/

namespace ZeroWidth

def isAssert : ZeroWidth → Bool
  | .assert _ => true
  | .mark _ _ => false

/-- Names an assertion by its place among `assertions` in place of its node. -/
def relabel (assertions : SparseSet) : ZeroWidth → ZeroWidth
  | .assert id => .assert ((assertions.position? id).getD 0)
  | .mark side group => .mark side group

end ZeroWidth

/-- All assertions in `work` have a number. -/
def Numbered (assertions : SparseSet) (work : List ZeroWidth) : Prop :=
  ∀ id, .assert id ∈ work → id ∈ assertions.toList

section

variable {s s' : SparseSet} {work work' : List ZeroWidth}

theorem Numbered.mono (h : Numbered s work) (hs : s.toList <+: s'.toList) : Numbered s' work :=
  fun id hid ↦ hs.subset (h id hid)

theorem Numbered.append (h : Numbered s work) (h' : Numbered s work') : Numbered s (work ++ work') :=
  fun id hid ↦ (List.mem_append.mp hid).elim (h id) (h' id)

/-- A number stays when more assertions are numbered. -/
theorem Numbered.map_relabel (h : Numbered s work) (hs : s.toList <+: s'.toList) :
    work.map (ZeroWidth.relabel s') = work.map (ZeroWidth.relabel s) := by
  apply List.map_congr_left
  intro op hop
  cases op with
  | mark side group => rfl
  | assert id =>
    rw [ZeroWidth.relabel, ZeroWidth.relabel, SparseSet.position?_extends hs (h id hop)]

/-- Different assertions have different numbers. -/
theorem Numbered.map_relabel_injective (h : Numbered s work) (h' : Numbered s work')
    (heq : work.map (ZeroWidth.relabel s) = work'.map (ZeroWidth.relabel s)) : work = work' := by
  induction work generalizing work' with
  | nil => exact (List.map_eq_nil_iff.mp heq.symm).symm
  | cons op work ih =>
    cases work' with
    | nil => simp at heq
    | cons op' work' =>
      rw [List.map_cons, List.map_cons] at heq
      obtain ⟨hop, hwork⟩ := List.cons.inj heq
      have hrest : work = work' := ih (fun id hid ↦ h id (List.mem_cons_of_mem _ hid))
        (fun id hid ↦ h' id (List.mem_cons_of_mem _ hid)) hwork
      cases op with
      | mark side group =>
        cases op' with
        | mark side' group' => rw [hrest, show (.mark side group : ZeroWidth) = _ from hop]; rfl
        | assert id' => cases hop
      | assert id =>
        cases op' with
        | mark side' group' => cases hop
        | assert id' =>
          obtain ⟨i, hi⟩ := List.mem_iff_getElem?.mp (h id List.mem_cons_self)
          obtain ⟨i', hi'⟩ := List.mem_iff_getElem?.mp (h' id' List.mem_cons_self)
          rw [SparseSet.toList, Array.getElem?_toList] at hi hi'
          rw [ZeroWidth.relabel, ZeroWidth.relabel, SparseSet.position?_eq_some_iff.mpr hi,
            SparseSet.position?_eq_some_iff.mpr hi'] at hop
          injection hop with hop
          rw [Option.getD_some, Option.getD_some] at hop
          rw [hop, hi'] at hi
          rw [hrest, Option.some.inj hi]

end

/-- An arrival as a way to its target. -/
def Arrival.way (a : Arrival) : Nat × List ZeroWidth := (a.target, a.work)

/-- The arrival that a path makes. -/
def Path.arrival (nodes : Array (Node α)) (assertions : SparseSet) (p : Path) : Arrival :=
  ⟨p.target, (p.work nodes).map (ZeroWidth.relabel assertions)⟩

/-! ## The steps of the walker -/

namespace Walker

theorem passing_fst (node : Node α) (id : Nat) (s : SparseSet) :
    (passing node id s).1 =
      (ZeroWidth.ofNode? node id).map (ZeroWidth.relabel (passing node id s).2) := by
  unfold passing ZeroWidth.ofNode?
  cases node.kind with
  | groupStart => by_cases h : node.capturing = true <;> simp [h, ZeroWidth.relabel]
  | groupEnd => by_cases h : node.capturing = true <;> simp [h, ZeroWidth.relabel]
  | _ => rfl

theorem prefix_passing (node : Node α) (id : Nat) (s : SparseSet) :
    s.toList <+: (passing node id s).2.toList := by
  unfold passing
  cases node.kind with
  | assert a => exact s.prefix_insert id
  | _ => exact List.prefix_rfl

theorem capacity_passing (node : Node α) (id : Nat) (s : SparseSet) :
    (passing node id s).2.capacity = s.capacity := by
  unfold passing
  cases node.kind with
  | assert a => exact s.capacity_insert id
  | _ => rfl

/-- Only an assertion gets a number. -/
theorem mem_passing {node : Node α} {id id' : Nat} {s : SparseSet}
    (h : id' ∈ (passing node id s).2.toList) :
    id' ∈ s.toList ∨ (id' = id ∧ ∃ a, node.kind = .assert a) := by
  unfold passing at h
  cases hkind : node.kind with
  | assert a =>
    rw [hkind] at h
    exact (SparseSet.mem_toList_insert h).imp_right fun heq ↦ ⟨heq, a, rfl⟩
  | _ =>
    rw [hkind] at h
    exact .inl h

theorem numbered_passing (node : Node α) {id : Nat} {s : SparseSet} (hid : id < s.capacity) :
    Numbered (passing node id s).2 (ZeroWidth.ofNode? node id).toList := by
  intro id' hid'
  unfold ZeroWidth.ofNode? at hid'
  unfold passing
  cases hkind : node.kind with
  | assert a =>
    rw [hkind] at hid'
    cases List.mem_singleton.mp hid'
    exact SparseSet.mem_insert_self hid
  | groupStart => by_cases h : node.capturing = true <;> simp [hkind, h] at hid'
  | groupEnd => by_cases h : node.capturing = true <;> simp [hkind, h] at hid'
  | _ => simp [hkind] at hid'

theorem pushWork_eq (work : List ZeroWidth) (pending : Nat) (op : Option ZeroWidth) :
    pushWork work pending op =
      (op.toList ++ work, op.toList.countP ZeroWidth.isAssert + pending) := by
  rcases op with _ | ⟨_ | _⟩
  · simp [pushWork]
  · simp [pushWork, ZeroWidth.isAssert]
  · simp [pushWork, ZeroWidth.isAssert, Nat.add_comm]

variable {w : Walker} {id : Nat} {node : Node α}

theorem visit_skip (h : w.onPath[id]? ≠ some false ∨ w.settled.contains id = true) :
    w.visit nodes id = ([], w) := if_pos h

/-- The settled nodes after a visit to a new node. -/
def settle (w : Walker) (id : Nat) : SparseSet :=
  if w.pending = 0 then (w.settled.insert id).2 else w.settled

theorem prefix_settle (w : Walker) (id : Nat) : w.settled.toList <+: (w.settle id).toList := by
  unfold settle
  split
  · exact w.settled.prefix_insert id
  · exact List.prefix_rfl

theorem mem_settle_iff {x : Nat} (hid : id < w.settled.capacity) :
    x ∈ (w.settle id).toList ↔ x ∈ w.settled.toList ∨ (w.pending = 0 ∧ x = id) := by
  unfold settle
  split
  · rename_i hpending
    rw [SparseSet.mem_insert_iff hid]
    simp [hpending]
  · rename_i hpending
    simp [hpending]

theorem capacity_settle (w : Walker) (id : Nat) : (w.settle id).capacity = w.settled.capacity := by
  unfold settle
  split
  · exact w.settled.capacity_insert id
  · rfl

theorem visit_consuming (hnew : ¬ (w.onPath[id]? ≠ some false ∨ w.settled.contains id = true))
    (hnode : nodes[id]? = some node) (hcons : node.isConsuming = true) :
    w.visit nodes id =
      ([], { w with settled := w.settle id, reached := arrive w.reached ⟨id, w.work.reverse⟩ }) := by
  simp only [visit]
  rw [if_neg hnew]
  simp only [hnode, hcons, if_true]
  rfl

/-- The walker with a new node on its path. -/
def enter (node : Node α) (id : Nat) (w : Walker) : Walker :=
  let assertions := (passing node id w.assertions).2
  let op := (ZeroWidth.ofNode? node id).map (ZeroWidth.relabel assertions)
  ⟨w.onPath.setIfInBounds id true, w.settle id, assertions, op.toList ++ w.work,
    op.toList.countP ZeroWidth.isAssert + w.pending, w.reached⟩

theorem visit_passing (hnew : ¬ (w.onPath[id]? ≠ some false ∨ w.settled.contains id = true))
    (hnode : nodes[id]? = some node) (hcons : node.isConsuming = false) :
    w.visit nodes id =
      (node.out.map .visit ++ [.leave id (ZeroWidth.ofNode? node id).isSome], w.enter node id) := by
  simp only [visit]
  rw [if_neg hnew]
  simp only [hnode, hcons, pushWork_eq, passing_fst, Option.isSome_map]
  rfl

/-- The marks of the nodes on the path after one of them has been put there or taken off. -/
theorem marks_set {marks : Array Bool} {size : Nat} {path path' : List Nat}
    (h : ∀ id : Nat, marks[id]? = if id < size then some (decide (id ∈ path)) else none)
    (on : Bool) (hon : decide (id ∈ path') = on)
    (hpath : ∀ id', id' ≠ id → (id' ∈ path' ↔ id' ∈ path)) (id' : Nat) :
    (marks.setIfInBounds id on)[id']? =
      if id' < size then some (decide (id' ∈ path')) else none := by
  have hid := h id
  rw [Array.getElem?_setIfInBounds, h id']
  by_cases heq : id = id'
  · subst heq
    by_cases hlt : id < size
    · rw [if_pos hlt] at hid
      rw [if_pos rfl, if_pos (Array.getElem?_eq_some_iff.mp hid).1, if_pos hlt, hon]
    · rw [if_neg hlt] at hid
      rw [if_pos rfl, if_neg (Nat.not_lt.mpr (Array.getElem?_eq_none_iff.mp hid)), if_neg hlt]
  · rw [if_neg heq, decide_eq_decide.mpr (hpath id' (Ne.symm heq))]

/-- Leaving a node takes back what it did. -/
theorem leave_of_work {op : Option ZeroWidth} {work : List ZeroWidth} {pending : Nat}
    (hwork : w.work = op.toList ++ work)
    (hpending : w.pending = op.toList.countP ZeroWidth.isAssert + pending) (id : Nat) :
    w.leave id op.isSome =
      { w with onPath := w.onPath.setIfInBounds id false, work := work, pending := pending } := by
  obtain ⟨onPath, settled, assertions, _, _, reached⟩ := w
  dsimp only at hwork hpending
  subst hwork hpending
  rcases op with _ | ⟨_ | _⟩
  · simp [leave]
  · simp [leave, popWork, ZeroWidth.isAssert]
  · simp [leave, popWork, ZeroWidth.isAssert]

@[simp] theorem run_nil : run nodes [] w = w := by
  rw [run]

theorem run_visit (rest : List WalkTask) :
    run nodes (.visit id :: rest) w =
      run nodes ((w.visit nodes id).1 ++ rest) (w.visit nodes id).2 := by
  rw [run]

theorem run_leave (passed : Bool) (rest : List WalkTask) :
    run nodes (.leave id passed :: rest) w = run nodes rest (w.leave id passed) := by
  rw [run]

end Walker

/-! ## Settled nodes -/

/-- A node that is on the path consumes nothing. -/
theorem notMem_of_consuming {path : List Nat} {id : Nat} {node : Node α}
    (hpath : ∀ id ∈ path, ∃ node, nodes[id]? = some node ∧ node.isConsuming = false)
    (hnode : nodes[id]? = some node) (hcons : node.isConsuming = true) : id ∉ path := by
  intro hmem
  obtain ⟨node', hnode', hcons'⟩ := hpath id hmem
  cases hnode.symm.trans hnode'
  rw [hcons] at hcons'
  cases hcons'

/-- Of each node on `chain`, the last of which comes first, all paths from there on are walked, or
it is on the current path and was entered from the same nodes. -/
def Settling (nodes : Array (Node α)) (path : List Nat) (all : List Path) (chain : List Nat) : Prop :=
  ∀ id above, id :: above <:+ chain → id :: above <:+ path ∨ pathsFrom nodes above id ⊆ all

namespace Settling

variable {path chain above via : List Nat} {all : List Path} {id target : Nat}

theorem mono (h : Settling nodes path all chain) (more : List Path) :
    Settling nodes path (all ++ more) chain := fun id above hsuffix ↦
  (h id above hsuffix).imp_right fun hall ↦ List.subset_append_of_subset_left _ hall

theorem push (h : Settling nodes path all chain) (id : Nat) :
    Settling nodes (id :: path) all chain := fun id' above hsuffix ↦
  (h id' above hsuffix).imp_left fun hpath ↦ hpath.trans (List.suffix_cons _ _)

/-- A node may be left when all paths from it on are walked. -/
theorem pop (h : Settling nodes (id :: path) all chain) (hall : pathsFrom nodes path id ⊆ all) :
    Settling nodes path all chain := by
  intro id' above hsuffix
  rcases h id' above hsuffix with hpath | hall'
  · rcases List.suffix_cons_iff.mp hpath with heq | hpath
    · cases heq
      exact .inr hall
    · exact .inl hpath
  · exact .inr hall'

/-- What leads on from a settled node is covered: the last node of the chain on the way was entered
without assertions, and from there on the way is walked. -/
theorem exists_of_leads
    (hpath : ∀ id ∈ path, ∃ node, nodes[id]? = some node ∧ node.isConsuming = false)
    (h : Settling nodes path all (id :: above))
    (hfree : ∀ truth, allows truth (passedWork nodes above) = true)
    (hleads : Leads nodes path id via target) :
    ∃ q ∈ all, q.target = target ∧
      ∀ truth, allows truth (passedWork nodes via) = true → allows truth (q.work nodes) = true := by
  induction hlength : above.length using Nat.strongRecOn generalizing id above via with | _ n ih
  have hid : id ∉ path := by
    cases hleads with
    | arrive hnode hcons => exact notMem_of_consuming hpath hnode hcons
    | pass hnode hcons hnew => exact hnew
  have hall : pathsFrom nodes above id ⊆ all := by
    rcases h id above List.suffix_rfl with hsuffix | hall
    · exact absurd (hsuffix.subset List.mem_cons_self) hid
    · exact hall
  by_cases hdisjoint : ∀ x ∈ via, x ∉ above
  · refine ⟨⟨above.reverse ++ via, target⟩, ?_, rfl, fun truth htruth ↦ ?_⟩
    · exact hall (mem_pathsFrom.mpr ⟨via, hleads.avoiding hdisjoint, rfl⟩)
    · rw [Path.work, passedWork_append, allows_append, passedWork_reverse, allows_reverse,
        hfree truth, htruth, Bool.and_self]
  · have hmeet : ∃ x, x ∈ via ∧ x ∈ above := by simpa using hdisjoint
    obtain ⟨x, hvia, habove⟩ := hmeet
    obtain ⟨before, above', rfl⟩ := List.append_of_mem habove
    obtain ⟨via', ⟨skipped, rfl⟩, hleads'⟩ := hleads.of_mem hvia
    have hfree' : ∀ truth, allows truth (passedWork nodes above') = true := by
      intro truth
      have hsplit := hfree truth
      rw [← List.singleton_append, ← List.append_assoc, passedWork_append, allows_append,
        Bool.and_eq_true] at hsplit
      exact hsplit.2
    have hsettling : Settling nodes path all (x :: above') := fun id' above'' hsuffix ↦
      h id' above'' (hsuffix.trans ((List.suffix_append _ _).trans (List.suffix_cons _ _)))
    have hlt : above'.length < n := by
      rw [← hlength, List.length_append, List.length_cons]
      omega
    obtain ⟨q, hq, htarget, hallows⟩ := ih _ hlt hsettling hfree' hleads' rfl
    refine ⟨q, hq, htarget, fun truth htruth ↦ hallows truth ?_⟩
    rw [passedWork_append, allows_append, Bool.and_eq_true] at htruth
    exact htruth.2

end Settling

/-! ## The walk -/

/-- A walker on its way: on `path` are the nodes passed, the last of which comes first, `all` are
the paths walked and `kept` those of them that it has kept. -/
structure Walking (nodes : Array (Node α)) (w : Walker) (path : List Nat) (all kept : List Path) :
    Prop where
  onPath : ∀ id : Nat, w.onPath[id]? = if id < nodes.size then some (decide (id ∈ path)) else none
  capacity : w.assertions.capacity = nodes.size
  asserting : ∀ id ∈ w.assertions.toList, ∃ node a, nodes[id]? = some node ∧ node.kind = .assert a
  nodup : path.Nodup
  passing : ∀ id ∈ path, ∃ node, nodes[id]? = some node ∧ node.isConsuming = false
  work : w.work = (passedWork nodes path).map (ZeroWidth.relabel w.assertions)
  pending : w.pending = (passedWork nodes path).countP ZeroWidth.isAssert
  numbered : Numbered w.assertions (passedWork nodes path)
  reached : w.reached.toList = kept.map (Path.arrival nodes w.assertions)
  kept_numbered : ∀ p ∈ kept, Numbered w.assertions (p.work nodes)
  pruned : Pruned nodes all kept
  settled : ∀ id ∈ w.settled.toList, ∃ above,
    (∀ truth, allows truth (passedWork nodes above) = true) ∧ Settling nodes path all (id :: above)

namespace Walking

variable {w : Walker} {path : List Nat} {all kept : List Path} {id : Nat} {node : Node α}

/-- Paths that earlier ones cover need no walk. -/
theorem skip (h : Walking nodes w path all kept) {ps : List Path}
    (hps : ∀ p ∈ ps, ∃ q ∈ all, q.Covers nodes p) : Walking nodes w path (all ++ ps) kept :=
  { h with
    pruned := h.pruned.drop_all hps
    settled := by
      intro id hid
      obtain ⟨above, hfree, hsettling⟩ := h.settled id hid
      exact ⟨above, hfree, hsettling.mono ps⟩ }

/-- No path on from a settled node is of use. -/
theorem covered_of_settled (h : Walking nodes w path all kept) (hid : id ∈ w.settled.toList) :
    ∀ p ∈ pathsFrom nodes path id, ∃ q ∈ all, q.Covers nodes p := by
  intro p hp
  obtain ⟨via, hleads, hpassed⟩ := mem_pathsFrom.mp hp
  obtain ⟨above, hfree, hsettling⟩ := h.settled id hid
  obtain ⟨q, hq, htarget, hallows⟩ := hsettling.exists_of_leads h.passing hfree hleads
  refine ⟨q, hq, htarget, fun truth htruth ↦ hallows truth ?_⟩
  rw [Path.work, hpassed, passedWork_append, allows_append, Bool.and_eq_true] at htruth
  exact htruth.2

/-- A node off the path is only skipped when it is settled. -/
theorem mem_settled_of_skip (h : Walking nodes w path all kept) (hnode : nodes[id]? = some node)
    (hid : id ∉ path) (hskip : w.onPath[id]? ≠ some false ∨ w.settled.contains id = true) :
    id ∈ w.settled.toList := by
  have honPath := h.onPath id
  rw [if_pos (Array.getElem?_eq_some_iff.mp hnode).1, decide_eq_false hid] at honPath
  rcases hskip with hskip | hskip
  · exact absurd honPath hskip
  · exact SparseSet.contains_iff_mem.mp hskip

/-- A path without pending assertions asks for nothing. -/
theorem free_of_pending (h : Walking nodes w path all kept) (hpending : w.pending = 0)
    (truth : Nat → Bool) : allows truth (passedWork nodes path) = true := by
  rw [h.pending, List.countP_eq_zero] at hpending
  apply List.all_eq_true.mpr
  intro op hop
  have hnot := hpending op hop
  cases op with
  | mark side group => rfl
  | assert id => exact absurd rfl hnot

/-- A new node is settled unless assertions are pending. -/
theorem settle (h : Walking nodes w path all kept) (id : Nat) (path' : List Nat) (all' : List Path)
    (hold : ∀ chain, Settling nodes path all chain → Settling nodes path' all' chain)
    (hnew : Settling nodes path' all' (id :: path)) :
    ∀ id' ∈ (w.settle id).toList, ∃ above,
      (∀ truth, allows truth (passedWork nodes above) = true) ∧
        Settling nodes path' all' (id' :: above) := by
  intro id' hid'
  have hcases : id' ∈ w.settled.toList ∨ (w.pending = 0 ∧ id' = id) := by
    unfold Walker.settle at hid'
    split at hid'
    · rename_i hpending
      exact (SparseSet.mem_toList_insert hid').imp_right fun heq ↦ ⟨hpending, heq⟩
    · exact .inl hid'
  rcases hcases with hid' | ⟨hpending, rfl⟩
  · obtain ⟨above, hfree, hsettling⟩ := h.settled id' hid'
    exact ⟨above, hfree, hold _ hsettling⟩
  · exact ⟨path, h.free_of_pending hpending, hnew⟩

/-- At a consuming node a path ends. -/
theorem arrive (h : Walking nodes w path all kept) (hnode : nodes[id]? = some node)
    (hcons : node.isConsuming = true) :
    ∃ kept', Walking nodes
      { w with settled := w.settle id, reached := Walker.arrive w.reached ⟨id, w.work.reverse⟩ }
      path (all ++ [⟨path.reverse, id⟩]) kept' := by
  let p : Path := ⟨path.reverse, id⟩
  have hpwork : p.work nodes = (passedWork nodes path).reverse := passedWork_reverse path
  have hnumbered : Numbered w.assertions (p.work nodes) := fun id' hid' ↦
    h.numbered id' (List.mem_reverse.mp (hpwork ▸ hid'))
  have harrival : p.arrival nodes w.assertions = ⟨id, w.work.reverse⟩ := by
    rw [Path.arrival, hpwork, h.work, List.map_reverse]
  have hsettled := h.settle id path (all ++ [p])
    (fun chain hchain ↦ hchain.mono [p]) (fun id' above hsuffix ↦ by
      rcases List.suffix_cons_iff.mp hsuffix with heq | hsuffix
      · cases heq
        rw [pathsFrom_of_consuming hnode hcons]
        exact .inr (List.subset_append_right _ _)
      · exact .inl hsuffix)
  unfold Walker.arrive
  by_cases hold : w.reached.contains ⟨id, w.work.reverse⟩ = true
  · rw [if_pos hold]
    have hmem := Array.mem_toList_iff.mpr (Array.contains_iff_mem.mp hold)
    rw [h.reached, ← harrival] at hmem
    obtain ⟨q, hq, heq⟩ := List.mem_map.mp hmem
    injection heq with htarget hwork
    have hcovers : q.Covers nodes p := by
      refine ⟨htarget, fun truth htruth ↦ ?_⟩
      rwa [(h.kept_numbered q hq).map_relabel_injective hnumbered hwork]
    exact ⟨kept, { h with pruned := h.pruned.drop (h.pruned.subset hq) hcovers, settled := hsettled }⟩
  · rw [if_neg hold]
    refine ⟨kept ++ [p], { h with
      reached := by rw [Array.toList_push, h.reached, ← harrival, List.map_append]; rfl
      kept_numbered := fun q hq ↦ ?_
      pruned := h.pruned.keep p
      settled := hsettled }⟩
    rcases List.mem_append.mp hq with hq | hq
    · exact h.kept_numbered q hq
    · cases List.mem_singleton.mp hq
      exact hnumbered

/-- The last node on the path does its work last. -/
theorem work_cons (h : Walking nodes w (id :: path) all kept) (hnode : nodes[id]? = some node) :
    w.work =
      ((ZeroWidth.ofNode? node id).map (ZeroWidth.relabel w.assertions)).toList ++
        (passedWork nodes path).map (ZeroWidth.relabel w.assertions) := by
  rw [h.work, passedWork_cons hnode, List.map_append]
  cases ZeroWidth.ofNode? node id <;> rfl

theorem pending_cons (h : Walking nodes w (id :: path) all kept) (hnode : nodes[id]? = some node) :
    w.pending =
      ((ZeroWidth.ofNode? node id).map (ZeroWidth.relabel w.assertions)).toList.countP
          ZeroWidth.isAssert +
        (passedWork nodes path).countP ZeroWidth.isAssert := by
  rw [h.pending, passedWork_cons hnode, List.countP_append]
  rcases ZeroWidth.ofNode? node id with _ | ⟨_ | _⟩ <;> rfl

/-- A new node that consumes nothing is put on the path. -/
theorem enter (h : Walking nodes w path all kept) (hnode : nodes[id]? = some node)
    (hcons : node.isConsuming = false) (hid : id ∉ path) :
    Walking nodes (w.enter node id) (id :: path) all kept := by
  have hlt : id < nodes.size := (Array.getElem?_eq_some_iff.mp hnode).1
  have hpre := Walker.prefix_passing node id w.assertions
  have hop := Walker.numbered_passing node (s := w.assertions) (h.capacity.symm ▸ hlt)
  constructor
  case onPath =>
    exact Walker.marks_set h.onPath true (decide_eq_true List.mem_cons_self) fun _ hne ↦
      ⟨List.mem_of_ne_of_mem hne, List.mem_cons_of_mem id⟩
  case capacity => exact (Walker.capacity_passing node id w.assertions).trans h.capacity
  case asserting =>
    intro id' hid'
    rcases Walker.mem_passing hid' with hid' | ⟨rfl, a, hkind⟩
    · exact h.asserting id' hid'
    · exact ⟨node, a, hnode, hkind⟩
  case nodup => exact List.nodup_cons.mpr ⟨hid, h.nodup⟩
  case passing =>
    intro id' hid'
    rcases List.mem_cons.mp hid' with rfl | hid'
    · exact ⟨node, hnode, hcons⟩
    · exact h.passing id' hid'
  case work =>
    dsimp only [Walker.enter]
    rw [passedWork_cons hnode, List.map_append, h.numbered.map_relabel hpre, h.work]
    cases ZeroWidth.ofNode? node id <;> rfl
  case pending =>
    dsimp only [Walker.enter]
    rw [passedWork_cons hnode, List.countP_append, h.pending]
    rcases ZeroWidth.ofNode? node id with _ | ⟨_ | _⟩ <;> rfl
  case numbered =>
    rw [passedWork_cons hnode]
    exact hop.append (h.numbered.mono hpre)
  case reached =>
    dsimp only [Walker.enter]
    rw [h.reached]
    apply List.map_congr_left
    intro p hp
    rw [Path.arrival, Path.arrival, (h.kept_numbered p hp).map_relabel hpre]
  case kept_numbered =>
    intro p hp
    exact (h.kept_numbered p hp).mono hpre
  case pruned => exact h.pruned
  case settled =>
    exact h.settle _ _ _ (fun chain hchain ↦ hchain.push id) fun id' above hsuffix ↦ .inl hsuffix

/-- A node is taken off the path when all paths on from it are walked. -/
theorem leave (h : Walking nodes w (id :: path) all kept) (hnode : nodes[id]? = some node)
    (hall : pathsFrom nodes path id ⊆ all) :
    Walking nodes (w.leave id (ZeroWidth.ofNode? node id).isSome) path all kept := by
  have hid : id ∉ path := (List.nodup_cons.mp h.nodup).1
  have hleave := Walker.leave_of_work (h.work_cons hnode) (h.pending_cons hnode) id
  rw [Option.isSome_map] at hleave
  rw [hleave]
  refine { h with
    onPath := Walker.marks_set h.onPath false (decide_eq_false hid) fun _ hne ↦
      ⟨List.mem_cons_of_mem id, List.mem_of_ne_of_mem hne⟩
    nodup := (List.nodup_cons.mp h.nodup).2
    passing := fun id' hid' ↦ h.passing id' (List.mem_cons_of_mem _ hid')
    work := rfl
    pending := rfl
    numbered := fun id' hid' ↦ h.numbered id' ?_
    settled := fun id' hid' ↦ ?_ }
  · rw [passedWork_cons hnode]
    exact List.mem_append_right _ hid'
  · obtain ⟨above, hfree, hsettling⟩ := h.settled id' hid'
    exact ⟨above, hfree, hsettling.pop hall⟩

end Walking

/-- Doing `tasks` walks the paths `ps`, and numbers no assertion anew. -/
def Walks (nodes : Array (Node α)) (path : List Nat) (tasks : List WalkTask) (ps : List Path) : Prop :=
  ∀ ⦃w all kept⦄, Walking nodes w path all kept → ∀ rest, ∃ w' kept',
    Walker.run nodes (tasks ++ rest) w = Walker.run nodes rest w' ∧
      Walking nodes w' path (all ++ ps) kept' ∧ w.assertions.toList <+: w'.assertions.toList

namespace Walks

variable {path : List Nat} {tasks tasks' : List WalkTask} {ps ps' : List Path} {id : Nat}

theorem nil : Walks nodes path [] [] := fun w all kept h rest ↦
  ⟨w, kept, rfl, by rwa [List.append_nil], List.prefix_rfl⟩

theorem append (h : Walks nodes path tasks ps) (h' : Walks nodes path tasks' ps') :
    Walks nodes path (tasks ++ tasks') (ps ++ ps') := by
  intro w all kept hw rest
  obtain ⟨w', kept', hrun, hw', hpre⟩ := h hw (tasks' ++ rest)
  obtain ⟨w'', kept'', hrun', hw'', hpre'⟩ := h' hw' rest
  refine ⟨w'', kept'', ?_, ?_, hpre.trans hpre'⟩
  · rw [List.append_assoc, hrun, hrun']
  · rwa [← List.append_assoc]

theorem visits {ids : List Nat}
    (h : ∀ id ∈ ids, Walks nodes path [.visit id] (pathsFrom nodes path id)) :
    Walks nodes path (ids.map .visit) (ids.flatMap (pathsFrom nodes path)) := by
  induction ids with
  | nil => exact nil
  | cons id ids ih =>
    exact (h id List.mem_cons_self).append (ih fun id' hid' ↦ h id' (List.mem_cons_of_mem _ hid'))

/-- A visit that is skipped walks the paths that earlier ones cover. -/
theorem of_skip {w : Walker} {all kept : List Path} (h : Walking nodes w path all kept)
    (hskip : w.onPath[id]? ≠ some false ∨ w.settled.contains id = true)
    (hps : ∀ p ∈ ps, ∃ q ∈ all, q.Covers nodes p) (rest : List WalkTask) :
    ∃ w' kept', Walker.run nodes ([.visit id] ++ rest) w = Walker.run nodes rest w' ∧
      Walking nodes w' path (all ++ ps) kept' ∧ w.assertions.toList <+: w'.assertions.toList := by
  refine ⟨w, kept, ?_, h.skip hps, List.prefix_rfl⟩
  rw [List.singleton_append, Walker.run_visit, Walker.visit_skip hskip, List.nil_append]

/-- A visit to a node walks all paths on from it. -/
theorem visit (nodes : Array (Node α)) (path : List Nat) (id : Nat) :
    Walks nodes path [.visit id] (pathsFrom nodes path id) := by
  fun_induction pathsFrom nodes path id with
  | case1 path id hnode =>
    intro w all kept hw rest
    refine of_skip hw (.inl ?_) (fun _ h ↦ absurd h List.not_mem_nil) rest
    rw [hw.onPath, if_neg (Nat.not_lt.mpr (Array.getElem?_eq_none_iff.mp hnode))]
    exact (Option.some_ne_none _).symm
  | case2 path id node hnode hcons =>
    intro w all kept hw rest
    by_cases hskip : w.onPath[id]? ≠ some false ∨ w.settled.contains id = true
    · have hid := hw.mem_settled_of_skip hnode (notMem_of_consuming hw.passing hnode hcons) hskip
      have hcovered := hw.covered_of_settled hid
      rw [pathsFrom_of_consuming hnode hcons] at hcovered
      exact of_skip hw hskip hcovered rest
    · obtain ⟨kept', hw'⟩ := hw.arrive hnode hcons
      refine ⟨_, kept', ?_, hw', List.prefix_rfl⟩
      rw [List.singleton_append, Walker.run_visit, Walker.visit_consuming hskip hnode hcons,
        List.nil_append]
  | case3 path id node hnode hcons hmem =>
    intro w all kept hw rest
    refine of_skip hw (.inl ?_) (fun _ h ↦ absurd h List.not_mem_nil) rest
    rw [hw.onPath, if_pos (Array.getElem?_eq_some_iff.mp hnode).1]
    simpa using hmem
  | case4 path id node hnode hcons hnew ih =>
    intro w all kept hw rest
    have hcons' : node.isConsuming = false := by simpa using hcons
    have hpaths := pathsFrom_of_notMem hnode hcons' hnew
    by_cases hskip : w.onPath[id]? ≠ some false ∨ w.settled.contains id = true
    · have hcovered := hw.covered_of_settled (hw.mem_settled_of_skip hnode hnew hskip)
      rw [hpaths] at hcovered
      exact of_skip hw hskip hcovered rest
    · obtain ⟨w', kept', hrun, hw', hpre⟩ :=
        visits (fun next _ ↦ ih next) (hw.enter hnode hcons' hnew)
          (.leave id (ZeroWidth.ofNode? node id).isSome :: rest)
      refine ⟨_, kept', ?_, hw'.leave hnode (hpaths ▸ List.subset_append_right _ _), ?_⟩
      · rw [List.singleton_append, Walker.run_visit, Walker.visit_passing hskip hnode hcons',
          List.append_assoc, List.singleton_append, hrun, Walker.run_leave]
      · exact (Walker.prefix_passing node id w.assertions).trans hpre

end Walks

/-! ## Exploring a node -/

/-- A walker between two walks. -/
structure Walker.Idle (nodes : Array (Node α)) (w : Walker) : Prop where
  onPath : ∀ id : Nat, w.onPath[id]? = if id < nodes.size then some false else none
  capacity : w.assertions.capacity = nodes.size
  asserting : ∀ id ∈ w.assertions.toList, ∃ node a, nodes[id]? = some node ∧ node.kind = .assert a

theorem Walker.idle_ofCount (nodes : Array (Node α)) : (ofCount nodes.size).Idle nodes where
  onPath id := Array.getElem?_replicate
  capacity := SparseSet.capacity_ofCapacity _
  asserting id hid := by simp [ofCount] at hid

/-- Between two walks a walker may set out from anywhere. -/
theorem Walker.Idle.walking {onPath : Array Bool} {settled assertions : SparseSet}
    {work : List ZeroWidth} {pending : Nat} {reached : Array Arrival}
    (h : Walker.Idle nodes ⟨onPath, settled, assertions, work, pending, reached⟩) :
    Walking nodes ⟨onPath, settled.clear, assertions, [], 0, #[]⟩ [] [] [] where
  onPath id := by simpa using h.onPath id
  capacity := h.capacity
  asserting := h.asserting
  nodup := List.nodup_nil
  passing := nofun
  work := rfl
  pending := rfl
  numbered := nofun
  reached := rfl
  kept_numbered := nofun
  pruned := .nil
  settled := nofun

/-- A walk from the successors of a node takes all paths from it, and comes back with nothing on its
path. -/
theorem Walker.Idle.exists_walking {w : Walker} (h : w.Idle nodes) (source : Nat) :
    ∃ kept, Walking nodes (w.explore nodes source) []
        ((nodes[source]?.elim [] Node.out).flatMap (pathsFrom nodes [])) kept ∧
      w.assertions.toList <+: (w.explore nodes source).assertions.toList := by
  obtain ⟨onPath, settled, assertions, work, pending, reached⟩ := w
  obtain ⟨w', kept, hrun, hw', hpre⟩ :=
    Walks.visits (fun id _ ↦ Walks.visit nodes [] id) h.walking []
  rw [List.append_nil, Walker.run_nil] at hrun
  rw [Walker.explore, hrun]
  exact ⟨kept, hw', hpre⟩

theorem Walking.idle {w : Walker} {all kept : List Path} (h : Walking nodes w [] all kept) :
    w.Idle nodes :=
  ⟨fun id ↦ by simpa using h.onPath id, h.capacity, h.asserting⟩

/-- The walk from the successors of a node reaches the ends of all paths from it, but for paths that
earlier ones cover. -/
theorem Walker.Idle.explore {w : Walker} (h : w.Idle nodes) (source : Nat) :
    ∃ kept, Pruned nodes ((nodes[source]?.elim [] Node.out).flatMap (pathsFrom nodes [])) kept ∧
      (w.explore nodes source).reached.toList =
        kept.map (Path.arrival nodes (w.explore nodes source).assertions) ∧
      (∀ p ∈ kept, Numbered (w.explore nodes source).assertions (p.work nodes)) ∧
      (w.explore nodes source).Idle nodes ∧
      w.assertions.toList <+: (w.explore nodes source).assertions.toList := by
  obtain ⟨kept, hwalking, hpre⟩ := h.exists_walking source
  exact ⟨kept, hwalking.pruned, hwalking.reached, hwalking.kept_numbered, hwalking.idle, hpre⟩

end Lockstep
