import Lockstep.Proofs.Closure.Irredundant

/-!
# Reuse of a walker

One walker makes the walks from all states of a graph, one after the other. Each of them ends, whatever
cycles the graph has, and leaves the walker clean: nothing is on its path, nothing is to be done and
nothing is pending. Only the numbers of the assertions stay. They do not matter to later walks: what a
walk does, told with the nodes of the assertions in place of their numbers, is the same for all walkers.
-/

namespace Lockstep

universe u

variable {α : Type u} {nodes : Array (Node α)}

namespace Walker

/-! ## Rounds of the loop -/

/-- One round of the loop: the first task is taken and done. -/
def step (nodes : Array (Node α)) : List WalkTask × Walker → Option (List WalkTask × Walker)
  | ([], _) => none
  | (.leave id passed :: rest, w) => some (rest, w.leave id passed)
  | (.visit id :: rest, w) => some ((w.visit nodes id).1 ++ rest, (w.visit nodes id).2)

/-- Where the loop of a walk begins: with the successors of its source. -/
def setOut (nodes : Array (Node α)) (w : Walker) (source : Nat) : List WalkTask × Walker :=
  ((nodes[source]?.elim [] Node.out).map .visit,
    { w with settled := w.settled.clear, work := [], pending := 0, reached := #[] })

/-- The loop gets from one state to the other in `count` rounds. -/
inductive Rounds (nodes : Array (Node α)) :
    (count : Nat) → (c c' : List WalkTask × Walker) → Prop where
  | refl (c : List WalkTask × Walker) : Rounds nodes 0 c c
  | round {count : Nat} {c next c' : List WalkTask × Walker} (hstep : step nodes c = some next)
      (hrest : Rounds nodes count next c') : Rounds nodes (count + 1) c c'

variable {w w' : Walker} {c c' : List WalkTask × Walker} {count count' : Nat}

theorem run_setOut (w : Walker) (source : Nat) :
    run nodes (w.setOut nodes source).1 (w.setOut nodes source).2 = w.explore nodes source := rfl

/-- The loop ends, and it has taken as many rounds at most as there are tasks to come. -/
theorem exists_rounds (nodes : Array (Node α)) (tasks : List WalkTask) (w : Walker) :
    ∃ count ≤ WalkTask.totalCost nodes w.room tasks,
      Rounds nodes count (tasks, w) ([], run nodes tasks w) := by
  fun_induction run nodes tasks w with
  | case1 w => exact ⟨0, Nat.zero_le _, .refl _⟩
  | case2 w id passed rest ih =>
    obtain ⟨count, hle, hrounds⟩ := ih
    exact ⟨count + 1, Nat.lt_of_le_of_lt hle (totalCost_leave_lt nodes w id passed rest),
      .round rfl hrounds⟩
  | case3 w id rest next ih =>
    obtain ⟨count, hle, hrounds⟩ := ih
    exact ⟨count + 1, Nat.lt_of_le_of_lt hle (totalCost_visit_lt nodes w id rest), .round rfl hrounds⟩

/-- Where the loop ends, no run of it goes on. -/
theorem Rounds.le (h : Rounds nodes count c ([], w)) (h' : Rounds nodes count' c c') :
    count' ≤ count := by
  induction h' generalizing count with
  | refl => exact Nat.zero_le _
  | round hstep hrest ih =>
    cases h with
    | refl => cases hstep
    | round hstep' hrest' =>
      cases hstep.symm.trans hstep'
      exact Nat.succ_le_succ (ih hrest')

/-- Every round keeps count of the pending assertions. -/
theorem Rounds.thrifty (h : Rounds nodes count c c') (hc : Thrifty nodes c.2) :
    Thrifty nodes c'.2 := by
  induction h with
  | refl => exact hc
  | @round count c next c' hstep hrest ih =>
    apply ih
    obtain ⟨_ | ⟨_ | _, rest⟩, w⟩ := c
    · cases hstep
    · cases hstep
      exact hc.visit _
    · cases hstep
      exact hc.leave _ _

end Walker

/-! ## Numbers of assertions -/

/-- An arrival with the numbers of the assertions in place of their nodes. -/
def Arrival.relabel (assertions : SparseSet) (a : Arrival) : Arrival :=
  ⟨a.target, a.work.map (ZeroWidth.relabel assertions)⟩

theorem Arrival.relabel_injective {s : SparseSet} {a a' : Arrival} (h : Numbered s a.work)
    (h' : Numbered s a'.work) (heq : a.relabel s = a'.relabel s) : a = a' := by
  obtain ⟨target, work⟩ := a
  obtain ⟨target', work'⟩ := a'
  injection heq with htarget hwork
  exact Arrival.mk.injEq .. ▸ ⟨htarget, h.map_relabel_injective h' hwork⟩

namespace Walker

/-- The walker does `ops` on its path and has made `arrivals`, told with the nodes of the assertions in
place of their numbers. -/
structure Tells (w : Walker) (ops : List ZeroWidth) (arrivals : List Arrival) : Prop where
  work : w.work = ops.map (ZeroWidth.relabel w.assertions)
  numbered : Numbered w.assertions ops
  reached : w.reached.toList = arrivals.map (Arrival.relabel w.assertions)
  reached_numbered : ∀ a ∈ arrivals, Numbered w.assertions a.work

/-- Records an arrival, once. -/
def tellArrival (arrivals : List Arrival) (a : Arrival) : List Arrival :=
  if a ∈ arrivals then arrivals else arrivals ++ [a]

namespace Tells

variable {w : Walker} {ops : List ZeroWidth} {arrivals : List Arrival}

theorem arrive (h : w.Tells ops arrivals) (id : Nat) (settled : SparseSet) :
    Tells { w with settled := settled, reached := Walker.arrive w.reached ⟨id, w.work.reverse⟩ } ops
      (tellArrival arrivals ⟨id, ops.reverse⟩) := by
  have hnumbered : Numbered w.assertions ops.reverse := fun id hid ↦
    h.numbered id (List.mem_reverse.mp hid)
  have harrival : Arrival.relabel w.assertions ⟨id, ops.reverse⟩ = ⟨id, w.work.reverse⟩ := by
    rw [Arrival.relabel, h.work, List.map_reverse]
  have hiff : w.reached.contains ⟨id, w.work.reverse⟩ = true ↔ ⟨id, ops.reverse⟩ ∈ arrivals := by
    rw [Array.contains_iff_mem, ← Array.mem_toList_iff, h.reached, ← harrival, List.mem_map]
    constructor
    · rintro ⟨a, ha, heq⟩
      exact Arrival.relabel_injective (h.reached_numbered a ha) hnumbered heq ▸ ha
    · exact fun hmem ↦ ⟨_, hmem, rfl⟩
  unfold Walker.arrive tellArrival
  by_cases hmem : ⟨id, ops.reverse⟩ ∈ arrivals
  · rw [if_pos (hiff.mpr hmem), if_pos hmem]
    exact { h with }
  · rw [if_neg (mt hiff.mp hmem), if_neg hmem]
    refine { h with
      reached := by rw [Array.toList_push, h.reached, ← harrival, List.map_append]; rfl
      reached_numbered := fun a ha ↦ ?_ }
    rcases List.mem_append.mp ha with ha | ha
    · exact h.reached_numbered a ha
    · cases List.mem_singleton.mp ha
      exact hnumbered

theorem enter (h : w.Tells ops arrivals) (node : Node α) {id : Nat} (hid : id < w.assertions.capacity) :
    (w.enter node id).Tells ((ZeroWidth.ofNode? node id).toList ++ ops) arrivals := by
  have hpre := prefix_passing node id w.assertions
  constructor
  case work =>
    dsimp only [Walker.enter]
    rw [List.map_append, h.numbered.map_relabel hpre, h.work]
    cases ZeroWidth.ofNode? node id <;> rfl
  case numbered => exact (numbered_passing node hid).append (h.numbered.mono hpre)
  case reached =>
    dsimp only [Walker.enter]
    rw [h.reached]
    refine List.map_congr_left fun a ha ↦ ?_
    rw [Arrival.relabel, Arrival.relabel, (h.reached_numbered a ha).map_relabel hpre]
  case reached_numbered => exact fun a ha ↦ (h.reached_numbered a ha).mono hpre

theorem leave (h : w.Tells ops arrivals) (id : Nat) (passed : Bool) :
    (w.leave id passed).Tells (if passed then ops.tail else ops) arrivals := by
  obtain ⟨onPath, settled, assertions, work, pending, reached⟩ := w
  obtain ⟨hwork, hnumbered, hreached, hall⟩ := h
  dsimp only at hwork hnumbered hreached hall
  subst hwork
  cases passed with
  | false => exact ⟨rfl, hnumbered, hreached, hall⟩
  | true =>
    refine ⟨?_, fun id hid ↦ hnumbered id (List.mem_of_mem_tail hid), hreached, hall⟩
    obtain _ | ⟨_ | _, ops⟩ := ops <;> rfl

end Tells

/-! ## Two walkers -/

/-- Two walkers are the same but for the numbers of the assertions, and what they have done is the
same. -/
structure Alike (nodes : Array (Node α)) (w' w : Walker) : Prop where
  size : w.onPath.size = nodes.size
  onPath : w'.onPath = w.onPath
  capacity' : w'.settled.capacity = nodes.size ∧ w'.assertions.capacity = nodes.size
  capacity : w.settled.capacity = nodes.size ∧ w.assertions.capacity = nodes.size
  settled : ∀ id, id ∈ w'.settled.toList ↔ id ∈ w.settled.toList
  pending : w'.pending = w.pending
  told : ∃ ops arrivals, w'.Tells ops arrivals ∧ w.Tells ops arrivals

namespace Alike

variable {w' w : Walker} {id : Nat}

theorem skips_iff (h : Alike nodes w' w) (id : Nat) :
    (w'.onPath[id]? ≠ some false ∨ w'.settled.contains id = true) ↔
      (w.onPath[id]? ≠ some false ∨ w.settled.contains id = true) := by
  rw [h.onPath, SparseSet.contains_iff_mem, SparseSet.contains_iff_mem, h.settled]

theorem settle (h : Alike nodes w' w) (hid : id < nodes.size) (id' : Nat) :
    id' ∈ (w'.settle id).toList ↔ id' ∈ (w.settle id).toList := by
  rw [mem_settle_iff (h.capacity'.1.symm ▸ hid), mem_settle_iff (h.capacity.1.symm ▸ hid), h.settled,
    h.pending]

theorem visit (h : Alike nodes w' w) (id : Nat) :
    (w'.visit nodes id).1 = (w.visit nodes id).1 ∧
      Alike nodes (w'.visit nodes id).2 (w.visit nodes id).2 := by
  by_cases hskip : w.onPath[id]? ≠ some false ∨ w.settled.contains id = true
  · rw [visit_skip hskip, visit_skip ((h.skips_iff id).mpr hskip)]
    exact ⟨rfl, h⟩
  · have hskip' := mt (h.skips_iff id).mp hskip
    have honPath : w.onPath[id]? = some false := by simpa using (not_or.mp hskip).1
    have hid : id < nodes.size := h.size ▸ (Array.getElem?_eq_some_iff.mp honPath).1
    obtain ⟨ops, arrivals, htells', htells⟩ := h.told
    have hnode := Array.getElem?_eq_getElem hid
    cases hcons : nodes[id].isConsuming with
    | true =>
      rw [visit_consuming hskip hnode hcons, visit_consuming hskip' hnode hcons]
      exact ⟨rfl, { h with
        capacity' := ⟨(w'.capacity_settle id).trans h.capacity'.1, h.capacity'.2⟩
        capacity := ⟨(w.capacity_settle id).trans h.capacity.1, h.capacity.2⟩
        settled := h.settle hid
        told := ⟨ops, _, htells'.arrive id _, htells.arrive id _⟩ }⟩
    | false =>
      rw [visit_passing hskip hnode hcons, visit_passing hskip' hnode hcons]
      refine ⟨rfl, ?_⟩
      constructor
      case size => exact (Array.size_setIfInBounds ..).trans h.size
      case onPath => exact congrArg (·.setIfInBounds id true) h.onPath
      case capacity' =>
        exact ⟨(w'.capacity_settle id).trans h.capacity'.1,
          (capacity_passing nodes[id] id _).trans h.capacity'.2⟩
      case capacity =>
        exact ⟨(w.capacity_settle id).trans h.capacity.1,
          (capacity_passing nodes[id] id _).trans h.capacity.2⟩
      case settled => exact h.settle hid
      case pending =>
        dsimp only [Walker.enter]
        rw [h.pending]
        cases ZeroWidth.ofNode? nodes[id] id with
        | none => rfl
        | some op => cases op <;> rfl
      case told =>
        exact ⟨_, arrivals, htells'.enter nodes[id] (h.capacity'.2.symm ▸ hid),
          htells.enter nodes[id] (h.capacity.2.symm ▸ hid)⟩

theorem leave (h : Alike nodes w' w) (id : Nat) (passed : Bool) :
    Alike nodes (w'.leave id passed) (w.leave id passed) := by
  obtain ⟨ops, arrivals, htells', htells⟩ := h.told
  constructor
  case size => exact (Array.size_setIfInBounds ..).trans h.size
  case onPath => exact congrArg (·.setIfInBounds id false) h.onPath
  case capacity' => exact h.capacity'
  case capacity => exact h.capacity
  case settled => exact h.settled
  case pending =>
    have hpending := h.pending
    have hwork' := htells'.work
    have hwork := htells.work
    obtain ⟨onPath', settled', assertions', work', pending', reached'⟩ := w'
    obtain ⟨onPath, settled, assertions, work, pending, reached⟩ := w
    dsimp only at hpending hwork' hwork
    subst hpending hwork' hwork
    cases passed with
    | false => rfl
    | true => obtain _ | ⟨_ | _, ops⟩ := ops <;> rfl
  case told => exact ⟨_, arrivals, htells'.leave id passed, htells.leave id passed⟩

theorem run (h : Alike nodes w' w) (tasks : List WalkTask) :
    Alike nodes (Walker.run nodes tasks w') (Walker.run nodes tasks w) := by
  fun_induction Walker.run nodes tasks w generalizing w' with
  | case1 w => rwa [run_nil]
  | case2 w id passed rest ih =>
    rw [run_leave]
    exact ih (h.leave id passed)
  | case3 w id rest next =>
    rename_i ih
    obtain ⟨htasks, hnext⟩ := h.visit id
    rw [run_visit, htasks]
    exact ih hnext

end Alike

/-! ## One walk after another -/

/-- A walker between two walks that may settle every node. -/
structure Ready (nodes : Array (Node α)) (w : Walker) : Prop extends w.Idle nodes where
  settled_capacity : w.settled.capacity = nodes.size

namespace Ready

variable {w w' : Walker}

theorem ofCount (nodes : Array (Node α)) : (Walker.ofCount nodes.size).Ready nodes :=
  { idle_ofCount nodes with settled_capacity := SparseSet.capacity_ofCapacity _ }

theorem explore (h : w.Ready nodes) (source : Nat) : (w.explore nodes source).Ready nodes := by
  obtain ⟨kept, hwalking, -⟩ := h.exists_walking source
  exact { hwalking.idle with settled_capacity := (thrifty_explore h.settled_capacity source).capacity }

theorem foldl (h : w.Ready nodes) (sources : List Nat) :
    (sources.foldl (Walker.explore nodes) w).Ready nodes := by
  induction sources generalizing w with
  | nil => exact h
  | cons source sources ih => exact ih (h.explore source)

theorem onPath_eq (h : w.Ready nodes) : w.onPath = Array.replicate nodes.size false := by
  refine Array.ext_getElem? fun id ↦ ?_
  rw [h.onPath, Array.getElem?_replicate]

/-- Two walkers set out alike. -/
theorem alike (h' : w'.Ready nodes) (h : w.Ready nodes) (source : Nat) :
    Alike nodes (w'.setOut nodes source).2 (w.setOut nodes source).2 where
  size := by
    show w.onPath.size = nodes.size
    rw [h.onPath_eq, Array.size_replicate]
  onPath := h'.onPath_eq.trans h.onPath_eq.symm
  capacity' := ⟨h'.settled_capacity, h'.capacity⟩
  capacity := ⟨h.settled_capacity, h.capacity⟩
  settled _ := Iff.rfl
  pending := rfl
  told := ⟨[], [], ⟨rfl, nofun, rfl, nofun⟩, ⟨rfl, nofun, rfl, nofun⟩⟩

end Ready

/-- A walker that has made any walks makes one more, on a graph with any cycles. Its loop ends, and at
every round `pending` is the number of assertions in hand, so none is ever taken from zero. It comes
back with nothing on its path, in hand or pending. It has reached what a new walker reaches from the same
source, with its own numbers for the assertions, and the assertion nodes keep the numbers they had. -/
theorem explore_reused (nodes : Array (Node α)) (sources : List Nat) (source : Nat) :
    let w := sources.foldl (Walker.explore nodes) (.ofCount nodes.size)
    let after := w.explore nodes source
    let fresh := (Walker.ofCount nodes.size).explore nodes source
    (∃ count ≤ WalkTask.totalCost nodes nodes.size (w.setOut nodes source).1,
        Rounds nodes count (w.setOut nodes source) ([], after) ∧
          ∀ count' tasks w', Rounds nodes count' (w.setOut nodes source) (tasks, w') →
            count' ≤ count ∧ w'.pending = w'.work.countP ZeroWidth.isAssert) ∧
      (after.onPath = Array.replicate nodes.size false ∧ after.work = [] ∧ after.pending = 0) ∧
      (∃ arrivals : List Arrival,
        after.reached.toList = arrivals.map (Arrival.relabel after.assertions) ∧
          fresh.reached.toList = arrivals.map (Arrival.relabel fresh.assertions) ∧
          ∀ a ∈ arrivals, Numbered after.assertions a.work ∧ Numbered fresh.assertions a.work) ∧
      (∀ id ∈ after.assertions.toList, ∃ node a, nodes[id]? = some node ∧ node.kind = .assert a) ∧
      ∀ id index, w.assertions.position? id = some index →
        after.assertions.position? id = some index := by
  intro w after fresh
  have hready : w.Ready nodes := (Ready.ofCount nodes).foldl sources
  have hafter : after.Ready nodes := hready.explore source
  obtain ⟨kept, hwalking, hpre⟩ := hready.exists_walking source
  refine ⟨?_, ⟨hafter.onPath_eq, hwalking.work, hwalking.pending⟩, ?_, hafter.asserting, ?_⟩
  · have hroom : (w.setOut nodes source).2.room = nodes.size := by
      show w.onPath.count false = nodes.size
      rw [hready.onPath_eq, Array.count_replicate_self]
    obtain ⟨count, hle, hrounds⟩ :=
      exists_rounds nodes (w.setOut nodes source).1 (w.setOut nodes source).2
    rw [run_setOut] at hrounds
    refine ⟨count, hroom ▸ hle, hrounds, fun count' tasks w' hrounds' ↦ ⟨hrounds.le hrounds', ?_⟩⟩
    exact (hrounds'.thrifty ⟨hready.settled_capacity, rfl, nofun, .nil⟩).pending
  · obtain ⟨ops, arrivals, htells, htells'⟩ :=
      ((hready.alike (Ready.ofCount nodes) source).run (w.setOut nodes source).1).told
    exact ⟨arrivals, htells.reached, htells'.reached, fun a ha ↦
      ⟨htells.reached_numbered a ha, htells'.reached_numbered a ha⟩⟩
  · intro id index hindex
    have hmem : id ∈ w.assertions.toList :=
      SparseSet.contains_iff_mem.mp (Option.isSome_iff_exists.mpr ⟨index, hindex⟩)
    exact (SparseSet.position?_extends hpre hmem).trans hindex

end Walker

end Lockstep
