import Mathlib.Data.List.Chain
import Lockstep.Proofs.Closure.Walk
import Lockstep.Proofs.Graph.Block

/-!
# Joints

A joint only leads on: it consumes nothing, tests nothing and marks nothing. When the joints of a graph
are left out and their successors take their place, the closure walk does the same as before, step by
step. A walk puts joints on its path and settles them, but what it cuts at a joint it would also cut at
each node behind it: these are settled as well, or on the path.
-/

namespace Lockstep

universe u

variable {α : Type u}

/-! ## Sets under names -/

/-- The members of `s` are the names of those of `s'`, in the same order. -/
def SparseSet.Renames (name? : Nat → Option Nat) (s' s : SparseSet) : Prop :=
  s'.toList.map name? = s.toList.map some

/-- No name is that of two nodes. -/
def Naming (name? : Nat → Option Nat) : Prop :=
  ∀ id id' name, name? id = some name → name? id' = some name → id = id'

section

variable {name? : Nat → Option Nat} {s' s : SparseSet} {id name : Nat}

theorem Naming.mem_filterMap (hnaming : Naming name?) (hname : name? id = some name)
    (ids : List Nat) : name ∈ ids.filterMap name? ↔ id ∈ ids := by
  rw [List.mem_filterMap]
  constructor
  · rintro ⟨id', hid', hname'⟩
    exact hnaming _ _ _ hname hname' ▸ hid'
  · exact fun hid ↦ ⟨id, hid, hname⟩

namespace SparseSet.Renames

theorem getElem?_iff (h : s'.Renames name? s) (hnaming : Naming name?) (hname : name? id = some name)
    (i : Nat) : s.members[i]? = some name ↔ s'.members[i]? = some id := by
  have hi : s'.toList[i]?.map name? = s.toList[i]?.map some := by
    rw [← List.getElem?_map, ← List.getElem?_map, h]
  rw [toList, toList, Array.getElem?_toList, Array.getElem?_toList] at hi
  constructor
  · intro hmember
    rw [hmember, Option.map_some] at hi
    obtain ⟨id', hid', hname'⟩ := Option.map_eq_some_iff.mp hi
    rw [hid', hnaming _ _ _ hname hname']
  · intro hmember
    rw [hmember, Option.map_some, hname] at hi
    obtain ⟨name', hname', heq⟩ := Option.map_eq_some_iff.mp hi.symm
    rw [hname', Option.some.inj heq]

/-- A member and its name stand at the same position. -/
theorem position?_eq (h : s'.Renames name? s) (hnaming : Naming name?) (hname : name? id = some name) :
    s.position? name = s'.position? id := by
  refine Option.ext fun i ↦ ?_
  rw [position?_eq_some_iff, position?_eq_some_iff, h.getElem?_iff hnaming hname]

theorem mem_iff (h : s'.Renames name? s) (hnaming : Naming name?) (hname : name? id = some name) :
    id ∈ s'.toList ↔ name ∈ s.toList := by
  rw [← contains_iff_mem, ← contains_iff_mem, contains, contains, h.position?_eq hnaming hname]

theorem insert (h : s'.Renames name? s) (hnaming : Naming name?) (hname : name? id = some name)
    (hid : id < s'.capacity) (hlt : name < s.capacity) :
    (s'.insert id).2.Renames name? (s.insert name).2 := by
  by_cases hmem : id ∈ s'.toList
  · rwa [insert_of_mem hmem, insert_of_mem ((h.mem_iff hnaming hname).mp hmem)]
  · have hmem' := mt (h.mem_iff hnaming hname).mpr hmem
    rw [Renames, toList_insert hid hmem, toList_insert hlt hmem', List.map_append, List.map_append, h,
      List.map_singleton, List.map_singleton, hname]

end SparseSet.Renames

end

/-! ## Graphs without their joints -/

/-- `nodes` are the nodes of `nodes'` but for joints. A node that stays has a name in `nodes`, and
`image` are the names of what stands for a node as a successor: its own name, or those of the nodes that
a joint leads to. -/
structure Jointed (nodes' nodes : Array (Node α)) (name? : Nat → Option Nat) (image : Nat → List Nat) :
    Prop where
  lt_size : ∀ {id next : Nat} {node : Node α}, nodes'[id]? = some node → next ∈ node.out →
    next < nodes'.size
  naming : Naming name?
  image_name : ∀ {id name : Nat}, name? id = some name → image id = [name]
  stays : ∀ {id name : Nat} {node : Node α}, nodes'[id]? = some node → name? id = some name →
    nodes[name]? = some (node.expand image)
  isConsuming_joint : ∀ {id : Nat} {node : Node α}, nodes'[id]? = some node → name? id = none →
    node.isConsuming = false
  ofNode?_joint : ∀ {id : Nat} {node : Node α}, nodes'[id]? = some node → name? id = none →
    ZeroWidth.ofNode? node id = none
  image_joint : ∀ {id : Nat} {node : Node α}, nodes'[id]? = some node → name? id = none →
    image id = node.out.flatMap image
  out_joint : ∀ {id next : Nat} {node : Node α}, nodes'[id]? = some node → name? id = none →
    next ∈ node.out → ∃ name, name? next = some name
  /-- A joint leads to one node only, or one alternation only leads to it. -/
  single : ∀ {id : Nat} {node : Node α}, nodes'[id]? = some node → name? id = none →
    (∃ next, node.out = [next]) ∨
      ∃ fork, ∀ {id' : Nat} {node' : Node α}, nodes'[id']? = some node' → id ∈ node'.out →
        id' = fork ∧ node'.kind = .alternate

namespace Jointed

variable {nodes' nodes : Array (Node α)} {name? : Nat → Option Nat} {image : Nat → List Nat}
  {id name : Nat} {node : Node α}

theorem name_lt (h : Jointed nodes' nodes name? image) (hname : name? id = some name)
    (hid : id < nodes'.size) : name < nodes.size :=
  (Array.getElem?_eq_some_iff.mp (h.stays (Array.getElem?_eq_getElem hid) hname)).1

end Jointed

/-! ## The steps of two walkers -/

/-- The arrivals of two walkers are the same but for the names of the targets. -/
def Arrival.Renamed (name? : Nat → Option Nat) (reached' reached : Array Arrival) : Prop :=
  reached'.toList.map (fun a ↦ (name? a.target, a.work)) =
    reached.toList.map fun a ↦ (some a.target, a.work)

namespace Walker

variable {nodes' nodes : Array (Node α)} {name? : Nat → Option Nat} {image : Nat → List Nat}
  {id name : Nat} {node : Node α} {w : Walker}

/-- A visit to the node does nothing. -/
def Skips (w : Walker) (id : Nat) : Prop :=
  w.onPath[id]? ≠ some false ∨ w.settled.contains id = true

theorem skips_of_mem {size : Nat} {path : List Nat}
    (hmarks : ∀ id : Nat, w.onPath[id]? = if id < size then some (decide (id ∈ path)) else none)
    (h : id ∈ path ∨ id ∈ w.settled.toList) : w.Skips id := by
  refine h.imp (fun hid ↦ ?_) SparseSet.contains_iff_mem.mpr
  rw [hmarks]
  split <;> simp [hid]

theorem mem_of_skips {size : Nat} {path : List Nat}
    (hmarks : ∀ id : Nat, w.onPath[id]? = if id < size then some (decide (id ∈ path)) else none)
    (hid : id < size) (h : w.Skips id) : id ∈ path ∨ id ∈ w.settled.toList := by
  refine h.imp (fun hmark ↦ ?_) SparseSet.contains_iff_mem.mp
  rw [hmarks, if_pos hid] at hmark
  simpa using hmark

/-- Visits that do nothing may be left out. -/
theorem run_skips {ids : List Nat} (h : ∀ id ∈ ids, w.Skips id) (rest : List WalkTask) :
    run nodes (ids.map .visit ++ rest) w = run nodes rest w := by
  induction ids with
  | nil => rfl
  | cons id ids ih =>
    rw [List.map_cons, List.cons_append, run_visit, visit_skip (h id List.mem_cons_self),
      List.nil_append]
    exact ih fun id' hid' ↦ h id' (List.mem_cons_of_mem _ hid')

theorem settle_of_pending (h : w.pending ≠ 0) (id : Nat) : w.settle id = w.settled := if_neg h

/-- A node that stays does what its name does. -/
theorem passing_expand (image : Nat → List Nat) {s' s : SparseSet} (h : s'.Renames name? s)
    (hnaming : Naming name?) (hname : name? id = some name) (hid : id < s'.capacity)
    (hlt : name < s.capacity) (node : Node α) :
    (passing node id s').2.Renames name? (passing (node.expand image) name s).2 ∧
      (ZeroWidth.ofNode? (node.expand image) name).map
          (ZeroWidth.relabel (passing (node.expand image) name s).2) =
        (ZeroWidth.ofNode? node id).map (ZeroWidth.relabel (passing node id s').2) := by
  obtain ⟨kind, greedy, capturing, group, out⟩ := node
  cases kind with
  | assert a =>
    have hinsert := h.insert hnaming hname hid hlt
    refine ⟨hinsert, ?_⟩
    simp only [ZeroWidth.ofNode?, Node.expand, passing, Option.map_some, ZeroWidth.relabel]
    rw [hinsert.position?_eq hnaming hname]
  | groupStart => cases capturing <;> exact ⟨h, rfl⟩
  | groupEnd => cases capturing <;> exact ⟨h, rfl⟩
  | _ => exact ⟨h, rfl⟩

/-- A node that does nothing numbers no assertion. -/
theorem passing_of_ofNode? (h : ZeroWidth.ofNode? node id = none) (s : SparseSet) :
    (passing node id s).2 = s := by
  obtain ⟨kind, greedy, capturing, group, out⟩ := node
  cases kind <;> first | rfl | cases h

theorem mem_arrive {reached : Array Arrival} {a a' : Arrival} (h : a' ∈ (arrive reached a).toList) :
    a' ∈ reached.toList ∨ a' = a := by
  unfold arrive at h
  split at h
  · exact .inl h
  · simpa using h

theorem renamed_arrive {reached' reached : Array Arrival} (h : Arrival.Renamed name? reached' reached)
    (hnaming : Naming name?) (hname : name? id = some name) (work : List ZeroWidth) :
    Arrival.Renamed name? (arrive reached' ⟨id, work⟩) (arrive reached ⟨name, work⟩) := by
  have hiff : ⟨id, work⟩ ∈ reached'.toList ↔ ⟨name, work⟩ ∈ reached.toList := by
    have hleft : ⟨id, work⟩ ∈ reached'.toList ↔
        (some name, work) ∈ reached'.toList.map fun a ↦ (name? a.target, a.work) := by
      rw [List.mem_map]
      constructor
      · exact fun hmem ↦ ⟨_, hmem, by rw [hname]⟩
      · rintro ⟨⟨target, work'⟩, hmem, heq⟩
        obtain ⟨htarget, rfl⟩ := Prod.mk.inj heq
        cases hnaming _ _ _ hname htarget
        exact hmem
    have hright : ⟨name, work⟩ ∈ reached.toList ↔
        (some name, work) ∈ reached.toList.map fun a ↦ (some a.target, a.work) := by
      rw [List.mem_map]
      constructor
      · exact fun hmem ↦ ⟨_, hmem, rfl⟩
      · rintro ⟨⟨target, work'⟩, hmem, heq⟩
        cases heq
        exact hmem
    rw [hleft, h, hright]
  have hcontains : reached'.contains ⟨id, work⟩ = reached.contains ⟨name, work⟩ := by
    rw [Bool.eq_iff_iff, Array.contains_iff_mem, Array.contains_iff_mem, ← Array.mem_toList_iff,
      ← Array.mem_toList_iff, hiff]
  unfold arrive
  rw [hcontains]
  split
  · exact h
  · rw [Arrival.Renamed, Array.toList_push, Array.toList_push, List.map_append, List.map_append, h,
      List.map_singleton, List.map_singleton, hname]

end Walker

/-! ## Two walkers in step -/

/-- A walker among the joints, with `path'` on its path, and one without them have done the same. -/
structure InStep (nodes' nodes : Array (Node α)) (name? : Nat → Option Nat) (image : Nat → List Nat)
    (path' : List Nat) (w' w : Walker) : Prop where
  onPath' : ∀ id : Nat, w'.onPath[id]? =
    if id < nodes'.size then some (decide (id ∈ path')) else none
  onPath : ∀ id : Nat, w.onPath[id]? =
    if id < nodes.size then some (decide (id ∈ path'.filterMap name?)) else none
  nodup : path'.Nodup
  capacity' : w'.settled.capacity = nodes'.size ∧ w'.assertions.capacity = nodes'.size
  capacity : w.settled.capacity = nodes.size ∧ w.assertions.capacity = nodes.size
  settled : ∀ {id name : Nat}, name? id = some name →
    (id ∈ w'.settled.toList ↔ name ∈ w.settled.toList)
  /-- What stands for a joint is settled with it, once it is left. -/
  settled_joint : ∀ {id : Nat}, id ∈ w'.settled.toList → name? id = none → id ∉ path' →
    ∀ name ∈ image id, name ∈ w.settled.toList
  /-- Without assertions, all nodes on the path are settled. -/
  settled_path : w.pending = 0 → ∀ name ∈ path'.filterMap name?, name ∈ w.settled.toList
  assertions : w'.assertions.Renames name? w.assertions
  work : w'.work = w.work
  pending : w'.pending = w.pending
  reached : Arrival.Renamed name? w'.reached w.reached
  consuming : ∀ a ∈ w'.reached.toList, ∃ node, nodes'[a.target]? = some node ∧ node.isConsuming = true

/-- Both walkers have gone on from `w'` and `w`, and the visits were to `names`. -/
structure InStep.Advances (nodes' nodes : Array (Node α)) (name? : Nat → Option Nat)
    (image : Nat → List Nat) (path' names : List Nat) (w' w next' next : Walker) : Prop where
  inStep : InStep nodes' nodes name? image path' next' next
  work : next.work = w.work
  pending : next.pending = w.pending
  settled : w.settled.toList ⊆ next.settled.toList
  frozen : w.pending ≠ 0 → next'.settled = w'.settled
  visited : w.pending = 0 → names ⊆ next.settled.toList

namespace InStep

variable {nodes' nodes : Array (Node α)} {name? : Nat → Option Nat} {image : Nat → List Nat}
  {path' names names₂ : List Nat} {w' w next' next : Walker} {id name : Nat} {node : Node α}

theorem skips (h : InStep nodes' nodes name? image path' w' w)
    (hname : name ∈ path'.filterMap name? ∨ name ∈ w.settled.toList) : w.Skips name :=
  Walker.skips_of_mem h.onPath hname

theorem skips_iff (h : InStep nodes' nodes name? image path' w' w)
    (hjoints : Jointed nodes' nodes name? image) (hid : id < nodes'.size)
    (hname : name? id = some name) : w'.Skips id ↔ w.Skips name := by
  have hmem : (id ∈ path' ∨ id ∈ w'.settled.toList) ↔
      (name ∈ path'.filterMap name? ∨ name ∈ w.settled.toList) := by
    rw [hjoints.naming.mem_filterMap hname, h.settled hname]
  constructor
  · exact fun hskip ↦ h.skips (hmem.mp (Walker.mem_of_skips h.onPath' hid hskip))
  · intro hskip
    have hlt := hjoints.name_lt hname hid
    exact Walker.skips_of_mem h.onPath' (hmem.mpr (Walker.mem_of_skips h.onPath hlt hskip))

/-- A node is skipped if its name is on the path or settled. -/
theorem mem_of_skips (h : InStep nodes' nodes name? image path' w' w)
    (hjoints : Jointed nodes' nodes name? image) (hid : id < nodes'.size)
    (hname : name? id = some name) (hskip : w'.Skips id) :
    ∀ name ∈ image id, name ∈ path'.filterMap name? ∨ name ∈ w.settled.toList := by
  rw [hjoints.image_name hname]
  exact List.forall_mem_singleton.mpr (Walker.mem_of_skips h.onPath (hjoints.name_lt hname hid)
    ((h.skips_iff hjoints hid hname).mp hskip))

/-- A node and its name are settled together. -/
theorem settle (h : InStep nodes' nodes name? image path' w' w)
    (hjoints : Jointed nodes' nodes name? image) (hid : id < nodes'.size)
    (hname : name? id = some name) {id₂ name₂ : Nat} (hname₂ : name? id₂ = some name₂) :
    id₂ ∈ (w'.settle id).toList ↔ name₂ ∈ (w.settle name).toList := by
  have hiff : id₂ = id ↔ name₂ = name := by
    constructor
    · rintro rfl
      exact Option.some.inj (hname₂.symm.trans hname)
    · rintro rfl
      exact hjoints.naming _ _ _ hname₂ hname
  rw [Walker.mem_settle_iff (h.capacity'.1.symm ▸ hid),
    Walker.mem_settle_iff (h.capacity.1.symm ▸ hjoints.name_lt hname hid), h.settled hname₂, h.pending,
    hiff]

theorem settle_joint (h : InStep nodes' nodes name? image path' w' w)
    (hjoints : Jointed nodes' nodes name? image) (hid : id < nodes'.size)
    (hname : name? id = some name) {id₂ : Nat} (hid₂ : id₂ ∈ (w'.settle id).toList)
    (hjoint : name? id₂ = none) (hpath : id₂ ∉ path') :
    ∀ name₂ ∈ image id₂, name₂ ∈ (w.settle name).toList := by
  intro name₂ hname₂
  rcases (Walker.mem_settle_iff (h.capacity'.1.symm ▸ hid)).mp hid₂ with hid₂ | ⟨-, rfl⟩
  · exact (Walker.mem_settle_iff (h.capacity.1.symm ▸ hjoints.name_lt hname hid)).mpr
      (.inl (h.settled_joint hid₂ hjoint hpath name₂ hname₂))
  · rw [hname] at hjoint
    cases hjoint

theorem Advances.refl (h : InStep nodes' nodes name? image path' w' w)
    (hnames : ∀ name ∈ names, name ∈ path'.filterMap name? ∨ name ∈ w.settled.toList) :
    Advances nodes' nodes name? image path' names w' w w' w where
  inStep := h
  work := rfl
  pending := rfl
  settled := List.Subset.refl _
  frozen _ := rfl
  visited hpending name hname := (hnames name hname).elim (h.settled_path hpending name) (·)

theorem Advances.trans {mid' mid : Walker}
    (h : Advances nodes' nodes name? image path' names w' w mid' mid)
    (h' : Advances nodes' nodes name? image path' names₂ mid' mid next' next) :
    Advances nodes' nodes name? image path' (names ++ names₂) w' w next' next where
  inStep := h'.inStep
  work := h'.work.trans h.work
  pending := h'.pending.trans h.pending
  settled := List.Subset.trans h.settled h'.settled
  frozen hpending := (h'.frozen (h.pending ▸ hpending)).trans (h.frozen hpending)
  visited hpending := List.append_subset.mpr
    ⟨List.Subset.trans (h.visited hpending) h'.settled, h'.visited (h.pending ▸ hpending)⟩

/-! ## One node -/

/-- Both walkers come to a consuming node. -/
theorem arrive (h : InStep nodes' nodes name? image path' w' w)
    (hjoints : Jointed nodes' nodes name? image) (hnode : nodes'[id]? = some node)
    (hcons : node.isConsuming = true) (hname : name? id = some name) :
    Advances nodes' nodes name? image path' [name] w' w
      { w' with
        settled := w'.settle id
        reached := Walker.arrive w'.reached ⟨id, w'.work.reverse⟩ }
      { w with
        settled := w.settle name
        reached := Walker.arrive w.reached ⟨name, w.work.reverse⟩ } := by
  have hid : id < nodes'.size := (Array.getElem?_eq_some_iff.mp hnode).1
  have hmem := fun {x} ↦ Walker.mem_settle_iff (x := x)
    (h.capacity.1.symm ▸ hjoints.name_lt hname hid : name < w.settled.capacity)
  have hsubset : w.settled.toList ⊆ (w.settle name).toList := fun _ hx ↦ hmem.mpr (.inl hx)
  refine ⟨{ h with
    capacity' := ⟨(w'.capacity_settle id).trans h.capacity'.1, h.capacity'.2⟩
    capacity := ⟨(w.capacity_settle name).trans h.capacity.1, h.capacity.2⟩
    settled := fun hname₂ ↦ h.settle hjoints hid hname hname₂
    settled_joint := fun hid₂ hjoint hpath ↦ h.settle_joint hjoints hid hname hid₂ hjoint hpath
    settled_path := fun hpending x hx ↦ hsubset (h.settled_path hpending x hx)
    reached := ?_
    consuming := fun a ha ↦ ?_ }, rfl, rfl, hsubset, fun hpending ↦ ?_, fun hpending x hx ↦ ?_⟩
  · dsimp only
    rw [h.work]
    exact Walker.renamed_arrive h.reached hjoints.naming hname _
  · rcases Walker.mem_arrive ha with ha | rfl
    · exact h.consuming a ha
    · exact ⟨node, hnode, hcons⟩
  · exact Walker.settle_of_pending (h.pending.symm ▸ hpending) id
  · exact hmem.mpr (.inr ⟨hpending, List.mem_singleton.mp hx⟩)

/-- Both walkers put a node on their paths. -/
theorem enter (h : InStep nodes' nodes name? image path' w' w)
    (hjoints : Jointed nodes' nodes name? image) (hid : id < nodes'.size)
    (hname : name? id = some name) (hnew : id ∉ path') (node : Node α) :
    InStep nodes' nodes name? image (id :: path') (w'.enter node id)
      (w.enter (node.expand image) name) := by
  have hlt := hjoints.name_lt hname hid
  have hpath : (id :: path').filterMap name? = name :: path'.filterMap name? := by
    rw [List.filterMap_cons, hname]
  obtain ⟨hassertions, hop⟩ := Walker.passing_expand image h.assertions hjoints.naming hname
    (h.capacity'.2.symm ▸ hid) (h.capacity.2.symm ▸ hlt) node
  constructor
  case onPath' =>
    exact Walker.marks_set h.onPath' true (decide_eq_true List.mem_cons_self) fun _ hne ↦
      ⟨List.mem_of_ne_of_mem hne, List.mem_cons_of_mem id⟩
  case onPath =>
    rw [hpath]
    exact Walker.marks_set h.onPath true (decide_eq_true List.mem_cons_self) fun _ hne ↦
      ⟨List.mem_of_ne_of_mem hne, List.mem_cons_of_mem name⟩
  case nodup => exact List.nodup_cons.mpr ⟨hnew, h.nodup⟩
  case capacity' =>
    exact ⟨(w'.capacity_settle id).trans h.capacity'.1,
      (Walker.capacity_passing node id _).trans h.capacity'.2⟩
  case capacity =>
    exact ⟨(w.capacity_settle name).trans h.capacity.1,
      (Walker.capacity_passing (node.expand image) name _).trans h.capacity.2⟩
  case settled => exact fun hname₂ ↦ h.settle hjoints hid hname hname₂
  case settled_joint =>
    exact fun hid₂ hjoint hpath ↦
      h.settle_joint hjoints hid hname hid₂ hjoint fun hmem ↦ hpath (List.mem_cons_of_mem id hmem)
  case settled_path =>
    intro hpending x hx
    have hzero : w.pending = 0 := Nat.eq_zero_of_add_eq_zero_left hpending
    apply (Walker.mem_settle_iff (h.capacity.1.symm ▸ hlt)).mpr
    rw [hpath] at hx
    rcases List.mem_cons.mp hx with rfl | hx
    · exact .inr ⟨hzero, rfl⟩
    · exact .inl (h.settled_path hzero x hx)
  case assertions => exact hassertions
  case work =>
    dsimp only [Walker.enter]
    rw [hop, h.work]
  case pending =>
    dsimp only [Walker.enter]
    rw [hop, h.pending]
  case reached => exact h.reached
  case consuming => exact h.consuming

/-- A walker puts a joint on its path. -/
theorem enter_joint (h : InStep nodes' nodes name? image path' w' w)
    (hid : id < nodes'.size) (hjoint : name? id = none) (hop : ZeroWidth.ofNode? node id = none)
    (hnew : id ∉ path') : InStep nodes' nodes name? image (id :: path') (w'.enter node id) w := by
  have hpath : (id :: path').filterMap name? = path'.filterMap name? := by
    rw [List.filterMap_cons, hjoint]
  have hmem := fun {x} ↦ Walker.mem_settle_iff (x := x)
    (h.capacity'.1.symm ▸ hid : id < w'.settled.capacity)
  refine { h with
    onPath' := ?_
    onPath := hpath.symm ▸ h.onPath
    nodup := List.nodup_cons.mpr ⟨hnew, h.nodup⟩
    capacity' := ⟨(w'.capacity_settle id).trans h.capacity'.1,
      (Walker.capacity_passing node id _).trans h.capacity'.2⟩
    settled := ?_
    settled_joint := ?_
    settled_path := hpath.symm ▸ h.settled_path
    assertions := by
      dsimp only [Walker.enter]
      rw [Walker.passing_of_ofNode? hop]
      exact h.assertions
    work := by
      dsimp only [Walker.enter]
      rw [hop, h.work]
      rfl
    pending := by
      dsimp only [Walker.enter]
      rw [hop, h.pending]
      exact Nat.zero_add _ }
  · exact Walker.marks_set h.onPath' true (decide_eq_true List.mem_cons_self) fun _ hne ↦
      ⟨List.mem_of_ne_of_mem hne, List.mem_cons_of_mem id⟩
  · intro id₂ name₂ hname₂
    have hne : id₂ ≠ id := by
      rintro rfl
      cases hname₂.symm.trans hjoint
    rw [← h.settled hname₂]
    exact hmem.trans (or_iff_left fun heq ↦ hne heq.2)
  · intro id₂ hid₂ hjoint₂ hpath₂
    rw [List.mem_cons, not_or] at hpath₂
    have hold := (hmem.mp hid₂).resolve_right fun heq ↦ hpath₂.1 heq.2
    exact h.settled_joint hold hjoint₂ hpath₂.2

/-- Both walkers have walked on from a node, and leave it. -/
theorem Advances.leave (h : InStep nodes' nodes name? image path' w' w)
    (hjoints : Jointed nodes' nodes name? image) (hid : id < nodes'.size)
    (hname : name? id = some name) (hnew : id ∉ path')
    (hadvances : Advances nodes' nodes name? image (id :: path') names (w'.enter node id)
      (w.enter (node.expand image) name) next' next) :
    Advances nodes' nodes name? image path' [name] w' w
      (next'.leave id (ZeroWidth.ofNode? node id).isSome)
      (next.leave name (ZeroWidth.ofNode? (node.expand image) name).isSome) := by
  obtain ⟨hnext, hwork, hpending, hsettled, hfrozen, -⟩ := hadvances
  have hlt := hjoints.name_lt hname hid
  have hpath : (id :: path').filterMap name? = name :: path'.filterMap name? := by
    rw [List.filterMap_cons, hname]
  have hnew' : name ∉ path'.filterMap name? := mt (hjoints.naming.mem_filterMap hname path').mp hnew
  obtain ⟨-, hop⟩ := Walker.passing_expand image h.assertions hjoints.naming hname
    (h.capacity'.2.symm ▸ hid) (h.capacity.2.symm ▸ hlt) node
  have hleave := Walker.leave_of_work hwork hpending name
  have hwork' := hnext.work.trans hwork
  have hpending' := hnext.pending.trans hpending
  dsimp only [Walker.enter] at hwork' hpending'
  rw [hop] at hwork' hpending'
  have hleave' := Walker.leave_of_work hwork' hpending' id
  rw [Option.isSome_map] at hleave hleave'
  rw [hleave, hleave']
  have hmem := fun {x} ↦ Walker.mem_settle_iff (x := x)
    (h.capacity.1.symm ▸ hlt : name < w.settled.capacity)
  have hsubset : w.settled.toList ⊆ next.settled.toList := fun _ hx ↦ hsettled (hmem.mpr (.inl hx))
  refine ⟨{ hnext with
    onPath' := ?_
    onPath := ?_
    nodup := h.nodup
    settled_joint := fun {id₂} hid₂ hjoint hpath₂ ↦ hnext.settled_joint hid₂ hjoint ?_
    settled_path := fun hzero x hx ↦ hsubset (h.settled_path hzero x hx)
    work := rfl
    pending := rfl }, rfl, rfl, hsubset, fun hne ↦ ?_, fun hzero x hx ↦ ?_⟩
  · exact Walker.marks_set hnext.onPath' false (decide_eq_false hnew) fun _ hne ↦
      ⟨List.mem_cons_of_mem id, List.mem_of_ne_of_mem hne⟩
  · have hmarks := hnext.onPath
    rw [hpath] at hmarks
    exact Walker.marks_set hmarks false (decide_eq_false hnew') fun _ hne ↦
      ⟨List.mem_cons_of_mem name, List.mem_of_ne_of_mem hne⟩
  · rintro (_ | ⟨_, hmem⟩)
    · cases hname.symm.trans hjoint
    · exact hpath₂ hmem
  · have hne' : (w.enter (node.expand image) name).pending ≠ 0 := fun hzero ↦
      hne (Nat.eq_zero_of_add_eq_zero_left hzero)
    exact (hfrozen hne').trans (Walker.settle_of_pending (h.pending.symm ▸ hne) id)
  · exact hsettled (hmem.mpr (.inr ⟨hzero, List.mem_singleton.mp hx⟩))

/-- A walker has walked on from a joint, and leaves it. -/
theorem Advances.leave_joint (h : InStep nodes' nodes name? image path' w' w)
    (hid : id < nodes'.size) (hjoint : name? id = none) (hop : ZeroWidth.ofNode? node id = none)
    (hnew : id ∉ path') (hskip : ¬ w'.Skips id)
    (hadvances : Advances nodes' nodes name? image (id :: path') (image id) (w'.enter node id) w
      next' next) :
    Advances nodes' nodes name? image path' (image id) w' w
      (next'.leave id (ZeroWidth.ofNode? node id).isSome) next := by
  obtain ⟨hnext, hwork, hpending, hsettled, hfrozen, hvisited⟩ := hadvances
  have hpath : (id :: path').filterMap name? = path'.filterMap name? := by
    rw [List.filterMap_cons, hjoint]
  have hleave : next'.leave id (ZeroWidth.ofNode? node id).isSome =
      { next' with onPath := next'.onPath.setIfInBounds id false } := by
    rw [hop]
    rfl
  have hentered : w.pending ≠ 0 → next'.settled = w'.settled := fun hne ↦
    (hfrozen hne).trans (Walker.settle_of_pending (h.pending.symm ▸ hne) id)
  rw [hleave]
  refine ⟨{ hnext with
    onPath' := ?_
    onPath := hpath ▸ hnext.onPath
    nodup := h.nodup
    settled_joint := fun {id₂} hid₂ hjoint₂ hpath₂ ↦ ?_
    settled_path := hpath ▸ hnext.settled_path }, hwork, hpending, hsettled, hentered, hvisited⟩
  · exact Walker.marks_set hnext.onPath' false (decide_eq_false hnew) fun _ hne ↦
      ⟨List.mem_cons_of_mem id, List.mem_of_ne_of_mem hne⟩
  · by_cases heq : id₂ = id
    · subst heq
      by_cases hzero : w.pending = 0
      · exact hvisited hzero
      · have hold : id₂ ∈ w'.settled.toList := hentered hzero ▸ hid₂
        exact absurd (Walker.skips_of_mem h.onPath' (.inr hold)) hskip
    · exact hnext.settled_joint hid₂ hjoint₂ fun hmem ↦ (List.mem_cons.mp hmem).elim heq hpath₂

end InStep

/-! ## The walk -/

/-- An edge leads from `id` to `next`. -/
def Follows (nodes : Array (Node α)) (next id : Nat) : Prop :=
  ∃ node, nodes[id]? = some node ∧ next ∈ node.out

section

variable {nodes' nodes : Array (Node α)} {name? : Nat → Option Nat} {image : Nat → List Nat}
  {path' ids : List Nat} {w' w : Walker} {id source : Nat} {node : Node α}

/-- A walk comes back to a joint on its path only from behind it, and finds what stands for the joint
on the path. -/
theorem Jointed.mem_path (hjoints : Jointed nodes' nodes name? image)
    (hsource : ∀ node, nodes'[source]? = some node → node.kind ≠ .alternate)
    (hchain : (id :: (path' ++ [source])).IsChain (Follows nodes')) (hnodup : path'.Nodup)
    (hid : id ∈ path') (hnode : nodes'[id]? = some node) (hjoint : name? id = none) :
    ∀ name ∈ image id, name ∈ path'.filterMap name? := by
  obtain ⟨above, below, rfl⟩ := List.append_of_mem hid
  rcases hjoints.single hnode hjoint with ⟨next, hout⟩ | ⟨fork, hfork⟩
  · obtain ⟨name, hname⟩ := hjoints.out_joint hnode hjoint (hout ▸ List.mem_singleton_self next)
    -- the node before the joint on the path is the one that the joint leads to
    have hnext : next ∈ above := by
      rcases List.eq_nil_or_concat above with rfl | ⟨above, last, rfl⟩
      · obtain ⟨node', hnode', hmem⟩ := (List.isChain_cons_cons.mp hchain).1
        cases hnode.symm.trans hnode'
        rw [hout] at hmem
        cases List.mem_singleton.mp hmem
        cases hjoint.symm.trans hname
      · have hpair : Follows nodes' last id := by
          refine List.isChain_pair.mp <| List.IsChain.infix hchain ⟨id :: above, below ++ [source], ?_⟩
          simp
        obtain ⟨node', hnode', hmem⟩ := hpair
        cases hnode.symm.trans hnode'
        rw [hout] at hmem
        cases List.mem_singleton.mp hmem
        simp
    rw [hjoints.image_joint hnode hjoint, hout, List.flatMap_singleton, hjoints.image_name hname]
    intro name' hname'
    cases List.mem_singleton.mp hname'
    exact (hjoints.naming.mem_filterMap hname _).mpr (List.mem_append_left _ hnext)
  · -- the fork before the joint would be on the path twice
    have hnodup := List.nodup_cons.mp (List.perm_middle.nodup hnodup)
    have hbelow : fork ∈ below := by
      cases below with
      | nil =>
        have hpair : Follows nodes' id source := by
          refine List.isChain_pair.mp <| List.IsChain.infix hchain ⟨id :: above, [], ?_⟩
          simp
        obtain ⟨node', hnode', hmem⟩ := hpair
        exact absurd (hfork hnode' hmem).2 (hsource node' hnode')
      | cons last below =>
        have hpair : Follows nodes' id last := by
          refine List.isChain_pair.mp <| List.IsChain.infix hchain ⟨id :: above, below ++ [source], ?_⟩
          simp
        obtain ⟨node', hnode', hmem⟩ := hpair
        exact (hfork hnode' hmem).1 ▸ List.mem_cons_self
    cases above with
    | nil =>
      obtain ⟨node', hnode', hmem⟩ := (List.isChain_cons_cons.mp hchain).1
      exact absurd ((hfork hnode' hmem).1 ▸ hbelow) hnodup.1
    | cons first above =>
      obtain ⟨node', hnode', hmem⟩ := (List.isChain_cons_cons.mp hchain).1
      have hfirst : first ∉ above ++ below := (List.nodup_cons.mp hnodup.2).1
      exact absurd (List.mem_append_right above ((hfork hnode' hmem).1 ▸ hbelow)) hfirst

/-- Visits to nodes and visits to what stands for them keep two walkers in step. -/
def WalksInStep (nodes' nodes : Array (Node α)) (name? : Nat → Option Nat) (image : Nat → List Nat)
    (path' ids : List Nat) : Prop :=
  ∀ ⦃w' w : Walker⦄, InStep nodes' nodes name? image path' w' w → ∀ rest' rest, ∃ next' next,
    Walker.run nodes' (ids.map .visit ++ rest') w' = Walker.run nodes' rest' next' ∧
      Walker.run nodes ((ids.flatMap image).map .visit ++ rest) w = Walker.run nodes rest next ∧
        InStep.Advances nodes' nodes name? image path' (ids.flatMap image) w' w next' next

namespace WalksInStep

theorem visits (h : ∀ id ∈ ids, WalksInStep nodes' nodes name? image path' [id]) :
    WalksInStep nodes' nodes name? image path' ids := by
  induction ids with
  | nil => exact fun w' w hw rest' rest ↦ ⟨w', w, rfl, rfl, .refl hw nofun⟩
  | cons id ids ih =>
    intro w' w hw rest' rest
    obtain ⟨mid', mid, hrun', hrun, hmid⟩ := h id List.mem_cons_self hw (ids.map .visit ++ rest')
      ((ids.flatMap image).map .visit ++ rest)
    obtain ⟨next', next, hrun₂', hrun₂, hnext⟩ :=
      ih (fun id' hid' ↦ h id' (List.mem_cons_of_mem _ hid')) hmid.inStep rest' rest
    rw [List.flatMap_singleton] at hrun hmid
    refine ⟨next', next, ?_, ?_, ?_⟩
    · exact hrun'.trans hrun₂'
    · rw [List.flatMap_cons, List.map_append, List.append_assoc, hrun, hrun₂]
    · exact List.flatMap_cons ▸ hmid.trans hnext

/-- A visit that is skipped, when what stands for the node is skipped as well. -/
theorem of_skips (hw : InStep nodes' nodes name? image path' w' w) (hskip : w'.Skips id)
    (himage : ∀ name ∈ image id, name ∈ path'.filterMap name? ∨ name ∈ w.settled.toList)
    (rest' rest : List WalkTask) : ∃ next' next,
      Walker.run nodes' ([id].map .visit ++ rest') w' = Walker.run nodes' rest' next' ∧
        Walker.run nodes (([id].flatMap image).map .visit ++ rest) w = Walker.run nodes rest next ∧
          InStep.Advances nodes' nodes name? image path' ([id].flatMap image) w' w next' next := by
  rw [List.flatMap_singleton]
  refine ⟨w', w, ?_, ?_, .refl hw himage⟩
  · exact Walker.run_skips (List.forall_mem_singleton.mpr hskip) rest'
  · exact Walker.run_skips (fun name hname ↦ hw.skips (himage name hname)) rest

/-- A walk that goes on along edges, from a source that is no alternation. -/
theorem visit (hjoints : Jointed nodes' nodes name? image)
    (hsource : ∀ node, nodes'[source]? = some node → node.kind ≠ .alternate) (path' : List Nat)
    (id : Nat) (hchain : (id :: (path' ++ [source])).IsChain (Follows nodes')) :
    WalksInStep nodes' nodes name? image path' [id] := by
  have hlt : id < nodes'.size := by
    obtain ⟨last, node, hnode, hmem⟩ : ∃ last, Follows nodes' id last := by
      cases path' <;> exact ⟨_, (List.isChain_cons_cons.mp hchain).1⟩
    exact hjoints.lt_size hnode hmem
  fun_induction pathsFrom nodes' path' id with
  | case1 path' id hnode => exact absurd hlt (Nat.not_lt.mpr (Array.getElem?_eq_none_iff.mp hnode))
  | case2 path' id node hnode hcons =>
    intro w' w hw rest' rest
    obtain ⟨name, hname⟩ := Option.ne_none_iff_exists'.mp fun hjoint ↦ by
      rw [hjoints.isConsuming_joint hnode hjoint] at hcons
      cases hcons
    by_cases hskip : w'.Skips id
    · exact of_skips hw hskip (hw.mem_of_skips hjoints hlt hname hskip) rest' rest
    · have hskip' := mt (hw.skips_iff hjoints hlt hname).mpr hskip
      rw [List.flatMap_singleton, hjoints.image_name hname]
      refine ⟨_, _, ?_, ?_, hw.arrive hjoints hnode hcons hname⟩
      · rw [List.map_singleton, List.singleton_append, Walker.run_visit,
          Walker.visit_consuming hskip hnode hcons, List.nil_append]
      · rw [List.map_singleton, List.singleton_append, Walker.run_visit,
          Walker.visit_consuming hskip' (hjoints.stays hnode hname) hcons, List.nil_append]
  | case3 path' id node hnode hcons hmem =>
    intro w' w hw rest' rest
    refine of_skips hw (Walker.skips_of_mem hw.onPath' (.inl hmem)) ?_ rest' rest
    cases hname : name? id with
    | none =>
      exact fun name hmem' ↦
        .inl (hjoints.mem_path hsource hchain hw.nodup hmem hnode hname name hmem')
    | some name =>
      rw [hjoints.image_name hname]
      exact List.forall_mem_singleton.mpr (.inl ((hjoints.naming.mem_filterMap hname _).mpr hmem))
  | case4 path' id node hnode hcons hnew ih =>
    intro w' w hw rest' rest
    have hcons' : node.isConsuming = false := by simpa using hcons
    have hnexts : WalksInStep nodes' nodes name? image (id :: path') node.out := visits fun next hnext ↦
      ih next (List.isChain_cons_cons.mpr ⟨⟨node, hnode, hnext⟩, hchain⟩) (hjoints.lt_size hnode hnext)
    by_cases hskip : w'.Skips id
    · refine of_skips hw hskip ?_ rest' rest
      cases hname : name? id with
      | none =>
        have hid := (Walker.mem_of_skips hw.onPath' hlt hskip).resolve_left hnew
        exact fun name hmem ↦ .inr (hw.settled_joint hid hname hnew name hmem)
      | some name => exact hw.mem_of_skips hjoints hlt hname hskip
    · rw [List.flatMap_singleton]
      cases hname : name? id with
      | none =>
        have hop := hjoints.ofNode?_joint hnode hname
        obtain ⟨next', next, hrun', hrun, hadvances⟩ := hnexts (hw.enter_joint hlt hname hop hnew)
          (.leave id (ZeroWidth.ofNode? node id).isSome :: rest') rest
        rw [← hjoints.image_joint hnode hname] at hrun hadvances
        refine ⟨_, next, ?_, hrun, .leave_joint hw hlt hname hop hnew hskip hadvances⟩
        rw [List.map_singleton, List.singleton_append, Walker.run_visit,
          Walker.visit_passing hskip hnode hcons', List.append_assoc, List.singleton_append, hrun',
          Walker.run_leave]
      | some name =>
        have hskip' := mt (hw.skips_iff hjoints hlt hname).mpr hskip
        obtain ⟨next', next, hrun', hrun, hadvances⟩ := hnexts (hw.enter hjoints hlt hname hnew node)
          (.leave id (ZeroWidth.ofNode? node id).isSome :: rest')
          (.leave name (ZeroWidth.ofNode? (node.expand image) name).isSome :: rest)
        rw [hjoints.image_name hname]
        refine ⟨_, _, ?_, ?_, .leave hw hjoints hlt hname hnew hadvances⟩
        · rw [List.map_singleton, List.singleton_append, Walker.run_visit,
            Walker.visit_passing hskip hnode hcons', List.append_assoc, List.singleton_append, hrun',
            Walker.run_leave]
        · rw [List.map_singleton, List.singleton_append, Walker.run_visit,
            Walker.visit_passing hskip' (hjoints.stays hnode hname) hcons', List.append_assoc,
            List.singleton_append]
          exact hrun.trans (Walker.run_leave _ _)

end WalksInStep

/-! ## Exploring a node -/

namespace InStep

theorem ofCount (nodes' nodes : Array (Node α)) (name? : Nat → Option Nat) (image : Nat → List Nat) :
    InStep nodes' nodes name? image [] (Walker.ofCount nodes'.size) (Walker.ofCount nodes.size) where
  onPath' id := by simpa using (Walker.idle_ofCount nodes').onPath id
  onPath id := by simpa using (Walker.idle_ofCount nodes).onPath id
  nodup := List.nodup_nil
  capacity' := ⟨SparseSet.capacity_ofCapacity _, SparseSet.capacity_ofCapacity _⟩
  capacity := ⟨SparseSet.capacity_ofCapacity _, SparseSet.capacity_ofCapacity _⟩
  settled _ := iff_of_false List.not_mem_nil List.not_mem_nil
  settled_joint := nofun
  settled_path _ := nofun
  assertions := rfl
  work := rfl
  pending := rfl
  reached := rfl
  consuming := nofun

/-- Walkers in step stay so when they walk from a node and from its name. -/
theorem explore (h : InStep nodes' nodes name? image [] w' w)
    (hjoints : Jointed nodes' nodes name? image) {name : Nat} (hname : name? id = some name)
    (hnode : nodes'[id]? = some node) (hkind : node.kind ≠ .alternate) :
    InStep nodes' nodes name? image [] (w'.explore nodes' id) (w.explore nodes name) := by
  obtain ⟨onPath', settled', assertions', work', pending', reached'⟩ := w'
  obtain ⟨onPath, settled, assertions, work, pending, reached⟩ := w
  have hstart : InStep nodes' nodes name? image []
      ⟨onPath', settled'.clear, assertions', [], 0, #[]⟩
      ⟨onPath, settled.clear, assertions, [], 0, #[]⟩ :=
    { h with
      settled := fun _ ↦ iff_of_false List.not_mem_nil List.not_mem_nil
      settled_joint := nofun
      settled_path := fun _ ↦ nofun
      work := rfl
      pending := rfl
      reached := rfl
      consuming := nofun }
  have hsource : ∀ node', nodes'[id]? = some node' → node'.kind ≠ .alternate := fun node' hnode' ↦ by
    cases hnode.symm.trans hnode'
    exact hkind
  have hwalks : WalksInStep nodes' nodes name? image [] node.out := .visits fun next hnext ↦
    .visit hjoints hsource [] next (List.isChain_pair.mpr ⟨node, hnode, hnext⟩)
  obtain ⟨next', next, hrun', hrun, hadvances⟩ := hwalks hstart [] []
  rw [List.append_nil, Walker.run_nil] at hrun' hrun
  rw [Walker.explore, Walker.explore, hnode, hjoints.stays hnode hname, Option.elim_some,
    Option.elim_some, hrun']
  exact hrun ▸ hadvances.inStep

end InStep

end

end Lockstep
