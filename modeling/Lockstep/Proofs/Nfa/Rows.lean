import Lockstep.Nfa.OfGraph
import Lockstep.Proofs.Closure.Walk

/-!
# The rows of an automaton

The automaton of a graph has a row for each node that it keeps as a state. Read back through the
numbering of the states, the row of a node holds the paths that leave it, but for paths that earlier
ones cover.
-/

namespace Lockstep

universe u v

variable {α : Type u}

/-! ## Tables -/

namespace Table

/-- The table has `count` rows. -/
structure Holds (t : Table) (count : Nat) : Prop where
  size : t.starts.size = count + 1
  le : ∀ state, t.starts.getD state 0 ≤ t.transitions.size
  last : t.starts.getD count 0 = t.transitions.size

theorem holds_empty : empty.Holds 0 where
  size := rfl
  le state := by cases state <;> simp [empty]
  last := rfl

variable {t : Table} {count : Nat}

theorem Holds.getD_addRow (h : t.Holds count) (row : Array Transition) {state : Nat}
    (hstate : state ≤ count) : (t.addRow row).starts.getD state 0 = t.starts.getD state 0 := by
  have hlt : state < t.starts.size := by
    rw [h.size]
    omega
  simp [addRow, Array.getElem?_push_lt, hlt]

theorem Holds.getD_addRow_self (h : t.Holds count) (row : Array Transition) :
    (t.addRow row).starts.getD (count + 1) 0 = t.transitions.size + row.size := by
  simp [addRow, ← h.size]

theorem Holds.addRow (h : t.Holds count) (row : Array Transition) :
    (t.addRow row).Holds (count + 1) where
  size := by simp [Table.addRow, h.size]
  le state := by
    have hsize : (t.addRow row).transitions.size = t.transitions.size + row.size := by
      simp [Table.addRow]
    rw [hsize]
    by_cases hstate : state ≤ count
    · rw [h.getD_addRow row hstate]
      have := h.le state
      omega
    · by_cases heq : state = count + 1
      · exact Nat.le_of_eq (heq ▸ h.getD_addRow_self row)
      · have hstarts : (t.addRow row).starts.size = count + 1 + 1 := by simp [Table.addRow, h.size]
        have hle : (t.addRow row).starts.size ≤ state := by omega
        simp [Array.getD_eq_getD_getElem?, Array.getElem?_eq_none hle]
  last := by
    rw [h.getD_addRow_self]
    simp [Table.addRow]

/-- A new row leaves the others as they are. -/
theorem Holds.row_addRow (h : t.Holds count) (row : Array Transition) {state : Nat}
    (hstate : state < count) : (t.addRow row).row state = t.row state := by
  have hle := h.le (state + 1)
  rw [Table.row, h.getD_addRow row (Nat.le_of_lt hstate), h.getD_addRow row hstate, Table.row]
  rw [Array.getD_eq_getD_getElem?] at hle
  simp [Table.addRow]
  omega

theorem Holds.row_addRow_self (h : t.Holds count) (row : Array Transition) :
    (t.addRow row).row count = row.toList := by
  rw [Table.row, h.getD_addRow row (Nat.le_refl _), h.getD_addRow_self, h.last]
  simp [Table.addRow]

end Table

/-! ## Reading transitions back -/

theorem getElem?_extends {β : Type v} {xs ys : Array β} (h : xs.toList <+: ys.toList) {i : Nat}
    (hi : i < xs.size) : ys[i]? = xs[i]? := by
  obtain ⟨more, hmore⟩ := h
  rw [← Array.getElem?_toList, ← Array.getElem?_toList, ← hmore]
  exact List.getElem?_append_left (by simpa using hi)

theorem getD_extends {β : Type v} {xs ys : Array β} (h : xs.toList <+: ys.toList) {i : Nat}
    (hi : i < xs.size) (x : β) : ys.getD i x = xs.getD i x := by
  rw [Array.getD_eq_getD_getElem?, Array.getD_eq_getD_getElem?, getElem?_extends h hi]

namespace Transition

/-- The arrival that a transition stands for. -/
def read (order : SparseSet) (closures : Array (List ZeroWidth)) (t : Transition) : Arrival :=
  ⟨order.members.getD t.target 0, t.closure.elim [] (closures.getD · [])⟩

/-- What a transition refers to is there. -/
structure Placed (order : SparseSet) (closures : Array (List ZeroWidth)) (t : Transition) : Prop where
  target : t.target < order.size
  closure : ∀ id ∈ t.closure, id < closures.size

variable {order order' : SparseSet} {closures closures' : Array (List ZeroWidth)} {t : Transition}

theorem Placed.mono (h : t.Placed order closures) (horder : order.toList <+: order'.toList)
    (hclosures : closures.toList <+: closures'.toList) : t.Placed order' closures' where
  target := Nat.lt_of_lt_of_le h.target (by
    simpa only [SparseSet.length_toList] using horder.length_le)
  closure id hid := Nat.lt_of_lt_of_le (h.closure id hid) (by simpa using hclosures.length_le)

/-- A transition keeps its meaning when more states and closures are added. -/
theorem Placed.read_eq (h : t.Placed order closures) (horder : order.toList <+: order'.toList)
    (hclosures : closures.toList <+: closures'.toList) :
    t.read order' closures' = t.read order closures := by
  rw [read, read, getD_extends horder h.target]
  cases hclosure : t.closure with
  | none => rfl
  | some id =>
    rw [Option.elim_some, Option.elim_some, getD_extends hclosures (h.closure id hclosure)]

end Transition

namespace RowBuilder

/-- The transitions of a row under construction stand for the arrivals `done`. -/
structure Reads (r : RowBuilder) (done : List Arrival) : Prop where
  placed : ∀ t ∈ r.transitions.toList, t.Placed r.order r.closures
  read : r.transitions.toList.map (Transition.read r.order r.closures) = done

/-- More states and closures are added at the end only. -/
structure Extends (r' r : RowBuilder) : Prop where
  order : r.order.toList <+: r'.order.toList
  closures : r.closures.toList <+: r'.closures.toList
  capacity : r'.order.capacity = r.order.capacity

theorem Extends.refl (r : RowBuilder) : r.Extends r := ⟨List.prefix_rfl, List.prefix_rfl, rfl⟩

theorem Extends.trans {r r' r'' : RowBuilder} (h : r''.Extends r') (h' : r'.Extends r) :
    r''.Extends r :=
  ⟨h'.order.trans h.order, h'.closures.trans h.closures, h.capacity.trans h'.capacity⟩

variable {r : RowBuilder} {done : List Arrival} {a : Arrival}

theorem Reads.push (h : r.Reads done) {r' : RowBuilder} (hext : r'.Extends r) {t : Transition}
    (htransitions : r'.transitions = r.transitions.push t) (hplaced : t.Placed r'.order r'.closures) :
    r'.Reads (done ++ [t.read r'.order r'.closures]) := by
  refine ⟨fun t' ht' ↦ ?_, ?_⟩
  · rw [htransitions, Array.toList_push] at ht'
    rcases List.mem_append.mp ht' with ht' | ht'
    · exact (h.placed t' ht').mono hext.order hext.closures
    · cases List.mem_singleton.mp ht'
      exact hplaced
  · rw [htransitions, Array.toList_push, List.map_append, ← h.read]
    refine congrArg (· ++ _) (List.map_congr_left fun t' ht' ↦ ?_)
    exact (h.placed t' ht').read_eq hext.order hext.closures

/-- An arrival adds the transition that stands for it. -/
theorem Reads.add (h : r.Reads done) (ha : a.target < r.order.capacity) :
    (r.add a).Reads (done ++ [a]) ∧ (r.add a).Extends r := by
  obtain ⟨order, closures, transitions⟩ := r
  obtain ⟨target, work⟩ := a
  have hpre := order.prefix_insert target
  have hcapacity := order.capacity_insert target
  obtain ⟨i, hi⟩ := List.mem_iff_getElem?.mp (SparseSet.mem_insert_self ha)
  rw [SparseSet.toList, Array.getElem?_toList] at hi
  have hposition : ((order.insert target).2.position? target).getD 0 = i := by
    rw [SparseSet.position?_eq_some_iff.mpr hi, Option.getD_some]
  have hlt : i < (order.insert target).2.size := (Array.getElem?_eq_some_iff.mp hi).1
  have htarget : (order.insert target).2.members.getD i 0 = target := by
    rw [Array.getD_eq_getD_getElem?, hi, Option.getD_some]
  cases work with
  | nil =>
    have hext : (RowBuilder.add ⟨order, closures, transitions⟩ ⟨target, []⟩).Extends
        ⟨order, closures, transitions⟩ := ⟨hpre, List.prefix_rfl, hcapacity⟩
    have hpush := h.push hext (t := ⟨i, none⟩) (by simp [RowBuilder.add, hposition])
      ⟨hlt, fun id hid ↦ by cases hid⟩
    refine ⟨?_, hext⟩
    rwa [show Transition.read _ _ ⟨i, none⟩ = (⟨target, []⟩ : Arrival) by
      simp [Transition.read, RowBuilder.add, htarget]] at hpush
  | cons op work =>
    have hext : (RowBuilder.add ⟨order, closures, transitions⟩ ⟨target, op :: work⟩).Extends
        ⟨order, closures, transitions⟩ := ⟨hpre, by simp [RowBuilder.add], hcapacity⟩
    have hpush := h.push hext (t := ⟨i, some closures.size⟩) (by simp [RowBuilder.add, hposition])
      ⟨hlt, fun id hid ↦ by cases hid; simp [RowBuilder.add]⟩
    refine ⟨?_, hext⟩
    rwa [show Transition.read _ _ ⟨i, some closures.size⟩ = (⟨target, op :: work⟩ : Arrival) by
      simp [Transition.read, RowBuilder.add, htarget]] at hpush

theorem Reads.foldl_add (h : r.Reads done) (arrivals : List Arrival)
    (hlt : ∀ a ∈ arrivals, a.target < r.order.capacity) :
    (arrivals.foldl RowBuilder.add r).Reads (done ++ arrivals) ∧
      (arrivals.foldl RowBuilder.add r).Extends r := by
  induction arrivals generalizing r done with
  | nil => exact ⟨by simpa using h, .refl r⟩
  | cons a arrivals ih =>
    obtain ⟨hadd, hext⟩ := h.add (hlt a List.mem_cons_self)
    obtain ⟨hreads, hext'⟩ := ih hadd fun a' ha' ↦ by
      rw [hext.capacity]
      exact hlt a' (List.mem_cons_of_mem _ ha')
    refine ⟨?_, hext'.trans hext⟩
    simpa using hreads

end RowBuilder

/-! ## Folding a graph -/

namespace Graph

/-- The graph's automaton under construction, with all its rows. -/
def folding (g : Graph α) : Folding :=
  (Folding.initial g).addRows g.nodes g.nodes.size Nfa.entry

/-- The nodes that are states, in the order of the states. -/
def stateNodes (g : Graph α) : Array Nat := g.folding.order.members

/-- The nodes that are assertions, in the order of their numbers. -/
def assertionNodes (g : Graph α) : Array Nat := g.folding.walker.assertions.members

/-- A path ends in a node of the graph that consumes. -/
theorem consuming_of_mem_paths {g : Graph α} {source : Nat} {p : Path} (hp : p ∈ g.paths source) :
    ∃ node, g.nodes[p.target]? = some node ∧ node.isConsuming = true := by
  obtain ⟨-, node, next, -, -, hp⟩ := mem_paths.mp hp
  obtain ⟨via, hleads, -⟩ := mem_pathsFrom.mp hp
  exact hleads.exists_target

theorem lt_of_mem_paths {g : Graph α} {source : Nat} {p : Path} (hp : p ∈ g.paths source) :
    p.target < g.nodes.size := by
  obtain ⟨node, hnode, -⟩ := consuming_of_mem_paths hp
  exact (Array.getElem?_eq_some_iff.mp hnode).1

end Graph

namespace Folding

/-- A row stands for the paths that leave its node, but for those that earlier ones cover. -/
structure Row (g : Graph α) (f : Folding) (state source : Nat) (kept : List Path) : Prop where
  pruned : Pruned g.nodes (g.paths source) kept
  numbered : ∀ p ∈ kept, Numbered f.walker.assertions (p.work g.nodes)
  placed : ∀ t ∈ f.table.row state, t.Placed f.order f.closures
  read : (f.table.row state).map (Transition.read f.order f.closures) =
    kept.map (Path.arrival g.nodes f.walker.assertions)

/-- The arrivals that a row stands for. -/
def arrivals (f : Folding) (state : Nat) : List Arrival :=
  (f.table.row state).map (Transition.read f.order f.closures)

/-- The rows of the first `count` states are made. -/
structure Rows (g : Graph α) (f : Folding) (count : Nat) : Prop where
  table : f.table.Holds count
  idle : f.walker.Idle g.nodes
  capacity : f.order.capacity = g.nodes.size
  order : [Graph.final, g.entry] <+: f.order.toList
  row : ∀ state source, state < count → f.order.members[state]? = some source →
    ∃ kept, f.Row g state source kept

variable {g : Graph α} {f : Folding} {count : Nat}

theorem Rows.members_zero (h : f.Rows g count) : f.order.members[0]? = some Graph.final := by
  obtain ⟨more, hmore⟩ := h.order
  rw [← Array.getElem?_toList]
  exact (congrArg (·[0]?) hmore).symm

/-- A transition stands for a path. -/
theorem Row.exists_path {state source : Nat} {kept : List Path} (h : f.Row g state source kept)
    {t : Transition} (ht : t ∈ f.table.row state) :
    ∃ p ∈ kept, p.arrival g.nodes f.walker.assertions = t.read f.order f.closures := by
  have hmem := List.mem_map_of_mem (f := Transition.read f.order f.closures) ht
  rw [h.read] at hmem
  exact List.mem_map.mp hmem

/-- A row keeps its meaning when more rows are made. -/
theorem Row.mono {f' : Folding} {state source : Nat} {kept : List Path}
    (h : f.Row g state source kept) (htable : f'.table.row state = f.table.row state)
    (horder : f.order.toList <+: f'.order.toList)
    (hclosures : f.closures.toList <+: f'.closures.toList)
    (hassertions : f.walker.assertions.toList <+: f'.walker.assertions.toList) :
    f'.Row g state source kept where
  pruned := h.pruned
  numbered p hp := (h.numbered p hp).mono hassertions
  placed t ht := (h.placed t (htable ▸ ht)).mono horder hclosures
  read := by
    rw [htable]
    have hleft := List.map_congr_left fun t ht ↦ (h.placed t ht).read_eq horder hclosures
    have hright : kept.map (Path.arrival g.nodes f'.walker.assertions) =
        kept.map (Path.arrival g.nodes f.walker.assertions) :=
      List.map_congr_left fun p hp ↦ by
        rw [Path.arrival, (h.numbered p hp).map_relabel hassertions, Path.arrival]
    rw [hleft, hright, h.read]

/-- The row made by exploring a node. -/
def nextRow (nodes : Array (Node α)) (f : Folding) (source : Nat) : RowBuilder :=
  (f.walker.explore nodes source).reached.foldl RowBuilder.add ⟨f.order, f.closures, #[]⟩

theorem addRow_eq (nodes : Array (Node α)) (f : Folding) (source : Nat) :
    f.addRow nodes source = ⟨(f.nextRow nodes source).order, (f.nextRow nodes source).closures,
      f.table.addRow (f.nextRow nodes source).transitions, f.walker.explore nodes source⟩ := rfl

/-- Exploring the node of the next state reaches the ends of the paths that leave it. -/
theorem Rows.explore (h : f.Rows g count) {source : Nat} (hcount : count ≠ 0)
    (hsource : f.order.members[count]? = some source) :
    ∃ kept, Pruned g.nodes (g.paths source) kept ∧
      (f.walker.explore g.nodes source).reached.toList =
        kept.map (Path.arrival g.nodes (f.walker.explore g.nodes source).assertions) ∧
      (∀ p ∈ kept, Numbered (f.walker.explore g.nodes source).assertions (p.work g.nodes)) ∧
      (f.walker.explore g.nodes source).Idle g.nodes ∧
      f.walker.assertions.toList <+: (f.walker.explore g.nodes source).assertions.toList := by
  have hne : source ≠ Graph.final := fun heq ↦
    hcount (SparseSet.eq_of_getElem?_members hsource (heq ▸ h.members_zero))
  have hpaths : g.paths source =
      (g.nodes[source]?.elim [] Node.out).flatMap (pathsFrom g.nodes []) := if_neg hne
  exact hpaths ▸ h.idle.explore source

theorem Rows.lt_of_reached (h : f.Rows g count) {source : Nat} (hcount : count ≠ 0)
    (hsource : f.order.members[count]? = some source) :
    ∀ a ∈ (f.walker.explore g.nodes source).reached.toList, a.target < f.order.capacity := by
  intro a ha
  obtain ⟨kept, hpruned, hreached, -⟩ := h.explore hcount hsource
  rw [hreached] at ha
  obtain ⟨p, hp, rfl⟩ := List.mem_map.mp ha
  exact h.capacity ▸ Graph.lt_of_mem_paths (hpruned.subset hp)

/-- The next row stands for what is reached from its node. -/
theorem Rows.reads_nextRow (h : f.Rows g count) {source : Nat} (hcount : count ≠ 0)
    (hsource : f.order.members[count]? = some source) :
    (f.nextRow g.nodes source).Reads (f.walker.explore g.nodes source).reached.toList ∧
      (f.nextRow g.nodes source).Extends ⟨f.order, f.closures, #[]⟩ := by
  have hstart : (⟨f.order, f.closures, #[]⟩ : RowBuilder).Reads [] := ⟨nofun, rfl⟩
  have hreads := hstart.foldl_add _ (h.lt_of_reached hcount hsource)
  rwa [Array.foldl_toList] at hreads

/-- The row of the next state is made by exploring its node. -/
theorem Rows.addRow (h : f.Rows g count) {source : Nat} (hcount : count ≠ 0)
    (hsource : f.order.members[count]? = some source) :
    (f.addRow g.nodes source).Rows g (count + 1) := by
  obtain ⟨kept, hpruned, hreached, hnumbered, hidle, hassertions⟩ := h.explore hcount hsource
  obtain ⟨hreads, hext⟩ := h.reads_nextRow hcount hsource
  refine ⟨h.table.addRow _, hidle, hext.capacity.trans h.capacity, h.order.trans hext.order,
    fun state source' hstate hsource' ↦ ?_⟩
  rcases Nat.lt_or_eq_of_le (Nat.le_of_lt_succ hstate) with hlt | rfl
  · have hsize : count < f.order.members.size := (Array.getElem?_eq_some_iff.mp hsource).1
    have hold := getElem?_extends hext.order (Nat.lt_trans hlt hsize)
    obtain ⟨kept', hrow⟩ := h.row state source' hlt (hold.symm.trans hsource')
    exact ⟨kept', hrow.mono (h.table.row_addRow _ hlt) hext.order hext.closures hassertions⟩
  · have hold := getElem?_extends hext.order (Array.getElem?_eq_some_iff.mp hsource).1
    have hsame : source' = source := Option.some.inj (hsource'.symm.trans (hold.trans hsource))
    have hrow := h.table.row_addRow_self (f.nextRow g.nodes source).transitions
    refine ⟨kept, hsame ▸ hpruned, hnumbered, fun t ht ↦ ?_, ?_⟩
    · exact hreads.placed t (hrow ▸ ht)
    · exact (congrArg _ hrow).trans (hreads.read.trans hreached)

theorem toList_order_initial (hentry : g.entry < g.nodes.size) (hne : g.entry ≠ Graph.final) :
    (initial g).order.toList = [Graph.final, g.entry] := by
  have hfinal : Graph.final < (SparseSet.ofCapacity g.nodes.size).capacity := by
    rw [SparseSet.capacity_ofCapacity]
    exact Nat.lt_of_le_of_lt (Nat.zero_le _) hentry
  have hfirst := SparseSet.toList_insert hfinal (by simp)
  rw [initial, SparseSet.toList_insert, hfirst]
  · rfl
  · simpa using hentry
  · rw [hfirst]
    simpa using hne

/-- The first two states are the final node and the entry. -/
theorem rows_initial (hentry : g.entry < g.nodes.size) (hne : g.entry ≠ Graph.final) :
    (initial g).Rows g 1 := by
  have horder := toList_order_initial hentry hne
  refine ⟨Table.holds_empty.addRow #[], Walker.idle_ofCount _, by simp [initial],
    horder ▸ List.prefix_rfl, fun state source hstate hsource ↦ ?_⟩
  cases Nat.lt_one_iff.mp hstate
  rw [← Array.getElem?_toList] at hsource
  have hsource' : source = Graph.final := by
    rw [show (initial g).order.members.toList = _ from horder] at hsource
    exact (Option.some.inj hsource).symm
  have hrow : (initial g).table.row 0 = [] := Table.holds_empty.row_addRow_self #[]
  refine ⟨[], ?_, nofun, ?_, ?_⟩
  · rw [hsource', Graph.paths, if_pos rfl]
    exact .nil
  · simp [hrow]
  · simp [hrow]

/-- What holds of the first row and of each row that is added holds in the end, when there is a row for
each state: there are no more states than nodes, so as many rounds make all rows. -/
theorem addRows_induction {P : Folding → Nat → Prop} (hrows : ∀ f count, P f count → f.Rows g count)
    (hstep : ∀ f count source, P f count → count ≠ 0 → f.order.members[count]? = some source →
      P (f.addRow g.nodes source) (count + 1))
    (h : P f count) (hcount : count ≠ 0) {rounds : Nat} (hrounds : g.nodes.size ≤ count + rounds) :
    ∃ count', P (f.addRows g.nodes rounds count) count' ∧
      (f.addRows g.nodes rounds count).order.size ≤ count' := by
  induction rounds generalizing f count with
  | zero =>
    refine ⟨count, h, Nat.le_trans f.order.size_le_capacity ?_⟩
    rw [(hrows f count h).capacity]
    exact hrounds
  | succ rounds ih =>
    rw [Folding.addRows]
    cases hsource : f.order.members[count]? with
    | none => exact ⟨count, h, Array.getElem?_eq_none_iff.mp hsource⟩
    | some source =>
      exact ih (hstep f count source h hcount hsource) (Nat.succ_ne_zero _) (by omega)

end Folding

namespace Graph

variable {g : Graph α}

/-- What holds of the first row and of each row that is added holds of the finished table. -/
theorem folding_induction {P : Folding → Nat → Prop} (hrows : ∀ f count, P f count → f.Rows g count)
    (hstep : ∀ f count source, P f count → count ≠ 0 → f.order.members[count]? = some source →
      P (f.addRow g.nodes source) (count + 1))
    (hinitial : P (Folding.initial g) 1) :
    ∃ count, P g.folding count ∧ g.folding.order.size ≤ count :=
  Folding.addRows_induction hrows hstep hinitial Nat.one_ne_zero (Nat.le_add_left _ _)

/-- Every state of the automaton has its row. -/
theorem exists_rows_folding (hentry : g.entry < g.nodes.size) (hne : g.entry ≠ final) :
    ∃ count, g.folding.Rows g count ∧ g.folding.order.size ≤ count :=
  folding_induction (fun _ _ h ↦ h) (fun _ _ _ h hcount hsource ↦ h.addRow hcount hsource)
    (Folding.rows_initial hentry hne)

theorem exists_row_folding (hentry : g.entry < g.nodes.size) (hne : g.entry ≠ final)
    {state source : Nat} (h : g.stateNodes[state]? = some source) :
    ∃ kept, g.folding.Row g state source kept := by
  obtain ⟨count, hrows, hsize⟩ := exists_rows_folding hentry hne
  exact hrows.row state source
    (Nat.lt_of_lt_of_le (Array.getElem?_eq_some_iff.mp h).1 hsize) h

theorem exists_row_of_lt (hentry : g.entry < g.nodes.size) (hne : g.entry ≠ final) {state : Nat}
    (h : state < g.stateNodes.size) : ∃ source kept, g.folding.Row g state source kept :=
  ⟨_, exists_row_folding hentry hne (Array.getElem?_eq_getElem h)⟩

theorem stateNodes_final (hentry : g.entry < g.nodes.size) (hne : g.entry ≠ final) :
    g.stateNodes[Nfa.final]? = some final := by
  obtain ⟨count, hrows, -⟩ := exists_rows_folding hentry hne
  exact hrows.members_zero

theorem stateNodes_entry (hentry : g.entry < g.nodes.size) (hne : g.entry ≠ final) :
    g.stateNodes[Nfa.entry]? = some g.entry := by
  obtain ⟨count, hrows, -⟩ := exists_rows_folding hentry hne
  obtain ⟨more, hmore⟩ := hrows.order
  rw [← Array.getElem?_toList]
  exact (congrArg (·[1]?) hmore).symm

theorem states_ofGraph (g : Graph α) : (Nfa.ofGraph g).states =
    g.stateNodes.map fun id ↦ g.nodes[id]?.elim .entry fun n ↦ State.ofKind n.kind := rfl

theorem size_ofGraph (g : Graph α) : (Nfa.ofGraph g).size = g.stateNodes.size := by
  rw [Nfa.size, states_ofGraph, Array.size_map]

end Graph

/-! ## What a row says -/

theorem markers_map_relabel (s : SparseSet) (work : List ZeroWidth) :
    markers (work.map (ZeroWidth.relabel s)) = markers work := by
  rw [markers, List.filterMap_map]
  apply congrArg (List.filterMap · work)
  funext op
  cases op <;> rfl

/-- Assertions may be told apart by their numbers. -/
theorem Numbered.allows_map_relabel {s : SparseSet} {work : List ZeroWidth} (h : Numbered s work)
    (truth : Nat → Bool) :
    allows (fun i ↦ truth (s.members.getD i 0)) (work.map (ZeroWidth.relabel s)) =
      allows truth work := by
  rw [Bool.eq_iff_iff, allows, allows, List.all_map, List.all_eq_true, List.all_eq_true]
  refine forall_congr' fun op ↦ imp_congr_right fun hop ↦ ?_
  cases op with
  | mark side group => exact Iff.rfl
  | assert id =>
    obtain ⟨i, hi⟩ := List.mem_iff_getElem?.mp (h id hop)
    rw [SparseSet.toList, Array.getElem?_toList] at hi
    simp only [Function.comp_apply, ZeroWidth.relabel, SparseSet.position?_eq_some_iff.mpr hi,
      Option.getD_some, Array.getD_eq_getD_getElem?, hi]

theorem exists_of_mem_map_relabel {s : SparseSet} {work : List ZeroWidth} {index : Nat}
    (h : .assert index ∈ work.map (ZeroWidth.relabel s)) :
    ∃ id, .assert id ∈ work ∧ (s.position? id).getD 0 = index := by
  obtain ⟨op, hop, heq⟩ := List.mem_map.mp h
  cases op with
  | mark side group => cases heq
  | assert id =>
    cases heq
    exact ⟨id, hop, rfl⟩

/-- The number that an assertion gets is one of those given. -/
theorem Numbered.lt_of_mem_map_relabel {s : SparseSet} {work : List ZeroWidth} (h : Numbered s work)
    {index : Nat} (hindex : .assert index ∈ work.map (ZeroWidth.relabel s)) : index < s.size := by
  obtain ⟨id, hid, rfl⟩ := exists_of_mem_map_relabel hindex
  obtain ⟨i, hi⟩ := List.mem_iff_getElem?.mp (h id hid)
  rw [SparseSet.toList, Array.getElem?_toList] at hi
  rw [SparseSet.position?_eq_some_iff.mpr hi, Option.getD_some]
  exact (Array.getElem?_eq_some_iff.mp hi).1

namespace Nfa

/-- The transitions of a state, each with its target and its work. -/
def ways (nfa : Nfa α) (state : Nat) : List (Nat × List ZeroWidth) :=
  (nfa.transitions state).map fun t ↦ (t.target, nfa.work t)

end Nfa

namespace Graph

variable {g : Graph α} {state source : Nat} {kept : List Path}

theorem work_ofGraph (g : Graph α) (t : Transition) :
    (Nfa.ofGraph g).work t = (t.read g.folding.order g.folding.closures).work := by
  obtain ⟨target, closure⟩ := t
  cases closure <;> rfl

theorem ways_eq_arrivals (g : Graph α) (state : Nat) :
    ((Nfa.ofGraph g).ways state).map (fun way ↦ (g.stateNodes.getD way.1 0, way.2)) =
      (g.folding.arrivals state).map Arrival.way := by
  rw [Nfa.ways, Folding.arrivals, List.map_map, List.map_map]
  refine List.map_congr_left fun t _ ↦ ?_
  rw [Function.comp_apply, work_ofGraph]
  rfl

theorem ways_ofGraph (h : g.folding.Row g state source kept) :
    ((Nfa.ofGraph g).ways state).map (fun way ↦ (g.stateNodes.getD way.1 0, way.2)) =
      kept.map fun p ↦
        (p.target, (p.work g.nodes).map (ZeroWidth.relabel g.folding.walker.assertions)) := by
  rw [ways_eq_arrivals, Folding.arrivals, h.read, List.map_map]
  rfl

/-- What may be taken of a row is what may be taken of the paths it stands for. -/
theorem taken_ways (h : g.folding.Row g state source kept) (truth : Nat → Bool) :
    (taken (fun i ↦ truth (g.assertionNodes.getD i 0)) ((Nfa.ofGraph g).ways state)).map
        (fun way ↦ (g.stateNodes.getD way.1 0, way.2)) =
      taken truth (kept.map (Path.outline g.nodes)) := by
  rw [← taken_map _ (g.stateNodes.getD · 0), ways_ofGraph h, taken, taken, List.filter_map,
    List.filter_map, List.map_map, List.map_map]
  have hfilter : kept.filter ((fun way ↦
        allows (fun i ↦ truth (g.assertionNodes.getD i 0)) way.2) ∘ fun p ↦
          (p.target, (p.work g.nodes).map (ZeroWidth.relabel g.folding.walker.assertions))) =
      kept.filter ((fun way ↦ allows truth way.2) ∘ Path.outline g.nodes) :=
    List.filter_congr fun p hp ↦ (h.numbered p hp).allows_map_relabel truth
  rw [hfilter]
  apply List.map_congr_left
  intro p _
  simp [Path.outline, markers_map_relabel]

/-- Different states are different nodes. -/
theorem stateNodes_injective {i j : Nat} (hi : i < g.stateNodes.size) (hj : j < g.stateNodes.size)
    (heq : g.stateNodes.getD i 0 = g.stateNodes.getD j 0) : i = j := by
  rw [Array.getD_eq_getD_getElem?, Array.getD_eq_getD_getElem?, Array.getElem?_eq_getElem hi,
    Array.getElem?_eq_getElem hj, Option.getD_some, Option.getD_some] at heq
  exact SparseSet.eq_of_getElem?_members (Array.getElem?_eq_getElem hi)
    (heq ▸ Array.getElem?_eq_getElem hj)

theorem lt_of_mem_taken_ways (h : g.folding.Row g state source kept) {truth : Nat → Bool}
    {way : Nat × List (Side × Nat)} (hway : way ∈ taken truth ((Nfa.ofGraph g).ways state)) :
    way.1 < g.stateNodes.size := by
  obtain ⟨way', hway', rfl⟩ := List.mem_map.mp hway
  obtain ⟨t, ht, rfl⟩ := List.mem_map.mp (List.mem_filter.mp hway').1
  exact (h.placed t ht).target

/-- The first transition to each state is the first path to its node. -/
theorem firstPerTarget_row (h : g.folding.Row g state source kept) (truth : Nat → Bool) :
    (firstPerTarget (taken (fun i ↦ truth (g.assertionNodes.getD i 0))
        ((Nfa.ofGraph g).ways state))).map (fun way ↦ (g.stateNodes.getD way.1 0, way.2)) =
      firstPerTarget (taken truth ((g.paths source).map (Path.outline g.nodes))) := by
  rw [h.pruned.firstPerTarget_taken truth, ← taken_ways h truth]
  exact (firstPerTarget_map (g.stateNodes.getD · 0) _ fun x hx y hy heq ↦
    stateNodes_injective (lt_of_mem_taken_ways h hx) (lt_of_mem_taken_ways h hy) heq).symm

/-- Folding keeps the order of preference: whatever assertions hold, the transitions of a state lead
to the same nodes in the same order, with the same group boundaries on the way, as the paths that
leave its node. -/
theorem firstPerTarget_ways (hentry : g.entry < g.nodes.size) (hne : g.entry ≠ final)
    (h : g.stateNodes[state]? = some source) (truth : Nat → Bool) :
    (firstPerTarget (taken (fun i ↦ truth (g.assertionNodes.getD i 0))
        ((Nfa.ofGraph g).ways state))).map (fun way ↦ (g.stateNodes.getD way.1 0, way.2)) =
      firstPerTarget (taken truth ((g.paths source).map (Path.outline g.nodes))) := by
  obtain ⟨kept, hrow⟩ := exists_row_folding hentry hne h
  exact firstPerTarget_row hrow truth

/-- The entry of a graph in which an assertion loops back to a group that may be passed by. -/
theorem firstPerTarget_ways_of_loop :
    let g : Graph Char := ⟨#[⟨.final, false, false, 0, []⟩, ⟨.atom 'a', false, false, 0, [0]⟩,
      ⟨.assert 'b', false, false, 0, [3, 1]⟩, ⟨.groupStart, false, true, 1, [2, 1]⟩,
      ⟨.entry, false, false, 0, [3, 2]⟩], 4, 1⟩
    g.entry < g.nodes.size ∧ g.entry ≠ final ∧ g.stateNodes[1]? = some 4 ∧
      ∀ truth : Nat → Bool,
        (firstPerTarget (taken (fun i ↦ truth (g.assertionNodes.getD i 0))
            ((Nfa.ofGraph g).ways 1))).map (fun way ↦ (g.stateNodes.getD way.1 0, way.2)) =
          firstPerTarget (taken truth ((g.paths 4).map (Path.outline g.nodes))) :=
  ⟨by decide, by decide, stateNodes_entry (by decide) (by decide), fun truth ↦
    firstPerTarget_ways (by decide) (by decide) (stateNodes_entry (by decide) (by decide)) truth⟩

end Graph

end Lockstep
