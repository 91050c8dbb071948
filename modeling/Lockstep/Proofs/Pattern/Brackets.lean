import Lockstep.Proofs.Nfa.Joints
import Lockstep.Proofs.Pattern.Compiled
import Lockstep.Proofs.Pattern.Context

/-!
# Brackets

Some patterns differ in how they are bracketed only: by a group that does not capture, by the empty
pattern beside an operand, or by the order in which sequences and choices are put together. Their
graphs differ by one joint at a time, wherever the patterns stand in a larger one, and folding leaves no
trace of joints. So they compile to one and the same automaton.
-/

namespace Lockstep

universe u

variable {α : Type u}

/-! ## One joint -/

/-- The numbers of the other nodes when the node numbered `joint` is left out. -/
def nameWithout? (joint id : Nat) : Option Nat :=
  if id < joint then some id else if id = joint then none else some (id - 1)

/-- What stands for a node when the node numbered `joint` is left out, and `into` for it. -/
def imageWithout (joint : Nat) (into : List Nat) (id : Nat) : List Nat :=
  (nameWithout? joint id).elim into ([·])

section

variable {joint id name : Nat} {into : List Nat}

theorem naming_nameWithout? (joint : Nat) : Naming (nameWithout? joint) := by
  intro id id' name hname hname'
  unfold nameWithout? at hname hname'
  split at hname <;> split at hname' <;> (try split at hname) <;> (try split at hname') <;>
    simp_all <;> omega

theorem nameWithout?_eq_none_iff : nameWithout? joint id = none ↔ id = joint := by
  unfold nameWithout?
  split
  · simp
    omega
  · split <;> simp_all

theorem nameWithout?_of_lt (h : id < joint) : nameWithout? joint id = some id := if_pos h

theorem nameWithout?_of_gt (h : joint < id) : nameWithout? joint id = some (id - 1) := by
  rw [nameWithout?, if_neg (by omega), if_neg (by omega)]

theorem imageWithout_self : imageWithout joint into joint = into := by
  rw [imageWithout, nameWithout?_eq_none_iff.mpr rfl]
  rfl

theorem imageWithout_of_lt (h : id < joint) : imageWithout joint into id = [id] := by
  rw [imageWithout, nameWithout?_of_lt h]
  rfl

theorem imageWithout_of_gt (h : joint < id) : imageWithout joint into id = [id - 1] := by
  rw [imageWithout, nameWithout?_of_gt h]
  rfl

theorem imageWithout_congr {into' : List Nat} (h : id ≠ joint) :
    imageWithout joint into' id = imageWithout joint into id := by
  rcases Nat.lt_or_gt_of_ne h with h | h
  · rw [imageWithout_of_lt h, imageWithout_of_lt h]
  · rw [imageWithout_of_gt h, imageWithout_of_gt h]

end

/-- A node that consumes nothing, tests nothing and marks nothing. -/
structure Node.Bare (node : Node α) : Prop where
  isConsuming : node.isConsuming = false
  ofNode? : ∀ id, ZeroWidth.ofNode? node id = none

namespace Node

theorem Bare.out {node : Node α} (h : node.Bare) (out : List Nat) : Bare { node with out := out } :=
  ⟨h.isConsuming, h.ofNode?⟩

theorem bare_empty : (empty : Node α).Bare := ⟨rfl, fun _ ↦ rfl⟩

theorem bare_alternate : (alternate : Node α).Bare := ⟨rfl, fun _ ↦ rfl⟩

theorem bare_groupStart : (groupStart none : Node α).Bare := ⟨rfl, fun _ ↦ rfl⟩

theorem bare_groupEnd : (groupEnd none : Node α).Bare := ⟨rfl, fun _ ↦ rfl⟩

end Node

/-- A node that only leads on, to other nodes, which `into` are the names of. -/
structure IsJoint (nodes : Array (Node α)) (joint : Nat) (into : List Nat) (node : Node α) :
    Prop where
  bare : node.Bare
  notMem_out : joint ∉ node.out
  into : node.out.flatMap (imageWithout joint into) = into
  single : (∃ next, node.out = [next]) ∨
    ∃ fork, ∀ {id : Nat} {node' : Node α}, nodes[id]? = some node' → joint ∈ node'.out →
      id = fork ∧ node'.kind = .alternate

theorem Jointed.of_append {nodes' nodes : Array (Node α)} {front back : List (Node α)} {node : Node α}
    {into : List Nat} (hclosed : Graph.Closed nodes' nodes'.size)
    (hnodes' : nodes'.toList = front ++ node :: back)
    (hnodes : nodes.toList = (front ++ back).map (Node.expand (imageWithout front.length into)))
    (hjoint : IsJoint nodes' front.length into node) :
    Jointed nodes' nodes (nameWithout? front.length) (imageWithout front.length into) := by
  have hget' : ∀ id : Nat, nodes'[id]? = (front ++ node :: back)[id]? := fun id ↦ by
    rw [← hnodes', Array.getElem?_toList]
  have hself : ∀ {id : Nat} {node' : Node α}, nodes'[id]? = some node' →
      nameWithout? front.length id = none → id = front.length ∧ node' = node := by
    intro id node' hnode' hid
    cases nameWithout?_eq_none_iff.mp hid
    rw [hget', List.getElem?_append_right (Nat.le_refl _), Nat.sub_self] at hnode'
    exact ⟨rfl, (Option.some.inj hnode').symm⟩
  constructor
  case lt_size =>
    intro id next node' hnode' hnext
    exact hclosed id (Array.getElem?_eq_some_iff.mp hnode').1 node' hnode' next hnext
  case naming => exact naming_nameWithout? _
  case image_name =>
    intro id name hname
    rw [imageWithout, hname]
    rfl
  case stays =>
    intro id name node' hnode' hname
    rw [hget'] at hnode'
    rw [← Array.getElem?_toList, hnodes, List.getElem?_map]
    have hsame : (front ++ back)[name]? = some node' := by
      rcases Nat.lt_trichotomy id front.length with hlt | rfl | hgt
      · cases (nameWithout?_of_lt hlt).symm.trans hname
        rw [List.getElem?_append_left hlt] at hnode' ⊢
        exact hnode'
      · cases (nameWithout?_eq_none_iff.mpr rfl).symm.trans hname
      · cases (nameWithout?_of_gt hgt).symm.trans hname
        obtain ⟨i, rfl⟩ := Nat.exists_eq_add_of_lt hgt
        rw [List.getElem?_append_right (by omega)] at hnode' ⊢
        rw [Nat.add_assoc, Nat.add_sub_cancel_left, List.getElem?_cons_succ] at hnode'
        rwa [Nat.add_sub_cancel, Nat.add_sub_cancel_left]
    rw [hsame]
    rfl
  case isConsuming_joint =>
    intro id node' hnode' hid
    obtain ⟨-, rfl⟩ := hself hnode' hid
    exact hjoint.bare.isConsuming
  case ofNode?_joint =>
    intro id node' hnode' hid
    obtain ⟨-, rfl⟩ := hself hnode' hid
    exact hjoint.bare.ofNode? id
  case image_joint =>
    intro id node' hnode' hid
    obtain ⟨rfl, rfl⟩ := hself hnode' hid
    rw [hjoint.into, imageWithout_self]
  case out_joint =>
    intro id next node' hnode' hid hnext
    obtain ⟨rfl, rfl⟩ := hself hnode' hid
    refine Option.ne_none_iff_exists'.mp fun hnone ↦ ?_
    exact hjoint.notMem_out (nameWithout?_eq_none_iff.mp hnone ▸ hnext)
  case single =>
    intro id node' hnode' hid
    obtain ⟨rfl, rfl⟩ := hself hnode' hid
    exact hjoint.single

/-- A node with one successor. -/
theorem IsJoint.of_out {nodes : Array (Node α)} {joint next : Nat} {node : Node α} (hbare : node.Bare)
    (hout : node.out = [next]) (hne : next ≠ joint) (into : List Nat) :
    IsJoint nodes joint (imageWithout joint into next) node where
  bare := hbare
  notMem_out hmem := hne (List.mem_singleton.mp (hout ▸ hmem)).symm
  into := by rw [hout, List.flatMap_singleton, imageWithout_congr hne]
  single := .inl ⟨next, hout⟩

/-! ## Blocks that fold alike -/

namespace Block

/-- Wherever the one block stands, the other may take its place, and the graph folds to the same
automaton. -/
def FoldsAlike (b' b : Block α) : Prop :=
  ∀ ⦃outer : Block α → Block α⦄ ⦃offset rest : Nat⦄, Frame outer offset rest → ∀ groups,
    Nfa.ofGraph ((outer b').graph groups) = Nfa.ofGraph ((outer b).graph groups)

variable {a b b' b'' c : Block α}

theorem FoldsAlike.symm (h : FoldsAlike b' b) : FoldsAlike b b' :=
  fun _ _ _ hframe groups ↦ (h hframe groups).symm

theorem FoldsAlike.trans (h : FoldsAlike b'' b') (h' : FoldsAlike b' b) : FoldsAlike b'' b :=
  fun _ _ _ hframe groups ↦ (h hframe groups).trans (h' hframe groups)

/-- A joint of a block is left out. -/
theorem Surrounds.ofGraph_eq {outer : Block α → Block α} {base next' : Nat}
    {front back before after : List (Node α)} {node : Node α} {joint : Nat} {into : List Nat}
    (h : Surrounds outer base b' front back next') (hbase : 0 < base) (hsize : b'.size = b.size + 1)
    (hnodes : b'.nodes base next' = before ++ node :: after)
    (hposition : joint = base + before.length)
    (hhead : imageWithout joint into (base + b'.head) = [base + b.head])
    (hfilled : ∀ next, imageWithout joint into next' = [next] →
      (before ++ after).map (Node.expand (imageWithout joint into)) = b.nodes base next)
    (groups : Nat) (hjoint : IsJoint ((outer b').graph groups).nodes joint into node) :
    Nfa.ofGraph ((outer b').graph groups) = Nfa.ofGraph ((outer b).graph groups) := by
  have hlt : before.length < b'.size := by
    have hlength := congrArg List.length hnodes
    rw [b'.length_nodes, List.length_append, List.length_cons] at hlength
    omega
  obtain ⟨rest, hentry⟩ := h.entry
  have hreplaces : Replaces (imageWithout joint into) base b' b :=
    ⟨fun i hi ↦ imageWithout_of_lt (by omega), hhead, fun i ↦ by
      rw [imageWithout_of_gt (by omega), hsize, ← Nat.add_assoc, Nat.add_right_comm,
        Nat.add_sub_cancel]⟩
  obtain ⟨next, hnext, hreplaced⟩ := h.replace hreplaces
  have hlength : joint = (front ++ before).length := by
    rw [List.length_append, h.length, hposition]
  have hwithout : Jointed ((outer b').graph groups).nodes ((outer b).graph groups).nodes
      (nameWithout? joint) (imageWithout joint into) := by
    subst hlength
    have hall : ((outer b').graph groups).nodes.toList =
        (front ++ before) ++ node :: (after ++ back) := by
      rw [h.nodes, hnodes]
      simp only [List.append_assoc, List.cons_append]
    refine Jointed.of_append (closed_graph _ _) hall ?_ hjoint
    · rw [hreplaced, ← hfilled next hnext]
      simp only [List.map_append, List.append_assoc]
  refine Graph.ofGraph_eq_of_jointed hwithout (wellFormed_graph _ _) ?_ ?_ rfl
  · exact nameWithout?_of_lt (by rw [Graph.final]; omega)
  · rw [hentry, hentry, hsize, nameWithout?_of_gt (by omega)]
    congr 1
    omega

variable {node : Node α}

/-- A bare node in front of a block, which stands behind it. -/
theorem foldsAlike_opening (hbare : node.Bare) (b : Block α) :
    FoldsAlike (b.wrap .opening node) b := by
  intro outer offset rest hframe groups
  obtain ⟨front, back, next', h⟩ := hframe.exists_surrounds (b.wrap .opening node)
  have hlt := b.head_lt
  have hnext : next' < 1 + offset ∨ 1 + offset + b.size < next' := h.next
  have hjoint : IsJoint ((outer (b.wrap .opening node)).graph groups).nodes (1 + offset + b.size) _
      { node with out := [1 + offset + b.head] } := .of_out (hbare.out _) rfl (by omega) []
  refine h.ofGraph_eq (by omega) rfl rfl (by rw [b.length_nodes]) ?_ (fun next hnext ↦ ?_) groups
    hjoint
  · exact imageWithout_self.trans (imageWithout_of_lt (by omega))
  · rw [List.append_nil]
    exact b.expand_nodes (fun i hi ↦ imageWithout_of_lt (by omega)) hnext

/-- A bare node behind a block. -/
theorem foldsAlike_closing (hbare : node.Bare) (b : Block α) :
    FoldsAlike (b.wrap .closing node) b := by
  intro outer offset rest hframe groups
  obtain ⟨front, back, next', h⟩ := hframe.exists_surrounds (b.wrap .closing node)
  have hlt := b.head_lt
  have hnext : next' < 1 + offset ∨ 1 + offset + b.size < next' := h.next
  have hjoint : IsJoint ((outer (b.wrap .closing node)).graph groups).nodes (1 + offset + b.size) _
      { node with out := [next'] } := .of_out (hbare.out _) rfl (by omega) []
  refine h.ofGraph_eq (by omega) rfl rfl (by rw [b.length_nodes]) ?_ (fun next hnext' ↦ ?_) groups
    hjoint
  · exact imageWithout_of_lt (Nat.add_lt_add_left b.head_lt _)
  · rw [List.append_nil]
    refine b.expand_nodes (fun i hi ↦ imageWithout_of_lt (by omega)) ?_
    rw [imageWithout_congr (by omega)] at hnext'
    exact imageWithout_self.trans hnext'

/-- A bare node before a block. -/
theorem foldsAlike_leaf_concat (hbare : node.Bare) (b : Block α) :
    FoldsAlike ((leaf node).concat b) b := by
  intro outer offset rest hframe groups
  obtain ⟨front, back, next', h⟩ := hframe.exists_surrounds ((leaf node).concat b)
  have hjoint : IsJoint ((outer ((leaf node).concat b)).graph groups).nodes (1 + offset) _
      { node with out := [1 + offset + 1 + b.head] } := .of_out (hbare.out _) rfl (by omega) []
  have hnodes : ((leaf node).concat b).nodes (1 + offset) next' =
      [] ++ { node with out := [1 + offset + 1 + b.head] } :: b.nodes (1 + offset + 1) next' := rfl
  refine h.ofGraph_eq (by omega) (Nat.add_comm _ _) hnodes (Nat.add_zero _).symm ?_
    (fun next hnext ↦ ?_) groups hjoint
  · refine imageWithout_self.trans ((imageWithout_of_gt (by omega)).trans ?_)
    congr 1
    omega
  · refine b.expand_nodes (fun i hi ↦ ?_) hnext
    rw [imageWithout_of_gt (by omega)]
    congr 1
    omega

section

variable (as bs cs : List (Block α))

/-- A choice with another one among its alternatives. -/
abbrev nested : Block α := alternatives (as ++ alternatives bs :: cs)

theorem size_nested : (nested as bs cs).size = width as + (width bs + 1 + width cs) + 1 := by
  simp [alternatives]

theorem nodes_nested (base exit : Nat) : (nested as bs cs).nodes base exit =
    (row as base exit ++ row bs (base + width as) exit) ++
      { Node.alternate with out := heads bs (base + width as) } ::
        (row cs (base + width as + width bs + 1) exit ++ [{ Node.alternate with
          out := heads as base ++ (base + width as + width bs) ::
            heads cs (base + width as + width bs + 1) }]) := by
  simp only [alternatives, row_append, heads_append, row, heads, List.append_assoc, List.cons_append,
    List.nil_append, Nat.add_assoc]

variable {as bs cs}

theorem eq_or_mem_of_getElem?_append_cons {β : Type u} {l₁ l₂ : List β} {x y : β} {i : Nat}
    (h : (l₁ ++ x :: l₂)[i]? = some y) : (i = l₁.length ∧ x = y) ∨ y ∈ l₁ ∨ y ∈ l₂ := by
  rcases Nat.lt_trichotomy i l₁.length with hlt | rfl | hgt
  · rw [List.getElem?_append_left hlt] at h
    exact .inr (.inl (List.mem_of_getElem? h))
  · rw [List.getElem?_append_right (Nat.le_refl _), Nat.sub_self] at h
    exact .inl ⟨rfl, Option.some.inj h⟩
  · obtain ⟨i, rfl⟩ := Nat.exists_eq_add_of_lt hgt
    rw [List.getElem?_append_right (by omega), Nat.add_assoc, Nat.add_sub_cancel_left,
      List.getElem?_cons_succ] at h
    exact .inr (.inr (List.mem_of_getElem? h))

/-- Of all nodes around a choice inside another one, the latter only leads to it. -/
theorem Surrounds.single_nested {outer : Block α → Block α} {base next' : Nat}
    {front back : List (Node α)} {groups id : Nat} {node : Node α}
    (h : Surrounds outer base (nested as bs cs) front back next')
    (hnode : ((outer (nested as bs cs)).graph groups).nodes[id]? = some node)
    (hid : base + width as + width bs ∈ node.out) :
    id = base + (nested as bs cs).head ∧ node.kind = .alternate := by
  have hsize := size_nested as bs cs
  have hhead : (nested as bs cs).head + 1 = _ := hsize
  have hnext := h.next
  have hlength := h.length
  have hnodes := h.nodes groups
  rw [nodes_nested, ← List.cons_append, ← List.append_assoc _ _ [_], ← List.append_assoc front,
    List.append_assoc _ [_] back] at hnodes
  rw [← Array.getElem?_toList, hnodes] at hnode
  rcases eq_or_mem_of_getElem?_append_cons hnode with ⟨rfl, rfl⟩ | hnode | hnode
  · refine ⟨?_, rfl⟩
    simp only [List.length_append, List.length_cons, length_row]
    omega
  · rcases List.mem_append.mp hnode with hnode | hnode
    · have := h.enters (.inl hnode) hid
      omega
    · rw [List.mem_append, List.mem_append, List.mem_cons] at hnode
      rcases hnode with (hnode | hnode) | rfl | hnode
      · have := mem_out_of_mem_row hnode hid
        omega
      · have := mem_out_of_mem_row hnode hid
        omega
      · have := mem_heads hid
        omega
      · have := mem_out_of_mem_row hnode hid
        omega
  · have := h.enters (.inr hnode) hid
    omega

/-- A choice inside a choice. -/
theorem foldsAlike_alternatives (as bs cs : List (Block α)) :
    FoldsAlike (nested as bs cs) (alternatives (as ++ (bs ++ cs))) := by
  intro outer offset rest hframe groups
  obtain ⟨front, back, next', h⟩ := hframe.exists_surrounds (nested as bs cs)
  obtain ⟨base, hbase⟩ : ∃ base, base = 1 + offset := ⟨_, rfl⟩
  rw [← hbase] at h
  have hsize := size_nested as bs cs
  have hhead : (nested as bs cs).head + 1 = _ := hsize
  have hnext := h.next
  have hsize' : (alternatives (as ++ (bs ++ cs))).size = width as + (width bs + width cs) + 1 := by
    simp [alternatives]
  have hinto : ∀ i < width bs, imageWithout (base + width as + width bs) (heads bs (base + width as))
      (base + width as + i) = [base + width as + i] := fun i hi ↦ imageWithout_of_lt (by omega)
  have hjoint : IsJoint ((outer (nested as bs cs)).graph groups).nodes
      (base + width as + width bs) (heads bs (base + width as))
      { Node.alternate with out := heads bs (base + width as) } := by
    refine ⟨Node.bare_alternate.out _, fun hmem ↦ ?_, ?_, .inr ⟨_, h.single_nested⟩⟩
    · exact Nat.lt_irrefl _ (mem_heads hmem).2
    · exact flatMap_heads hinto
  refine h.ofGraph_eq (b := alternatives (as ++ (bs ++ cs))) (by omega) (by omega)
    (nodes_nested as bs cs base next') ?_ ?_ (fun next hnext' ↦ ?_) groups hjoint
  · rw [List.length_append, length_row, length_row, Nat.add_assoc]
  · rw [imageWithout_of_gt (by omega)]
    have hhead' : (alternatives (as ++ (bs ++ cs))).head + 1 = _ := hsize'
    congr 1
    omega
  · have hbefore : ∀ i < width as, imageWithout (base + width as + width bs)
        (heads bs (base + width as)) (base + i) = [base + i] := fun i hi ↦
      imageWithout_of_lt (by omega)
    have hbehind : ∀ i < width cs, imageWithout (base + width as + width bs)
        (heads bs (base + width as)) (base + width as + width bs + 1 + i) =
          [base + width as + width bs + i] := fun i hi ↦ by
      rw [imageWithout_of_gt (by omega)]
      congr 1
      omega
    simp only [List.map_append, expand_row hbefore hnext', expand_row hinto hnext',
      expand_row hbehind hnext', List.map_singleton, Node.expand, List.flatMap_append,
      List.flatMap_cons, flatMap_heads hbefore, flatMap_heads hbehind, imageWithout_self]
    simp only [alternatives, row_append, heads_append, List.append_assoc, Nat.add_assoc]

end

theorem concat_assoc (a b c : Block α) : (a.concat b).concat c = a.concat (b.concat c) := by
  simp only [concat, List.append_assoc, Nat.add_assoc]

end Block

/-! ## Patterns that differ in their brackets -/

namespace Pattern

/-- The first pattern is the second one with other brackets. -/
inductive Rebracketed : Pattern α → Pattern α → Prop where
  | group (x : Pattern α) : Rebracketed (.group none x) x
  | emptyLeft (x : Pattern α) : Rebracketed (.concat .empty x) x
  | emptyRight (x : Pattern α) : Rebracketed (.concat x .empty) x
  | concat (x y z : Pattern α) :
    Rebracketed (.concat (.concat x y) z) (.concat x (.concat y z))
  | alternate (x y z : Pattern α) :
    Rebracketed (.alternate (.alternate x y) z) (.alternate x (.alternate y z))

theorem block_concat_assoc (x y z : Pattern α) :
    (concat (concat x y) z).block = (concat x (concat y z)).block :=
  Block.concat_assoc x.block y.block z.block

namespace Rebracketed

variable {x' x : Pattern α}

theorem groups_eq (h : Rebracketed x' x) : x'.groups = x.groups := by
  cases h <;> simp [Pattern.groups]

theorem foldsAlike_block (h : Rebracketed x' x) : Block.FoldsAlike x'.block x.block := by
  cases h with
  | group =>
    exact (Block.foldsAlike_closing Node.bare_groupEnd _).trans
      (Block.foldsAlike_opening Node.bare_groupStart _)
  | emptyLeft => exact Block.foldsAlike_leaf_concat Node.bare_empty _
  | emptyRight => exact Block.foldsAlike_closing Node.bare_empty _
  | concat x y z =>
    rw [block_concat_assoc]
    exact fun _ _ _ _ _ ↦ rfl
  | alternate x y z =>
    exact (Block.foldsAlike_alternatives [] [x.block, y.block] [z.block]).trans
      (Block.foldsAlike_alternatives [x.block] [y.block, z.block] []).symm

end Rebracketed

section

variable {c : Context α} {x' x : Pattern α} {limit : Nat}

/-- If two patterns have the same block, a pattern around them has the same graph. -/
theorem eq_of_ofPostorder_plug (hblock : x'.block = x.block) (hgroups : x'.groups = x.groups)
    {g' g : Graph α} (h' : Graph.ofPostorder limit (c.plug x').nodes = .ok g')
    (h : Graph.ofPostorder limit (c.plug x).nodes = .ok g) : g' = g := by
  rw [eq_graph_of_ofPostorder h', eq_graph_of_ofPostorder h, c.block_plug, c.block_plug, hblock,
    c.groups_plug_congr hgroups]

variable [Atom α] {nfa' nfa : Nfa α}

/-- If the blocks of two patterns fold alike, a pattern around them has the same automaton. -/
theorem eq_of_compile_plug (hblock : Block.FoldsAlike x'.block x.block)
    (hgroups : x'.groups = x.groups) (h' : (c.plug x').compile limit = .ok nfa')
    (h : (c.plug x).compile limit = .ok nfa) : nfa' = nfa := by
  obtain ⟨_, _, hframe⟩ := c.exists_frame
  have hfold : Nfa.ofGraph ((c.plug x').block.graph (c.plug x').groups) =
      Nfa.ofGraph ((c.plug x).block.graph (c.plug x).groups) := by
    rw [c.block_plug, c.block_plug, c.groups_plug_congr hgroups, hblock hframe]
  rw [eq_of_compile h', eq_of_compile h, hfold]

end

variable [Atom α]

/-- Brackets compile away: inside any pattern, a group that does not capture, the empty pattern beside
an operand, and the order in which sequences and choices are put together make no difference to the
automaton. The order of sequences makes none to the graph either. -/
theorem compile_plug_of_rebracketed (c : Context α) (limit : Nat) :
    (∀ {x' x : Pattern α} {nfa' nfa : Nfa α}, Rebracketed x' x →
      (c.plug x').compile limit = .ok nfa' → (c.plug x).compile limit = .ok nfa → nfa' = nfa) ∧
    ∀ {x y z : Pattern α} {g' g : Graph α},
      Graph.ofPostorder limit (c.plug (.concat (.concat x y) z)).nodes = .ok g' →
        Graph.ofPostorder limit (c.plug (.concat x (.concat y z))).nodes = .ok g → g' = g := by
  constructor
  · exact fun hbrackets ↦ eq_of_compile_plug hbrackets.foldsAlike_block hbrackets.groups_eq
  · intro x y z g' g
    exact eq_of_ofPostorder_plug (block_concat_assoc x y z) (Rebracketed.concat x y z).groups_eq

/-- Choices and sequences inside a group inside a loop, with an assertion and the empty pattern among
their operands. -/
theorem compile_plug_in_nullable_loop :
    let c : Context Char := .zeroOrMore true (.group (some 1) .hole)
    let choice : Pattern Char := .alternate (.alternate (.atom 'a') (.assert 'b')) .empty
    let choice' : Pattern Char := .alternate (.atom 'a') (.alternate (.assert 'b') .empty)
    (∃ nfa' nfa, Rebracketed choice choice' ∧ (c.plug choice).compile 20 = .ok nfa' ∧
      (c.plug choice').compile 20 = .ok nfa ∧ nfa' = nfa) ∧
    ∃ g' g,
      Graph.ofPostorder 20 (c.plug (.concat (.concat choice (.assert 'c')) .empty)).nodes = .ok g' ∧
      Graph.ofPostorder 20 (c.plug (.concat choice (.concat (.assert 'c') .empty))).nodes = .ok g ∧
        g' = g := by
  intro c choice choice'
  obtain ⟨nfa', h'⟩ : ∃ nfa', (c.plug choice).compile 20 = .ok nfa' := ⟨_, rfl⟩
  obtain ⟨nfa, h⟩ : ∃ nfa, (c.plug choice').compile 20 = .ok nfa := ⟨_, rfl⟩
  obtain ⟨g', hg'⟩ : ∃ g', Graph.ofPostorder 20
      (c.plug (.concat (.concat choice (.assert 'c')) .empty)).nodes = .ok g' := ⟨_, rfl⟩
  obtain ⟨g, hg⟩ : ∃ g, Graph.ofPostorder 20
      (c.plug (.concat choice (.concat (.assert 'c') .empty))).nodes = .ok g := ⟨_, rfl⟩
  have hbrackets : Rebracketed choice choice' := .alternate _ _ _
  exact ⟨⟨nfa', nfa, hbrackets, h', h, (compile_plug_of_rebracketed c 20).1 hbrackets h' h⟩,
    g', g, hg', hg, (compile_plug_of_rebracketed c 20).2 hg' hg⟩

end Pattern

end Lockstep
