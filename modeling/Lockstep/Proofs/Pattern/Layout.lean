import Lockstep.Proofs.Graph.Block
import Lockstep.Proofs.Graph.Region
import Lockstep.Proofs.Graph.Verdict

/-!
# The layout of a graph

The graph wired from a pattern, node by node: after the final node stand the nodes of the pattern's
block, and the entry comes last. So the graph of a pattern is known from its block alone.
-/

namespace Lockstep

universe u

variable {α : Type u}

/-! ## The block of a pattern -/

theorem Pattern.flatMap_branches {image : Nat → List Nat} {greedy : Bool}
    {body body' exit exit' : Nat} (hbody : image body = [body']) (hexit : image exit = [exit']) :
    (branches greedy body exit).flatMap image = branches greedy body' exit' := by
  cases greedy <;> simp [branches, hbody, hexit]

namespace Block.Operator

open Pattern (branches flatMap_branches)

/-- A loop that may be left before its first iteration. -/
def looping (greedy : Bool) : Operator := ⟨true, true, branches greedy, flatMap_branches⟩

/-- A loop that may be left after its first iteration. -/
def repeating (greedy : Bool) : Operator := ⟨true, false, branches greedy, flatMap_branches⟩

/-- A way past the operand. -/
def bypassing (greedy : Bool) : Operator := ⟨false, true, branches greedy, flatMap_branches⟩

/-- A marker before the operand. -/
def opening : Operator := ⟨false, true, fun body _ ↦ [body], fun hbody _ ↦ by simp [hbody]⟩

/-- A marker after the operand. -/
def closing : Operator := ⟨true, false, fun _ exit ↦ [exit], fun _ hexit ↦ by simp [hexit]⟩

end Block.Operator

namespace Pattern

/-- The nodes of a pattern. -/
def block : Pattern α → Block α
  | .empty => .leaf .empty
  | .atom a => .leaf (.atom a)
  | .assert a => .leaf (.assert a)
  | .concat p q => p.block.concat q.block
  | .alternate p q => .alternatives [p.block, q.block]
  | .zeroOrMore greedy p => p.block.wrap (.looping greedy) (.zeroOrMore greedy)
  | .oneOrMore greedy p => p.block.wrap (.repeating greedy) (.oneOrMore greedy)
  | .zeroOrOne greedy p => p.block.wrap (.bypassing greedy) (.zeroOrOne greedy)
  | .group number p => (p.block.wrap .opening (.groupStart number)).wrap .closing (.groupEnd number)

/-- A block has a node for each node of the pattern, but for concatenations. -/
theorem size_block (p : Pattern α) : p.block.size = p.nodes.countP (·.kind.makesState) := by
  induction p with
  | empty | atom | assert => rfl
  | concat p q ihp ihq =>
    simp [block, Block.concat, nodes, ihp, ihq, Node.concat, Kind.makesState]
  | alternate p q ihp ihq =>
    simp [block, Block.alternatives, nodes, ihp, ihq, Node.alternate, Kind.makesState, Nat.add_assoc]
  | zeroOrMore greedy p ih =>
    simp [block, Block.wrap, nodes, ih, Node.zeroOrMore, Kind.makesState]
  | oneOrMore greedy p ih =>
    simp [block, Block.wrap, nodes, ih, Node.oneOrMore, Kind.makesState]
  | zeroOrOne greedy p ih =>
    simp [block, Block.wrap, nodes, ih, Node.zeroOrOne, Kind.makesState]
  | group number p ih =>
    simp [block, Block.wrap, nodes, ih, Node.groupStart, Node.groupEnd, Kind.makesState]

end Pattern

/-! ## Blocks in a graph -/

/-- The nodes from `lo` on are those of the list. -/
def Graph.Holds (nodes : Array (Node α)) (lo : Nat) (l : List (Node α)) : Prop :=
  ∀ i node, l[i]? = some node → nodes[lo + i]? = some node

namespace Graph.Holds

variable {nodes : Array (Node α)} {lo : Nat} {l l' : List (Node α)} {node : Node α}

theorem append (h : Holds nodes lo l) (h' : Holds nodes (lo + l.length) l') :
    Holds nodes lo (l ++ l') := by
  intro i node hnode
  by_cases hi : i < l.length
  · exact h i node (List.getElem?_append_left hi ▸ hnode)
  · rw [List.getElem?_append_right (Nat.not_lt.mp hi)] at hnode
    have := h' _ node hnode
    rwa [Nat.add_assoc, Nat.add_sub_cancel' (Nat.not_lt.mp hi)] at this

theorem singleton (h : nodes[lo]? = some node) : Holds nodes lo [node] := by
  intro i node' hnode'
  obtain ⟨hi, rfl⟩ := List.getElem?_eq_some_iff.mp hnode'
  cases Nat.lt_one_iff.mp hi
  exact h

theorem of_append (h : Holds nodes lo (l ++ l')) :
    Holds nodes lo l ∧ Holds nodes (lo + l.length) l' := by
  refine ⟨fun i node hnode ↦ h i node ?_, fun i node hnode ↦ ?_⟩
  · rw [List.getElem?_append_left (List.getElem?_eq_some_iff.mp hnode).1, hnode]
  · have hget : (l ++ l')[l.length + i]? = l'[l.length + i - l.length]? :=
      List.getElem?_append_right (Nat.le_add_right l.length i)
    rw [Nat.add_sub_cancel_left, hnode] at hget
    exact Nat.add_assoc lo l.length i ▸ h _ node hget

theorem getElem?_eq (h : Holds nodes lo [node]) : nodes[lo]? = some node := h 0 node rfl

section

variable {b c : Block α} {exit : Nat}

theorem of_concat (h : Holds nodes lo ((b.concat c).nodes lo exit)) :
    Holds nodes lo (b.nodes lo (lo + b.size + c.head)) ∧
      Holds nodes (lo + b.size) (c.nodes (lo + b.size) exit) := by
  obtain ⟨hb, hc⟩ := h.of_append
  rw [b.length_nodes] at hc
  exact ⟨hb, hc⟩

theorem of_alternatives (h : Holds nodes lo ((Block.alternatives [b, c]).nodes lo exit)) :
    Holds nodes lo (b.nodes lo exit) ∧ Holds nodes (lo + b.size) (c.nodes (lo + b.size) exit) ∧
      nodes[lo + b.size + c.size]? =
        some { Node.alternate with out := [lo + b.head, lo + b.size + c.head] } := by
  obtain ⟨hrow, hnode⟩ := h.of_append
  obtain ⟨hb, hrest⟩ := hrow.of_append
  rw [b.length_nodes] at hrest
  rw [Block.length_row, Block.width_cons, Block.width_cons, Block.width_nil, Nat.add_zero,
    ← Nat.add_assoc] at hnode
  exact ⟨hb, hrest.of_append.1, hnode.getElem?_eq⟩

theorem of_wrap {o : Block.Operator} (h : Holds nodes lo ((b.wrap o node).nodes lo exit)) :
    Holds nodes lo (b.nodes lo (if o.back then lo + b.size else exit)) ∧
      nodes[lo + b.size]? = some { node with out := o.out (lo + b.head) exit } := by
  obtain ⟨hb, hnode⟩ := h.of_append
  rw [b.length_nodes] at hnode
  exact ⟨hb, hnode.getElem?_eq⟩

end

theorem toList_eq (h : Holds nodes 0 l) (hsize : nodes.size = l.length) : nodes.toList = l := by
  refine List.ext_getElem? fun i ↦ ?_
  by_cases hi : i < l.length
  · have := h i _ (List.getElem?_eq_getElem hi)
    rw [Array.getElem?_toList, List.getElem?_eq_getElem hi, ← this, Nat.zero_add]
  · rw [List.getElem?_eq_none (Nat.not_lt.mp hi), List.getElem?_eq_none]
    rw [Array.length_toList, hsize]
    exact Nat.not_lt.mp hi

end Graph.Holds

namespace Block

/-- The nodes of a block stand from `lo` on, and lead from `head` to `exit`. -/
def Stands (b : Block α) (lo : Nat) (nodes : Array (Node α)) (head exit : Nat) : Prop :=
  head = lo + b.head ∧ Graph.Holds nodes lo (b.nodes lo exit)

variable {b c : Block α} {lo head mid exit : Nat} {nodes : Array (Node α)} {node : Node α}

theorem stands_leaf (h : nodes[lo]? = some { node with out := [exit] }) :
    (leaf node).Stands lo nodes lo exit := ⟨rfl, .singleton h⟩

theorem Stands.concat (h : b.Stands lo nodes head mid)
    (h' : c.Stands (lo + b.size) nodes mid exit) : (b.concat c).Stands lo nodes head exit := by
  obtain ⟨hhead, hb⟩ := h
  obtain ⟨rfl, hc⟩ := h'
  exact ⟨hhead, hb.append ((b.length_nodes _ _).symm ▸ hc)⟩

theorem Stands.alternate {left right : Nat} (h : b.Stands lo nodes left exit)
    (h' : c.Stands (lo + b.size) nodes right exit)
    (hnode : nodes[lo + b.size + c.size]? = some { Node.alternate with out := [left, right] }) :
    (alternatives [b, c]).Stands lo nodes (lo + b.size + c.size) exit := by
  obtain ⟨rfl, hb⟩ := h
  obtain ⟨rfl, hc⟩ := h'
  refine ⟨Nat.add_assoc _ _ _, Graph.Holds.append (Graph.Holds.append hb ?_) (.singleton ?_)⟩
  · rw [b.length_nodes, row, row, List.append_nil]
    exact hc
  · rw [length_row, width_cons, width_cons, width_nil, Nat.add_zero, ← Nat.add_assoc]
    exact hnode

theorem Stands.wrap {o : Operator} {body : Nat} (id : Nat)
    (h : b.Stands lo nodes body (if o.back then id else exit)) (hid : id = lo + b.size)
    (hnode : nodes[id]? = some { node with out := o.out body exit })
    (hhead : head = if o.first then id else body) : (b.wrap o node).Stands lo nodes head exit := by
  obtain ⟨rfl, hb⟩ := h
  subst hid hhead
  refine ⟨?_, hb.append (.singleton ((b.length_nodes _ _).symm ▸ hnode))⟩
  rw [Block.wrap]
  split <;> rfl

end Block

namespace Builder

variable {b b' : Builder α} {limit index : Nat} {nodes : Array (Node α)}

/-- A sequence of nodes makes a state of each, but for concatenations. -/
theorem size_of_pushAll {sequence : List (Node α)} (h : b.pushAll limit index sequence = .ok b') :
    b'.nodes.size = b.nodes.size + sequence.countP (·.kind.makesState) := by
  induction sequence generalizing b index with
  | nil =>
    cases h
    rfl
  | cons node sequence ih =>
    cases hplace : b.place? node with
    | none =>
      rw [pushAll, push, hplace] at h
      cases h
    | some placed =>
      obtain ⟨-, htally, -⟩ := tally_of_place? hplace
      have hstates : placed.nodes.size = b.nodes.size + node.kind.makesState.toNat :=
        congrArg Tally.states htally
      rw [ih (pushAll_place h hplace), hstates, List.countP_cons]
      cases node.kind.makesState
      · rfl
      · simp only [Bool.toNat_true, if_true]
        omega

namespace Placed

variable {rest : List (Node α)} {way way' : Array (Node α) → Nat → Nat → Prop} {groups : Nat}
  {f : Fragment}

/-- A way through the nodes may be told with less. -/
theorem imp (h : Placed limit rest b b' way groups nodes f)
    (himp : ∀ nodes head exit, way nodes head exit → way' nodes head exit) :
    Placed limit rest b b' way' groups nodes f :=
  { h with stands := { h.stands with
      way := fun nodes' exit hagree ↦ himp _ _ _ (h.stands.way nodes' exit hagree) } }

theorem size_eq (h : Placed limit rest b b' way groups nodes f) {sequence : List (Node α)}
    (hpush : b.pushAll limit index (sequence ++ rest) = .ok b') :
    nodes.size = b.nodes.size + sequence.countP (·.kind.makesState) := by
  obtain ⟨index, hrest⟩ := h.rest
  have hsize := size_of_pushAll hpush
  have hsize' : b'.nodes.size = nodes.size + _ := size_of_pushAll hrest
  rw [List.countP_append] at hsize
  omega

/-- The nodes of a pattern are as many as those of its block. -/
theorem size_eq_block (h : Placed limit rest b b' way groups nodes f) {p : Pattern α}
    (hpush : b.pushAll limit index (p.nodes ++ rest) = .ok b') :
    nodes.size = b.nodes.size + p.block.size := p.size_block ▸ h.size_eq hpush

end Placed

/-- A pattern is wired to its block. -/
theorem exists_placed_block (p : Pattern α) {rest : List (Node α)}
    (h : b.pushAll limit index (p.nodes ++ rest) = .ok b') :
    ∃ groups nodes f, Placed limit rest b b' (p.block.Stands b.nodes.size) groups nodes f := by
  induction p generalizing b index rest with
  | empty => exact ⟨_, Placed.leaf h rfl fun _ _ ↦ Block.stands_leaf⟩
  | atom a => exact ⟨_, Placed.leaf h rfl fun _ _ ↦ Block.stands_leaf⟩
  | assert a => exact ⟨_, Placed.leaf h rfl fun _ _ ↦ Block.stands_leaf⟩
  | concat p q ihp ihq =>
    rw [Pattern.nodes, List.append_assoc, List.append_assoc] at h
    obtain ⟨_, nodes₁, f₁, hleft⟩ := ihp h
    obtain ⟨index, hpush⟩ := hleft.rest
    obtain ⟨_, nodes₂, f₂, hright⟩ := ihq hpush
    obtain ⟨nodes, f, hplaced⟩ := hleft.concat hright
    refine ⟨_, nodes, f, hplaced.imp fun nodes head exit hboth ↦ ?_⟩
    obtain ⟨mid, hp, hq⟩ := hboth
    rw [hleft.size_eq_block h] at hq
    exact hp.concat hq
  | alternate p q ihp ihq =>
    rw [Pattern.nodes, List.append_assoc, List.append_assoc] at h
    obtain ⟨_, nodes₁, f₁, hleft⟩ := ihp h
    obtain ⟨index, hpush⟩ := hleft.rest
    obtain ⟨_, nodes₂, f₂, hright⟩ := ihq hpush
    have hsize := hleft.size_eq_block h
    have hsize' : nodes₂.size = nodes₁.size + q.block.size := hright.size_eq_block hpush
    refine ⟨_, hleft.alternate hright fun nodes' exit hnode hp hq ↦ ?_⟩
    rw [hsize', hsize] at hnode ⊢
    exact hp.alternate (hsize ▸ hq) hnode
  | zeroOrMore greedy p ih =>
    rw [Pattern.nodes, List.append_assoc] at h
    obtain ⟨_, nodes, f, hplaced⟩ := ih h
    refine ⟨_, hplaced.leave rfl ?_ fun nodes' exit hnode hbody ↦
      hbody.wrap (o := .looping greedy) nodes.size (hplaced.size_eq_block h) (hnode.trans ?_) rfl⟩
    all_goals cases greedy <;> rfl
  | oneOrMore greedy p ih =>
    rw [Pattern.nodes, List.append_assoc] at h
    obtain ⟨_, nodes, f, hplaced⟩ := ih h
    refine ⟨_, hplaced.leave rfl ?_ fun nodes' exit hnode hbody ↦
      hbody.wrap (o := .repeating greedy) nodes.size (hplaced.size_eq_block h) (hnode.trans ?_) rfl⟩
    all_goals cases greedy <;> rfl
  | zeroOrOne greedy p ih =>
    rw [Pattern.nodes, List.append_assoc] at h
    obtain ⟨_, nodes, f, hplaced⟩ := ih h
    refine ⟨_, hplaced.enter #[exit greedy nodes.size] _
      (by rw [← Array.push_eq_append]; rfl) (fun e he ↦ ?_) fun nodes' exit hnode hbody ↦
        hbody.wrap (o := .bypassing greedy) nodes.size (hplaced.size_eq_block h) (hnode.trans ?_) rfl⟩
    · cases List.mem_singleton.mp he
      cases greedy <;> exact ⟨rfl, rfl⟩
    · cases greedy <;> simp [retarget, Builder.exit] <;> rfl
  | group number p ih =>
    rw [Pattern.nodes, List.append_assoc] at h
    obtain ⟨_, nodes₁, f₁, hplaced₁⟩ := ih h
    have hsize := hplaced₁.size_eq_block h
    obtain ⟨nodes₂, f₂, hplaced₂⟩ := hplaced₁.enter #[]
      ((p.block.wrap .opening (.groupStart number)).Stands b.nodes.size)
      (by rw [Array.append_empty]; rfl) (fun _ he ↦ absurd he List.not_mem_nil)
      fun nodes' exit hnode hbody ↦
        hbody.wrap (o := .opening) nodes₁.size hsize (hnode.trans rfl) rfl
    have hopened : b.pushAll limit index
        ((p.nodes ++ [.groupStart number]) ++ (.groupEnd number :: rest)) = .ok b' := by
      rw [List.append_assoc]
      exact h
    have hsize₂ : nodes₂.size = b.nodes.size + (p.block.size + 1) := by
      rw [hplaced₂.size_eq hopened, p.size_block, List.countP_append]
      rfl
    exact ⟨_, hplaced₂.leave rfl rfl fun nodes' exit hnode hbody ↦
      hbody.wrap (o := .closing) nodes₂.size hsize₂ hnode rfl⟩

end Builder

/-! ## The graph of a pattern -/

/-- The graph of a block: the final node stands before it and the entry behind it. -/
def Block.graph (b : Block α) (groups : Nat) : Graph α :=
  ⟨(⟨.final, false, false, 0, []⟩ :: (b.nodes 1 Graph.final ++
    [⟨.entry, false, false, 0, [1 + b.head]⟩])).toArray, 1 + b.size, groups⟩

namespace Block

variable {b : Block α} {groups : Nat}

theorem size_graph (b : Block α) (groups : Nat) : (b.graph groups).nodes.size = b.size + 2 := by
  simp [graph, b.length_nodes]

theorem getElem?_entry_graph (b : Block α) (groups : Nat) :
    (b.graph groups).nodes[(b.graph groups).entry]? =
      some ⟨.entry, false, false, 0, [1 + b.head]⟩ := by
  have hlength := b.length_nodes 1 Graph.final
  have hentry : (b.graph groups).entry = b.size + 1 := Nat.add_comm _ _
  rw [hentry, graph, List.getElem?_toArray, List.getElem?_cons_succ,
    List.getElem?_append_right (Nat.le_of_eq hlength), hlength, Nat.sub_self]
  rfl

theorem wellFormed_graph (b : Block α) (groups : Nat) : (b.graph groups).WellFormed where
  final := rfl
  entry := by
    rw [b.getElem?_entry_graph]
    rfl

theorem getElem?_graph_succ (b : Block α) (groups : Nat) {i : Nat} (hi : i < b.size) :
    (b.graph groups).nodes[i + 1]? = (b.nodes 1 Graph.final)[i]? := by
  rw [graph, List.getElem?_toArray, List.getElem?_cons_succ,
    List.getElem?_append_left ((b.length_nodes _ _).symm ▸ hi)]

theorem holds_graph (b : Block α) (groups : Nat) :
    Graph.Holds (b.graph groups).nodes 1 (b.nodes 1 Graph.final) := by
  intro i node hnode
  have hi := (List.getElem?_eq_some_iff.mp hnode).1
  rw [b.length_nodes] at hi
  rw [Nat.add_comm 1 i, b.getElem?_graph_succ groups hi, hnode]

/-- No edge leads to the entry. -/
theorem closed_graph_entry (b : Block α) (groups : Nat) :
    Graph.Closed (b.graph groups).nodes (b.graph groups).entry := by
  have hentry : (b.graph groups).entry = 1 + b.size := rfl
  intro id hid node hnode next hnext
  cases id with
  | zero =>
    cases hnode
    cases hnext
  | succ i =>
    rw [b.getElem?_graph_succ groups (by omega)] at hnode
    rcases b.mem_out (List.mem_of_getElem? hnode) hnext with hnext | rfl
    · exact hnext.2
    · exact hentry ▸ Nat.add_pos_left Nat.zero_lt_one _

theorem closed_graph (b : Block α) (groups : Nat) :
    Graph.Closed (b.graph groups).nodes (b.graph groups).nodes.size := by
  have hlt := b.head_lt
  have hentry : (b.graph groups).entry = 1 + b.size := rfl
  intro id hid node hnode next hnext
  rw [b.size_graph] at hid ⊢
  rcases Nat.lt_or_ge id (b.graph groups).entry with hlo | hge
  · have := b.closed_graph_entry groups id hlo node hnode next hnext
    omega
  · obtain rfl : id = (b.graph groups).entry := by omega
    rw [b.getElem?_entry_graph] at hnode
    cases hnode
    cases List.mem_singleton.mp hnext
    omega

end Block

/-- The graph wired from a pattern is that of its block. -/
theorem Pattern.eq_graph_of_ofPostorder {limit : Nat} {p : Pattern α} {g : Graph α}
    (h : Graph.ofPostorder limit p.nodes = .ok g) : g = p.block.graph p.groups := by
  have hgroups := (accepted_of_ofPostorder h).groups
  obtain ⟨b, root, hpush, hstack, rfl⟩ := Builder.exists_of_ofPostorder h
  rw [← List.append_nil p.nodes] at hpush
  obtain ⟨groups, nodes, f, hplaced⟩ := Builder.exists_placed_block p hpush
  have hsize : nodes.size = 1 + p.block.size := hplaced.size_eq_block hpush
  obtain ⟨hstands, hagree, -, index, hrest⟩ := hplaced
  rw [Builder.pushAll] at hrest
  cases hrest
  cases hstack
  obtain ⟨hhead, hholds⟩ := hstands.way nodes Graph.final (by
    rw [Builder.redirect_final hstands.dangles]
    exact fun _ _ _ ↦ rfl)
  have hfinal : nodes[0]? = some ⟨.final, false, false, 0, []⟩ :=
    hagree 0 (Nat.le_refl _) Nat.zero_lt_one
  have hnodes : nodes.toList = ⟨.final, false, false, 0, []⟩ :: p.block.nodes 1 Graph.final := by
    refine (Graph.Holds.append (l := [_]) (.singleton hfinal) ?_).toList_eq ?_
    · exact hholds
    · rw [hsize, List.length_append, p.block.length_nodes]
      rfl
  have hentry : 1 + p.block.head = root.head := hhead.symm
  dsimp only at hgroups
  rw [Block.graph, hentry, ← hsize, ← hgroups, ← List.cons_append, ← hnodes, ← Array.toList_push,
    Array.toArray_toList]

/-- The automaton of a pattern is known from its block. -/
theorem Pattern.eq_of_compile [Atom α] {limit : Nat} {p : Pattern α} {nfa : Nfa α}
    (h : p.compile limit = .ok nfa) :
    nfa = { Nfa.ofGraph (p.block.graph p.groups) with
      startBytes? := (Nfa.ofGraph (p.block.graph p.groups)).findStartBytes? } := by
  obtain ⟨g, hgraph, rfl⟩ := Nfa.exists_of_compile h
  rw [eq_graph_of_ofPostorder hgraph]

end Lockstep
