import Lockstep.Proofs.Graph.Nested
import Lockstep.Proofs.Matches
import Lockstep.Proofs.Pattern.Compiled
import Lockstep.Proofs.Pattern.Context

/-!
# Loops in loops

`(p*)*`, `(p+)*`, `(p*)+` and `(p*)?` find the same matches as `p*`, with the same groups, even if `p`
may consume nothing, and wherever they stand in a larger pattern. Their graphs have two loop nodes in
the place of one, and all other nodes are the same.
-/

namespace Lockstep

universe u

variable {α : Type u}

open Pattern (Nest Context branches)
open Lockstep.Graph (merge Merges Forks)

/-! ## The blocks of nested loops -/

namespace Pattern.Nest

/-- The node of the inner quantifier. -/
def inner (greedy : Bool) : Nest → Node α
  | .starStar | .starPlus | .starOption => .zeroOrMore greedy
  | .plusStar => .oneOrMore greedy

/-- The node of the outer quantifier. -/
def outer (greedy : Bool) : Nest → Node α
  | .starStar | .plusStar => .zeroOrMore greedy
  | .starPlus => .oneOrMore greedy
  | .starOption => .zeroOrOne greedy

variable (n : Nest) (greedy : Bool) (p : Pattern α)

theorem size_block : (n.wrap greedy p).block.size = p.block.size + 2 := by
  cases n <;> rfl

theorem head_block : (n.wrap greedy p).block.head = n.head p.block.size := by
  cases n <;> rfl

theorem add_head (base loop : Nat) : base + n.head loop = n.head (base + loop) := by
  cases n <;> rfl

theorem groups_wrap : (n.wrap greedy p).groups = (zeroOrMore greedy p).groups := by
  cases n <;> rfl

theorem nodes_block (base exit : Nat) : (n.wrap greedy p).block.nodes base exit =
    p.block.nodes base (base + p.block.size) ++
      [{ n.inner greedy with
        out := branches greedy (base + p.block.head) (n.ahead (base + p.block.size) exit) },
      { n.outer greedy with
        out := branches greedy (n.back (base + p.block.head) (base + p.block.size)) exit }] := by
  cases n <;> simp [wrap, block, Block.wrap, inner, outer, ahead, back, Block.Operator.looping,
    Block.Operator.repeating, Block.Operator.bypassing, Nat.add_assoc]

end Pattern.Nest

/-! ## The graphs of nested loops -/

section

variable {β γ : Type u} {l₁ l₂ : List β} {loop id : Nat}

theorem getElem?_append_add (hloop : l₁.length = loop) (l₂ : List β) (i : Nat) :
    (l₁ ++ l₂)[loop + i]? = l₂[i]? := by
  rw [← hloop, List.getElem?_append_right (Nat.le_add_right _ _), Nat.add_sub_cancel_left]

/-- Where two elements become one, the others stay. -/
theorem getElem?_merge (f : β → γ) {x y : β} {z : γ} (hloop : l₁.length = loop) (hid : id ≠ loop)
    (hid' : id ≠ loop + 1) :
    (l₁.map f ++ z :: l₂.map f)[merge loop id]? = (l₁ ++ x :: y :: l₂)[id]?.map f := by
  have hloop' : (l₁.map f).length = loop := (List.length_map f).trans hloop
  rcases Nat.lt_or_gt_of_ne hid with hlt | hgt
  · rw [Graph.merge_of_le (Nat.le_of_lt hlt), List.getElem?_append_left (hloop'.symm ▸ hlt),
      List.getElem?_append_left (hloop.symm ▸ hlt), List.getElem?_map]
  · obtain ⟨i, rfl⟩ : ∃ i, id = loop + (i + 2) := ⟨id - loop - 2, by omega⟩
    have hmerge : merge loop (loop + (i + 2)) = loop + (i + 1) := by
      rw [Graph.merge_of_gt hgt]
      omega
    rw [hmerge, getElem?_append_add hloop', getElem?_append_add hloop]
    simp only [List.getElem?_cons_succ, List.getElem?_map]

end

namespace Block.Surrounds

variable {outer : Block α → Block α} {base next' : Nat} {n : Nest} {greedy : Bool} {p : Pattern α}
  {front back : List (Node α)}

/-- The loop in the place of two nested ones. -/
theorem replaces_nested : Replaces (fun id ↦ [merge (base + p.block.size) id]) base
    (n.wrap greedy p).block (Pattern.zeroOrMore greedy p).block := by
  constructor
  case below =>
    exact fun i hi ↦
      congrArg (fun id ↦ [id]) (Graph.merge_of_le (Nat.le_of_lt (Nat.lt_add_right _ hi)))
  case head =>
    rw [n.head_block]
    refine congrArg (fun id ↦ [id]) ?_
    cases n with
    | starStar | plusStar | starOption => exact Graph.merge_succ _
    | starPlus => exact Graph.merge_of_le (Nat.le_refl _)
  case above =>
    intro i
    rw [n.size_block]
    refine congrArg (fun id ↦ [id]) ((Graph.merge_of_gt (by omega)).trans ?_)
    have hsize : (Pattern.zeroOrMore greedy p).block.size = p.block.size + 1 := rfl
    omega

variable (h : Surrounds outer base (n.wrap greedy p).block front back next') (groups : Nat)

include h

theorem nodes_nested : ((outer (n.wrap greedy p).block).graph groups).nodes.toList =
    (front ++ p.block.nodes base (base + p.block.size)) ++
      { n.inner greedy with
        out := branches greedy (base + p.block.head) (n.ahead (base + p.block.size) next') } ::
      { n.outer greedy with
        out := branches greedy (n.back (base + p.block.head) (base + p.block.size)) next' } ::
      back := by
  rw [h.nodes, n.nodes_block]
  simp only [List.append_assoc, List.cons_append, List.nil_append]

theorem nodes_zeroOrMore : ((outer (Pattern.zeroOrMore greedy p).block).graph groups).nodes.toList =
    (front ++ p.block.nodes base (base + p.block.size)).map
        (Node.expand fun id ↦ [merge (base + p.block.size) id]) ++
      { Node.zeroOrMore greedy with
        out := branches greedy (base + p.block.head) (merge (base + p.block.size) next') } ::
      back.map (Node.expand fun id ↦ [merge (base + p.block.size) id]) := by
  obtain ⟨next, hnext, hreplaced⟩ := h.replace replaces_nested
  have hbody : (p.block.nodes base (base + p.block.size)).map
      (Node.expand fun id ↦ [merge (base + p.block.size) id]) =
        p.block.nodes base (base + p.block.size) :=
    p.block.expand_nodes (fun i hi ↦ congrArg (fun id ↦ [id]) (Graph.merge_of_le (by omega)))
      (congrArg (fun id ↦ [id]) (Graph.merge_of_le (Nat.le_refl _)))
  have hloop : (Pattern.zeroOrMore greedy p).block.nodes base next =
      p.block.nodes base (base + p.block.size) ++
        [{ Node.zeroOrMore greedy with out := branches greedy (base + p.block.head) next }] := rfl
  rw [hreplaced, List.map_append, hbody, hloop, (List.cons.inj hnext).1]
  simp only [List.append_assoc, List.cons_append, List.nil_append]

theorem merges : Merges ((outer (n.wrap greedy p).block).graph groups)
    ((outer (Pattern.zeroOrMore greedy p).block).graph groups) n greedy base (base + p.block.head)
    (base + p.block.size) next' := by
  have hlength : (front ++ p.block.nodes base (base + p.block.size)).length =
      base + p.block.size := by
    rw [List.length_append, h.length, p.block.length_nodes]
  have hget' : ∀ id : Nat, ((outer (n.wrap greedy p).block).graph groups).nodes[id]? = _ := fun id ↦ by
    rw [← Array.getElem?_toList, h.nodes_nested]
  have hget : ∀ id : Nat, ((outer (Pattern.zeroOrMore greedy p).block).graph groups).nodes[id]? = _ :=
    fun id ↦ by rw [← Array.getElem?_toList, h.nodes_zeroOrMore]
  have hpos : 0 < base + p.block.size := Nat.add_pos_right _ (Nat.zero_lt_of_lt p.block.head_lt)
  constructor
  case base_le => exact Nat.le_add_right _ _
  case body_lt => exact Nat.add_lt_add_left p.block.head_lt _
  case exit_outside =>
    have := h.next
    rw [n.size_block] at this
    omega
  case same =>
    intro id hne hne'
    rw [hget', hget]
    exact getElem?_merge _ hlength hne hne'
  case inside =>
    intro id next node hle hlt hnode hnext
    rw [hget', List.getElem?_append_left (hlength.symm ▸ hlt),
      List.getElem?_append_right (h.length ▸ hle)] at hnode
    have := p.block.mem_out (List.mem_of_getElem? hnode) hnext
    omega
  case outside =>
    intro id next node hid hnode hnext
    have hmem : node ∈ front ∨ node ∈ back := by
      rw [hget'] at hnode
      rcases hid with hlt | hgt
      · rw [List.append_assoc, List.getElem?_append_left (h.length.symm ▸ hlt)] at hnode
        exact .inl (List.mem_of_getElem? hnode)
      · obtain ⟨i, rfl⟩ : ∃ i, id = base + p.block.size + (i + 2) :=
          ⟨id - (base + p.block.size) - 2, by omega⟩
        rw [getElem?_append_add hlength, List.getElem?_cons_succ, List.getElem?_cons_succ] at hnode
        exact .inr (List.mem_of_getElem? hnode)
    have henters := h.enters hmem hnext
    rwa [n.head_block, n.add_head, n.size_block] at henters
  case inner =>
    refine ⟨Nat.ne_of_gt hpos, _, (hget' _).trans (getElem?_append_add hlength _ 0), ?_⟩
    cases n <;> exact ⟨rfl, rfl, rfl, rfl⟩
  case outer =>
    refine ⟨Nat.succ_ne_zero _, _, (hget' _).trans (getElem?_append_add hlength _ 1), ?_⟩
    cases n <;> exact ⟨rfl, rfl, rfl, rfl⟩
  case single =>
    exact ⟨Nat.ne_of_gt hpos, _,
      (hget _).trans (getElem?_append_add ((List.length_map _).trans hlength) _ 0), rfl, rfl, rfl, rfl⟩

end Block.Surrounds

/-! ## The same matches -/

namespace Pattern

variable [Atom α] {limit : Nat} {n : Nest} {greedy : Bool} {p : Pattern α}

/-- Searches of the two graphs find the same. -/
theorem search_plug_nested (c : Context α) (groups : Nat) (bs : Ahead) :
    ((c.plug (n.wrap greedy p)).block.graph groups).search bs
        ((c.plug (n.wrap greedy p)).block.graph groups).entry =
      ((c.plug (zeroOrMore greedy p)).block.graph groups).search bs
        ((c.plug (zeroOrMore greedy p)).block.graph groups).entry := by
  obtain ⟨offset, _, hframe⟩ := c.exists_frame
  obtain ⟨front, back, next', hsurrounds⟩ := hframe.exists_surrounds (n.wrap greedy p).block
  have hmerges := hsurrounds.merges groups
  obtain ⟨rest, hentry⟩ := hsurrounds.entry
  have hsize : (zeroOrMore greedy p).block.size = p.block.size + 1 := rfl
  rw [c.block_plug, c.block_plug, hentry, hentry, n.size_block, hsize,
    hmerges.search_eq (by omega), Graph.merge_of_gt (by omega)]
  congr 1
  omega

variable [LawfulAtom α] {nfa' nfa : Nfa α}

/-- A loop inside a loop, or inside an option, finds the same matches in a string as the loop alone,
with the same groups, inside any pattern. -/
theorem findAll_plug_nested (c : Context α) (n : Nest) (greedy : Bool) (p : Pattern α)
    (h' : (c.plug (n.wrap greedy p)).compile limit = .ok nfa')
    (h : (c.plug (zeroOrMore greedy p)).compile limit = .ok nfa) (s : String) :
    nfa'.findAll s.toUTF8.data .utf8 {} = nfa.findAll s.toUTF8.data .utf8 {} := by
  have hgroups : nfa'.groups = nfa.groups := by
    rw [groups_of_compile h', groups_of_compile h, c.groups_plug_congr (n.groups_wrap greedy p)]
  have hattempt : nfa'.attempt = nfa.attempt := funext fun bs ↦ by
    obtain ⟨g', hg', hsearch'⟩ := exists_ofPostorder_of_compile h'
    obtain ⟨g, hg, hsearch⟩ := exists_ofPostorder_of_compile h
    rw [hsearch', hsearch, eq_graph_of_ofPostorder hg', eq_graph_of_ofPostorder hg,
      c.groups_plug_congr (n.groups_wrap greedy p), search_plug_nested]
  rw [Nfa.findAll_eq (sound_of_compile h') s rfl, Nfa.findAll_eq (sound_of_compile h) s rfl, hgroups,
    hattempt]

/-- A nullable operand with a group and an assertion, in a sequence inside another loop. -/
theorem findAll_plug_nested_of_nullable :
    let p : Pattern Char :=
      .alternate .empty (.group (some 1) (.alternate (.atom 'a') (.assert 'b')))
    let c : Context Char := .zeroOrMore true (.concatLeft .hole (.atom 'b'))
    ∃ nfa' nfa, (c.plug (Nest.wrap true p .plusStar)).compile 20 = .ok nfa' ∧
      (c.plug (zeroOrMore true p)).compile 20 = .ok nfa ∧
      nfa'.findAll "aabxab".toUTF8.data .utf8 {} = nfa.findAll "aabxab".toUTF8.data .utf8 {} := by
  intro p c
  obtain ⟨nfa', h'⟩ : ∃ nfa', (c.plug (Nest.wrap true p .plusStar)).compile 20 = .ok nfa' := ⟨_, rfl⟩
  obtain ⟨nfa, h⟩ : ∃ nfa, (c.plug (zeroOrMore true p)).compile 20 = .ok nfa := ⟨_, rfl⟩
  exact ⟨nfa', nfa, h', h, findAll_plug_nested c .plusStar true p h' h "aabxab"⟩

end Pattern

end Lockstep
