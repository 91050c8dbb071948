import Lockstep.Proofs.Pattern.Layout

/-!
# Contexts

A pattern inside another one is a block with other nodes around it. When another block takes its place,
the nodes before it stay where they are and those behind it move along, and nothing else becomes of
them: their edges lead to the nodes they led to, and into the block by its head only.
-/

namespace Lockstep

universe u

variable {α : Type u}

/-! ## Patterns with a hole -/

/-- A pattern in which one operand is left out. -/
inductive Pattern.Context (α : Type u) where
  | hole
  | concatLeft (c : Context α) (q : Pattern α)
  | concatRight (p : Pattern α) (c : Context α)
  | alternateLeft (c : Context α) (q : Pattern α)
  | alternateRight (p : Pattern α) (c : Context α)
  | zeroOrMore (greedy : Bool) (c : Context α)
  | oneOrMore (greedy : Bool) (c : Context α)
  | zeroOrOne (greedy : Bool) (c : Context α)
  | group (number : Option Nat) (c : Context α)
deriving DecidableEq, Repr

namespace Pattern.Context

/-- The pattern with an operand in the place of the hole. -/
def plug : Context α → Pattern α → Pattern α
  | .hole, x => x
  | .concatLeft c q, x => .concat (c.plug x) q
  | .concatRight p c, x => .concat p (c.plug x)
  | .alternateLeft c q, x => .alternate (c.plug x) q
  | .alternateRight p c, x => .alternate p (c.plug x)
  | .zeroOrMore greedy c, x => .zeroOrMore greedy (c.plug x)
  | .oneOrMore greedy c, x => .oneOrMore greedy (c.plug x)
  | .zeroOrOne greedy c, x => .zeroOrOne greedy (c.plug x)
  | .group number c, x => .group number (c.plug x)

/-- The block with another block in the place of the hole. -/
def fill : Context α → Block α → Block α
  | .hole, b => b
  | .concatLeft c q, b => (c.fill b).concat q.block
  | .concatRight p c, b => p.block.concat (c.fill b)
  | .alternateLeft c q, b => .alternatives [c.fill b, q.block]
  | .alternateRight p c, b => .alternatives [p.block, c.fill b]
  | .zeroOrMore greedy c, b => (c.fill b).wrap (.looping greedy) (.zeroOrMore greedy)
  | .oneOrMore greedy c, b => (c.fill b).wrap (.repeating greedy) (.oneOrMore greedy)
  | .zeroOrOne greedy c, b => (c.fill b).wrap (.bypassing greedy) (.zeroOrOne greedy)
  | .group number c, b =>
    ((c.fill b).wrap .opening (.groupStart number)).wrap .closing (.groupEnd number)

theorem block_plug (c : Context α) (x : Pattern α) : (c.plug x).block = c.fill x.block := by
  induction c <;> simp_all [plug, fill, block]

/-- Groups around a hole are counted whatever takes its place. -/
theorem groups_plug_congr (c : Context α) {x x' : Pattern α} (h : x.groups = x'.groups) :
    (c.plug x).groups = (c.plug x').groups := by
  induction c with
  | hole => exact h
  | group number c ih => cases number <;> simp [plug, groups, ih]
  | _ => simp_all [plug, groups]

end Pattern.Context

/-! ## Frames of blocks -/

/-- What becomes of the numbers around a block at `base` when another one takes its place. -/
structure Block.Replaces (image : Nat → List Nat) (base : Nat) (b' b : Block α) : Prop where
  below : ∀ i < base, image i = [i]
  head : image (base + b'.head) = [base + b.head]
  above : ∀ i, image (base + b'.size + i) = [base + b.size + i]

/-- The nodes of `outer b` are those of `b` with `offset` nodes before and `rest` nodes behind them,
which do not depend on `b`. -/
structure Block.Frame (outer : Block α → Block α) (offset rest : Nat) : Prop where
  size : ∀ b, (outer b).size = offset + b.size + rest
  head : ∀ {image : Nat → List Nat} {base : Nat} {b' b : Block α},
    Replaces image (base + offset) b' b → image (base + (outer b').head) = [base + (outer b).head]
  around : ∀ (b' : Block α) (base exit' : Nat), ∃ (before after : List (Node α)) (next' : Nat),
    before.length = offset ∧
      (outer b').nodes base exit' = before ++ b'.nodes (base + offset) next' ++ after ∧
      (next' = exit' ∨ base + offset + b'.size ≤ next') ∧
      ∀ {image : Nat → List Nat} {b : Block α} {exit : Nat},
        Replaces image (base + offset) b' b → image exit' = [exit] →
          ∃ next, image next' = [next] ∧ (outer b).nodes base exit =
            before.map (Node.expand image) ++ b.nodes (base + offset) next ++
              after.map (Node.expand image)

namespace Block

variable {image : Nat → List Nat} {base exit exit' : Nat} {b b' c : Block α}

/-- A block behind the one that is replaced. -/
theorem Replaces.expand_behind (h : Replaces image base b' b) (hexit : image exit' = [exit])
    (c : Block α) : (c.nodes (base + b'.size) exit').map (Node.expand image) =
      c.nodes (base + b.size) exit := c.expand_nodes (fun _ _ ↦ h.above _) hexit

/-- A block before the one that is replaced. -/
theorem Replaces.expand_before (h : Replaces image (base + c.size) b' b)
    (hexit : image exit' = [exit]) :
    (c.nodes base exit').map (Node.expand image) = c.nodes base exit :=
  c.expand_nodes (fun _ hi ↦ h.below _ (Nat.add_lt_add_left hi _)) hexit

namespace Frame

variable {outer inner : Block α → Block α} {offset rest offset' rest' : Nat}

theorem id : Frame (fun b : Block α ↦ b) 0 0 where
  size b := (Nat.zero_add _).symm
  head h := h.head
  around b' base exit' := ⟨[], [], exit', rfl, by simp, .inl rfl, fun {_ _ exit} _ hexit ↦
    ⟨exit, hexit, by simp⟩⟩

/-- What is replaced inside is replaced with what is around it. -/
theorem replaces (h : Frame inner offset rest) (hreplaces : Replaces image (base + offset) b' b) :
    Replaces image base (inner b') (inner b) where
  below i hi := hreplaces.below i (Nat.lt_add_right _ hi)
  head := h.head hreplaces
  above i := by
    have habove := hreplaces.above (rest + i)
    rw [h.size, h.size]
    simp only [← Nat.add_assoc] at habove ⊢
    exact habove

theorem comp (h : Frame outer offset rest) (h' : Frame inner offset' rest') :
    Frame (fun b ↦ outer (inner b)) (offset + offset') (rest' + rest) where
  size b := by
    rw [h.size, h'.size]
    omega
  head {image base b' b} hreplaces :=
    h.head (h'.replaces ((Nat.add_assoc base offset offset').symm ▸ hreplaces))
  around b' base exit' := by
    obtain ⟨before, after, next', hlength, hnodes, hnext, hreplace⟩ := h.around (inner b') base exit'
    obtain ⟨before₂, after₂, next₂', hlength₂, hnodes₂, hnext₂, hreplace₂⟩ :=
      h'.around b' (base + offset) next'
    have hsize := h'.size b'
    refine ⟨before ++ before₂, after₂ ++ after, next₂', ?_, ?_, ?_,
      fun {image b exit} himage hexit ↦ ?_⟩
    · rw [List.length_append, hlength, hlength₂]
    · rw [hnodes, hnodes₂]
      simp only [List.append_assoc, Nat.add_assoc]
    · rcases hnext₂ with rfl | hle
      · refine hnext.imp_right fun hle ↦ ?_
        omega
      · exact .inr (by omega)
    · rw [← Nat.add_assoc] at himage ⊢
      obtain ⟨next, hnext, hfilled⟩ := hreplace (h'.replaces himage) hexit
      obtain ⟨next₂, hnext₂, hfilled₂⟩ := hreplace₂ himage hnext
      refine ⟨next₂, hnext₂, ?_⟩
      rw [hfilled, hfilled₂]
      simp only [List.map_append, List.append_assoc]

theorem concatLeft (c : Block α) : Frame (Block.concat · c) 0 c.size where
  size b := by rw [Nat.zero_add, Block.concat]
  head h := h.head
  around b' base exit' := by
    refine ⟨[], c.nodes (base + b'.size) exit', base + b'.size + c.head, rfl, rfl,
      .inr (Nat.le_add_right _ _), fun {image b exit} h hexit ↦ ⟨_, h.above c.head, ?_⟩⟩
    rw [Nat.add_zero] at h ⊢
    rw [h.expand_behind hexit]
    rfl

theorem concatRight (c : Block α) : Frame (Block.concat c) c.size 0 where
  size b := rfl
  head h := h.below _ (Nat.add_lt_add_left c.head_lt _)
  around b' base exit' := by
    refine ⟨c.nodes base (base + c.size + b'.head), [], exit', c.length_nodes _ _, ?_, .inl rfl,
      fun {image b exit} h hexit ↦ ⟨exit, hexit, ?_⟩⟩
    · rw [List.append_nil]
      rfl
    · rw [List.map_nil, List.append_nil, h.expand_before h.head]
      rfl

theorem alternateLeft (c : Block α) : Frame (fun b ↦ alternatives [b, c]) 0 (c.size + 1) where
  size b := by simp [alternatives, Nat.add_assoc]
  head {image base b' b} h := by
    have habove := h.above c.size
    simp only [Nat.add_zero, Nat.add_assoc] at habove
    simpa [alternatives] using habove
  around b' base exit' := by
    refine ⟨[], c.nodes (base + b'.size) exit' ++ [{ Node.alternate with
      out := [base + b'.head, base + b'.size + c.head] }], exit', rfl, ?_, .inl rfl,
      fun {image b exit} h hexit ↦ ⟨exit, hexit, ?_⟩⟩
    · simp [alternatives, row, heads]
    · rw [Nat.add_zero] at h ⊢
      rw [List.map_append, h.expand_behind hexit]
      simp [alternatives, row, heads, Node.expand, h.head, h.above c.head]

theorem alternateRight (c : Block α) : Frame (fun b ↦ alternatives [c, b]) c.size 1 where
  size b := by simp [alternatives]
  head {image base b' b} h := by
    simpa [alternatives, Nat.add_assoc] using h.above 0
  around b' base exit' := by
    refine ⟨c.nodes base exit', [{ Node.alternate with
      out := [base + c.head, base + c.size + b'.head] }], exit', c.length_nodes _ _, ?_, .inl rfl,
      fun {image b exit} h hexit ↦ ⟨exit, hexit, ?_⟩⟩
    · simp [alternatives, row, heads]
    · rw [h.expand_before hexit]
      simp [alternatives, row, heads, Node.expand, h.head,
        h.below _ (Nat.add_lt_add_left c.head_lt base)]

theorem wrap (o : Operator) (node : Node α) : Frame (Block.wrap o node) 0 1 where
  size b := by rw [Nat.zero_add, Block.wrap]
  head {image base b' b} h := by
    simp only [Block.wrap]
    split
    · exact h.above 0
    · exact h.head
  around b' base exit' := by
    refine ⟨[], [{ node with out := o.out (base + b'.head) exit' }],
      if o.back then base + b'.size else exit', rfl, rfl, ?_,
      fun {image b exit} h hexit ↦ ⟨if o.back then base + b.size else exit, ?_, ?_⟩⟩
    · split
      · exact .inr (Nat.le_refl _)
      · exact .inl rfl
    · split
      · exact h.above 0
      · exact hexit
    · rw [Nat.add_zero] at h ⊢
      rw [List.map_singleton, Node.expand, o.expand_out h.head hexit]
      rfl

end Frame

end Block

namespace Pattern.Context

/-- A context is a frame of what takes the place of its hole. -/
theorem exists_frame (c : Context α) : ∃ offset rest, Block.Frame c.fill offset rest := by
  induction c with
  | hole => exact ⟨_, _, .id⟩
  | concatLeft c q ih =>
    obtain ⟨_, _, h⟩ := ih
    exact ⟨_, _, (Block.Frame.concatLeft q.block).comp h⟩
  | concatRight p c ih =>
    obtain ⟨_, _, h⟩ := ih
    exact ⟨_, _, (Block.Frame.concatRight p.block).comp h⟩
  | alternateLeft c q ih =>
    obtain ⟨_, _, h⟩ := ih
    exact ⟨_, _, (Block.Frame.alternateLeft q.block).comp h⟩
  | alternateRight p c ih =>
    obtain ⟨_, _, h⟩ := ih
    exact ⟨_, _, (Block.Frame.alternateRight p.block).comp h⟩
  | zeroOrMore greedy c ih | oneOrMore greedy c ih | zeroOrOne greedy c ih =>
    obtain ⟨_, _, h⟩ := ih
    exact ⟨_, _, (Block.Frame.wrap _ _).comp h⟩
  | group number c ih =>
    obtain ⟨_, _, h⟩ := ih
    exact ⟨_, _, (Block.Frame.wrap _ _).comp ((Block.Frame.wrap _ _).comp h)⟩

end Pattern.Context

/-! ## Graphs of frames -/

namespace Block

/-- The graph of a frame around a block: before and behind the nodes of the block, which lead on to
`next`, stand nodes whose edges enter the block by its head only. When another block takes its place,
the numbers change and nothing else. -/
structure Surrounds (outer : Block α → Block α) (base : Nat) (b' : Block α)
    (front back : List (Node α)) (next' : Nat) : Prop where
  length : front.length = base
  nodes : ∀ groups, ((outer b').graph groups).nodes.toList = front ++ b'.nodes base next' ++ back
  next : next' < base ∨ base + b'.size ≤ next'
  entry : ∃ rest, ∀ (b : Block α) groups, ((outer b).graph groups).entry = base + b.size + rest
  replace : ∀ {image : Nat → List Nat} {b : Block α}, Replaces image base b' b →
    ∃ next, image next' = [next] ∧ ∀ groups, ((outer b).graph groups).nodes.toList =
      front.map (Node.expand image) ++ b.nodes base next ++ back.map (Node.expand image)

/-- A frame around a block. -/
theorem Frame.exists_surrounds {outer : Block α → Block α} {offset rest : Nat}
    (h : Frame outer offset rest) (b' : Block α) :
    ∃ front back next', Surrounds outer (1 + offset) b' front back next' := by
  obtain ⟨before, after, next', hlength, hnodes, hnext, hreplace⟩ := h.around b' 1 Graph.final
  refine ⟨⟨.final, false, false, 0, []⟩ :: before,
    after ++ [⟨.entry, false, false, 0, [1 + (outer b').head]⟩], next', ?_, fun groups ↦ ?_, ?_,
    ⟨rest, fun b groups ↦ ?_⟩, fun {image b} himage ↦ ?_⟩
  · rw [List.length_cons, hlength, Nat.add_comm]
  · simp [Block.graph, hnodes]
  · rcases hnext with rfl | hle
    · exact .inl (Nat.add_pos_left Nat.zero_lt_one _)
    · exact .inr hle
  · rw [Block.graph, h.size]
    simp only [Nat.add_assoc]
  · have hfinal := himage.below _ (Nat.add_pos_left Nat.zero_lt_one _)
    obtain ⟨next, hnext, hfilled⟩ := hreplace himage hfinal
    refine ⟨next, hnext, fun groups ↦ ?_⟩
    simp [Block.graph, hfilled, Node.expand, h.head himage]

namespace Surrounds

variable {outer : Block α → Block α} {base next' : Nat} {b' : Block α} {front back : List (Node α)}

/-- The edges of the nodes around a block do not enter it but by its head. -/
theorem enters (h : Surrounds outer base b' front back next') {node : Node α}
    (hnode : node ∈ front ∨ node ∈ back) {id : Nat} (hid : id ∈ node.out) :
    id < base ∨ id = base + b'.head ∨ base + b'.size ≤ id := by
  let outside : Nat → Bool := fun id ↦ id < base || id == base + b'.head || base + b'.size ≤ id
  let image : Nat → List Nat := fun id ↦ if outside id then [id] else []
  have himage : ∀ id, outside id = true → image id = [id] := fun id h ↦ if_pos h
  have hreplaces : Replaces image base b' b' :=
    ⟨fun i hi ↦ himage _ (by simp [outside, hi]), himage _ (by simp [outside]),
      fun i ↦ himage _ (by simp [outside])⟩
  obtain ⟨next, hnext, hsame⟩ := h.replace hreplaces
  obtain ⟨hboth, hback⟩ := List.append_inj' ((h.nodes 0).symm.trans (hsame 0)) (by simp)
  obtain ⟨hfront, -⟩ := List.append_inj hboth (by simp)
  have hexpand : node.expand image = node := by
    rcases hnode with hnode | hnode
    · exact List.map_inj_left.mp (hfront.symm.trans (List.map_id _).symm) node hnode
    · exact List.map_inj_left.mp (hback.symm.trans (List.map_id _).symm) node hnode
  simpa [outside, or_assoc] using Node.of_mem_out hexpand hid

end Surrounds

end Block

end Lockstep
