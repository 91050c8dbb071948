import Mathlib.Data.List.Basic
import Lockstep.Node

/-!
# Blocks

A block is a row of nodes that may stand anywhere in a graph. It knows its nodes from the number of
the first of them and from the node that they lead on to, and when it is moved, its edges move with it.
The operators of expressions make larger blocks of smaller ones: the operands come first and the
operator's own nodes behind them.
-/

namespace Lockstep

universe u

variable {α : Type u}

/-- A node with other nodes in the place of its successors. -/
def Node.expand (image : Nat → List Nat) (node : Node α) : Node α :=
  { node with out := node.out.flatMap image }

/-- If leaving out the successors but for some leaves a node as it is, its successors are among
these. -/
theorem Node.of_mem_out {p : Nat → Bool} {node : Node α} {id : Nat}
    (h : node.expand (fun id ↦ if p id then [id] else []) = node) (hid : id ∈ node.out) :
    p id = true := by
  rw [← congrArg Node.out h] at hid
  obtain ⟨id', -, hid⟩ := List.mem_flatMap.mp hid
  split at hid
  · rename_i hp
    cases List.mem_singleton.mp hid
    exact hp
  · cases hid

/-- Nodes in a row, the first of which is numbered `base`. They lead on to `exit`. -/
structure Block (α : Type u) where
  nodes : (base exit : Nat) → List (Node α)
  size : Nat
  /-- The place of the node at which the way through the block begins. -/
  head : Nat
  length_nodes : ∀ base exit, (nodes base exit).length = size
  head_lt : head < size
  /-- Where the numbers of the nodes and of the exit go, the edges go. -/
  expand_nodes : ∀ {image : Nat → List Nat} {base base' exit exit' : Nat},
    (∀ i < size, image (base + i) = [base' + i]) → image exit = [exit'] →
      (nodes base exit).map (Node.expand image) = nodes base' exit'

namespace Block

/-- The edges of a block lead to its nodes and to its exit. -/
theorem mem_out (b : Block α) {base exit id : Nat} {node : Node α} (hnode : node ∈ b.nodes base exit)
    (hid : id ∈ node.out) : (base ≤ id ∧ id < base + b.size) ∨ id = exit := by
  let inside : Nat → Bool := fun id ↦ (base ≤ id && id < base + b.size) || id == exit
  have himage : ∀ id, inside id = true → (if inside id then [id] else []) = [id] := fun _ h ↦ if_pos h
  have hmap : (b.nodes base exit).map (Node.expand fun id ↦ if inside id then [id] else []) =
      b.nodes base exit :=
    b.expand_nodes (fun i hi ↦ himage _ (by simp [inside, hi])) (himage _ (by simp [inside]))
  have hnode' := List.map_inj_left.mp (hmap.trans (List.map_id _).symm) node hnode
  have hinside := Node.of_mem_out hnode' hid
  simpa [inside] using hinside

/-! ## Operators -/

/-- A node without operands. -/
def leaf (node : Node α) : Block α where
  nodes _ exit := [{ node with out := [exit] }]
  size := 1
  head := 0
  length_nodes _ _ := rfl
  head_lt := Nat.zero_lt_one
  expand_nodes _ hexit := by simp [Node.expand, hexit]

/-- One block after the other. -/
def concat (b c : Block α) : Block α where
  nodes base exit := b.nodes base (base + b.size + c.head) ++ c.nodes (base + b.size) exit
  size := b.size + c.size
  head := b.head
  length_nodes base exit := by rw [List.length_append, b.length_nodes, c.length_nodes]
  head_lt := Nat.lt_of_lt_of_le b.head_lt (Nat.le_add_right _ _)
  expand_nodes {image base base' exit exit'} himage hexit := by
    have hright : ∀ i < c.size, image (base + b.size + i) = [base' + b.size + i] := fun i hi ↦ by
      rw [Nat.add_assoc, himage _ (Nat.add_lt_add_left hi _), Nat.add_assoc]
    rw [List.map_append, c.expand_nodes hright hexit,
      b.expand_nodes (fun i hi ↦ himage i (Nat.lt_add_right _ hi)) (hright _ c.head_lt)]

/-- The nodes of several blocks with the same exit. -/
def row : List (Block α) → (base exit : Nat) → List (Node α)
  | [], _, _ => []
  | b :: bs, base, exit => b.nodes base exit ++ row bs (base + b.size) exit

/-- Where the ways through these blocks begin. -/
def heads : List (Block α) → (base : Nat) → List Nat
  | [], _ => []
  | b :: bs, base => (base + b.head) :: heads bs (base + b.size)

/-- The number of these nodes. -/
def width : List (Block α) → Nat
  | [] => 0
  | b :: bs => b.size + width bs

@[simp] theorem width_nil : width ([] : List (Block α)) = 0 := rfl

@[simp] theorem width_cons (b : Block α) (bs : List (Block α)) :
    width (b :: bs) = b.size + width bs := rfl

@[simp] theorem length_row (bs : List (Block α)) (base exit : Nat) :
    (row bs base exit).length = width bs := by
  induction bs generalizing base with
  | nil => rfl
  | cons b bs ih => rw [row, List.length_append, b.length_nodes, ih, width_cons]

section

variable {image : Nat → List Nat} {bs : List (Block α)} {b : Block α} {base base' exit exit' : Nat}

theorem image_cons (himage : ∀ i < width (b :: bs), image (base + i) = [base' + i]) :
    (∀ i < b.size, image (base + i) = [base' + i]) ∧
      ∀ i < width bs, image (base + b.size + i) = [base' + b.size + i] := by
  rw [width_cons] at himage
  refine ⟨fun i hi ↦ himage i (Nat.lt_add_right _ hi), fun i hi ↦ ?_⟩
  rw [Nat.add_assoc, himage _ (Nat.add_lt_add_left hi _), Nat.add_assoc]

theorem expand_row (himage : ∀ i < width bs, image (base + i) = [base' + i])
    (hexit : image exit = [exit']) :
    (row bs base exit).map (Node.expand image) = row bs base' exit' := by
  induction bs generalizing base base' with
  | nil => rfl
  | cons b bs ih =>
    obtain ⟨hfirst, hrest⟩ := image_cons himage
    rw [row, List.map_append, b.expand_nodes hfirst hexit, ih hrest, row]

theorem flatMap_heads (himage : ∀ i < width bs, image (base + i) = [base' + i]) :
    (heads bs base).flatMap image = heads bs base' := by
  induction bs generalizing base base' with
  | nil => rfl
  | cons b bs ih =>
    obtain ⟨hfirst, hrest⟩ := image_cons himage
    rw [heads, List.flatMap_cons, hfirst _ b.head_lt, ih hrest, heads, List.singleton_append]

end

/-- The edges of a row lead to its nodes and to its exit. -/
theorem mem_out_of_mem_row {bs : List (Block α)} {base exit id : Nat} {node : Node α}
    (hnode : node ∈ row bs base exit) (hid : id ∈ node.out) :
    (base ≤ id ∧ id < base + width bs) ∨ id = exit := by
  induction bs generalizing base with
  | nil => cases hnode
  | cons b bs ih =>
    rw [width_cons]
    rcases List.mem_append.mp hnode with hnode | hnode
    · have := b.mem_out hnode hid
      omega
    · have := ih hnode
      omega

theorem mem_heads {bs : List (Block α)} {base id : Nat} (hid : id ∈ heads bs base) :
    base ≤ id ∧ id < base + width bs := by
  induction bs generalizing base with
  | nil => cases hid
  | cons b bs ih =>
    rw [width_cons]
    have := b.head_lt
    rcases List.mem_cons.mp hid with rfl | hid
    · omega
    · have := ih hid
      omega

section

variable (bs cs : List (Block α)) (base exit : Nat)

@[simp] theorem width_append : width (bs ++ cs) = width bs + width cs := by
  induction bs with
  | nil => rw [List.nil_append, width_nil, Nat.zero_add]
  | cons b bs ih => rw [List.cons_append, width_cons, ih, width_cons, Nat.add_assoc]

theorem row_append :
    row (bs ++ cs) base exit = row bs base exit ++ row cs (base + width bs) exit := by
  induction bs generalizing base with
  | nil => rfl
  | cons b bs ih => rw [List.cons_append, row, ih, row, List.append_assoc, width_cons, Nat.add_assoc]

theorem heads_append : heads (bs ++ cs) base = heads bs base ++ heads cs (base + width bs) := by
  induction bs generalizing base with
  | nil => rfl
  | cons b bs ih =>
    rw [List.cons_append, heads, ih, heads, List.cons_append, width_cons, Nat.add_assoc]

end

/-- A choice between blocks, preferably the first. -/
def alternatives (bs : List (Block α)) : Block α where
  nodes base exit := row bs base exit ++ [{ Node.alternate with out := heads bs base }]
  size := width bs + 1
  head := width bs
  length_nodes base exit := by rw [List.length_append, length_row, List.length_singleton]
  head_lt := Nat.lt_succ_self _
  expand_nodes himage hexit := by
    have hrow : ∀ i < width bs, _ := fun i hi ↦ himage i (Nat.lt_succ_of_lt hi)
    rw [List.map_append, expand_row hrow hexit, List.map_singleton, Node.expand, flatMap_heads hrow]

/-- How an operator stands to its operand. -/
structure Operator where
  /-- The operand leads on to the operator in place of the exit. -/
  back : Bool
  /-- The way begins at the operator in place of the operand. -/
  first : Bool
  /-- The operator's edges. -/
  out : (body exit : Nat) → List Nat
  expand_out : ∀ {image : Nat → List Nat} {body body' exit exit' : Nat}, image body = [body'] →
    image exit = [exit'] → (out body exit).flatMap image = out body' exit'

/-- A node over one operand. -/
def wrap (o : Operator) (node : Node α) (b : Block α) : Block α where
  nodes base exit := b.nodes base (if o.back then base + b.size else exit) ++
    [{ node with out := o.out (base + b.head) exit }]
  size := b.size + 1
  head := if o.first then b.size else b.head
  length_nodes base exit := by rw [List.length_append, b.length_nodes, List.length_singleton]
  head_lt := by
    have := b.head_lt
    split <;> omega
  expand_nodes {image base base' exit exit'} himage hexit := by
    have hbody : ∀ i < b.size, image (base + i) = [base' + i] := fun i hi ↦
      himage i (Nat.lt_succ_of_lt hi)
    have hnext : image (if o.back then base + b.size else exit) =
        [if o.back then base' + b.size else exit'] := by
      split
      · exact himage _ (Nat.lt_succ_self _)
      · exact hexit
    rw [List.map_append, b.expand_nodes hbody hnext, List.map_singleton, Node.expand,
      o.expand_out (hbody _ b.head_lt) hexit]

end Block

end Lockstep
