import Lockstep.Proofs.Graph.Onward
import Lockstep.Proofs.Pattern.Backtrack
import Lockstep.Proofs.Pattern.Layout

/-!
# Replies

What a search finds from the head of a pattern, before it goes to the next boundary, comes from the
atoms of the pattern and from its exit. All ways through the pattern that consume nothing come to the
exit, and the same is found from there whichever of them was taken. So the pattern makes a reply of what
is found from its exit.

The operators differ in what they tell their operands. The exit of the body of `p*` is the node at which
the iteration began, so nothing is found there. The exit of the body of `p+` has not been passed, but the
head of the body has, so the loop can only be left.
-/

namespace Lockstep

universe u

variable {α : Type u}

namespace Pattern

open Lockstep.Graph (withMarks Forks prefer)

/-! ## The reply of a pattern -/

/-- What is found from the head of a pattern, if `leave` is found from its exit and `found` from its
atoms. The nodes of the pattern are numbered from `base` on. -/
def reply [Atom α] (b : Boundary) (found : Nat → Option (Ahead × List Mark)) :
    Pattern α → (base : Nat) → (leave : Option (Ahead × List Mark)) → Option (Ahead × List Mark)
  | .empty, _, leave => leave
  | .atom _, base, _ => found base
  | .assert a, _, leave => if Atom.check a b.prev b.next then leave else none
  | .concat p q, base, leave =>
    p.reply b found base (q.reply b found (base + p.block.size) leave)
  | .alternate p q, base, leave =>
    (p.reply b found base leave).or (q.reply b found (base + p.block.size) leave)
  | .zeroOrMore greedy p, base, leave => prefer greedy (p.reply b found base none) leave
  | .oneOrMore _ p, base, leave => p.reply b found base leave
  | .zeroOrOne greedy p, base, leave => prefer greedy (p.reply b found base leave) leave
  | .group number p, base, leave =>
    (p.reply b found base (leave.map (withMarks (groupMarks number .closing b.offset)))).map
      (withMarks (groupMarks number .opening b.offset))

/-! ## Coming to the exit -/

section

variable {lo hi lo' hi' head mid id : Nat} {via via' passed : List Nat}

/-- No node from `lo` up to `hi` has been passed. -/
def Clear (lo hi : Nat) (passed : List Nat) : Prop := ∀ id ∈ passed, id < lo ∨ hi ≤ id

namespace Clear

theorem notMem (h : Clear lo hi passed) (hid : lo ≤ id ∧ id < hi) : id ∉ passed := fun hmem ↦ by
  have := h id hmem
  omega

theorem mono (h : Clear lo hi passed) (hinside : lo ≤ lo' ∧ hi' ≤ hi) : Clear lo' hi' passed :=
  fun id hid ↦ by
    have := h id hid
    omega

theorem append (h : Clear lo hi passed) (h' : Clear lo hi via) : Clear lo hi (via ++ passed) :=
  List.forall_mem_append.mpr ⟨h', h⟩

theorem cons (h : Clear lo (hi + 1) passed) (hinside : lo ≤ lo' ∧ hi' ≤ hi) :
    Clear lo' hi' (hi :: passed) :=
  List.forall_mem_cons.mpr ⟨.inr hinside.2, h.mono ⟨hinside.1, Nat.le_succ_of_le hinside.2⟩⟩

end Clear

/-- Nodes from `lo` up to `hi` that are passed on a way from `head`, the last of which comes first. None
of them consumes. -/
structure Crosses (nodes : Array (Node α)) (lo hi head : Nat) (via : List Nat) : Prop where
  head_mem : head ∈ via
  inside : ∀ id ∈ via, lo ≤ id ∧ id < hi
  idle : ∀ id ∈ via, ∀ node, nodes[id]? = some node → node.isConsuming = false

namespace Crosses

variable {nodes : Array (Node α)} {node : Node α}

theorem singleton (hnode : nodes[id]? = some node) (hcons : node.isConsuming = false)
    (hid : lo ≤ id ∧ id < hi) : Crosses nodes lo hi id [id] where
  head_mem := List.mem_singleton_self id
  inside := List.forall_mem_singleton.mpr hid
  idle := List.forall_mem_singleton.mpr fun node' hnode' ↦ by
    cases hnode.symm.trans hnode'
    exact hcons

theorem fork [Atom α] {out : List Nat} (h : Forks nodes hi out) (hle : lo ≤ hi) :
    Crosses nodes lo (hi + 1) hi [hi] := by
  obtain ⟨-, node, hnode, hcons, -⟩ := h
  exact .singleton hnode hcons ⟨hle, Nat.lt_succ_self hi⟩

theorem mono (h : Crosses nodes lo' hi' head via) (hinside : lo ≤ lo' ∧ hi' ≤ hi) :
    Crosses nodes lo hi head via where
  head_mem := h.head_mem
  inside id hid := by
    have := h.inside id hid
    omega
  idle := h.idle

/-- The way goes on from `mid`. -/
theorem append (h : Crosses nodes lo hi head via) (h' : Crosses nodes lo hi mid via') :
    Crosses nodes lo hi head (via' ++ via) where
  head_mem := List.mem_append_right via' h.head_mem
  inside := List.forall_mem_append.mpr ⟨h'.inside, h.inside⟩
  idle := List.forall_mem_append.mpr ⟨h'.idle, h.idle⟩

theorem clear (h : Crosses nodes lo hi head via) (happart : hi ≤ lo' ∨ hi' ≤ lo) :
    Clear lo' hi' via := fun id hid ↦ by
  have := h.inside id hid
  omega

end Crosses

end

variable [Atom α]

/-- Whichever way from `head` is taken to the exit, `leave` is found from there. -/
def Leaves (g : Graph α) (b : Boundary) (rest : Ahead) (lo hi head exit : Nat) (passed : List Nat)
    (leave : Option (Ahead × List Mark)) : Prop :=
  ∀ via, Crosses g.nodes lo hi head via → g.onward b rest (via ++ passed) exit = leave

/-- The nodes from `lo` up to `hi` reply at `head` what `f` makes of what is found from `exit`, if none
of them has been passed. -/
def Replies (g : Graph α) (b : Boundary) (rest : Ahead) (lo hi head exit : Nat)
    (f : Option (Ahead × List Mark) → Option (Ahead × List Mark)) : Prop :=
  ∀ passed leave, Clear lo hi passed → Leaves g b rest lo hi head exit passed leave →
    g.onward b rest passed head = f leave

variable {g : Graph α} {b : Boundary} {rest : Ahead} {lo hi lo' hi' mid : Nat}
  {head next exit id left right body : Nat} {greedy : Bool} {node : Node α} {passed via : List Nat}
  {leave : Option (Ahead × List Mark)}
  {f f' : Option (Ahead × List Mark) → Option (Ahead × List Mark)}

/-- The first part of the way may have been passed. -/
theorem Leaves.after (h : Leaves g b rest lo hi head exit passed leave)
    (hvia : Crosses g.nodes lo hi head via) (hinside : lo ≤ lo' ∧ hi' ≤ hi) :
    Leaves g b rest lo' hi' mid exit (via ++ passed) leave := fun via' hvia' ↦ by
  rw [← List.append_assoc]
  exact h _ (hvia.append (hvia'.mono hinside))

namespace Replies

theorem congr (h : Replies g b rest lo hi head exit f) (heq : ∀ leave, f leave = f' leave) :
    Replies g b rest lo hi head exit f' := funext heq ▸ h

/-! ### Single nodes -/

theorem atom {a : α} (hnode : g.nodes[id]? = some { Node.atom a with out := [exit] }) :
    Replies g b rest id (id + 1) id exit fun _ ↦ g.beyond b rest id := fun _ _ _ _ ↦
  Graph.onward_of_consuming hnode rfl

/-- A node that consumes nothing. -/
theorem step (hnode : g.nodes[id]? = some node) (hcons : node.isConsuming = false)
    (hout : node.out = [exit]) : Replies g b rest id (id + 1) id exit fun leave ↦
      if Graph.holdsAt g.nodes b id then leave.map (Graph.precede b (Graph.passing node id))
      else none := by
  intro passed leave hclear hleave
  have hid : id ≤ id ∧ id < id + 1 := ⟨Nat.le_refl id, Nat.lt_succ_self id⟩
  rw [Graph.onward_of_notMem hnode hcons (hclear.notMem hid), hout, List.findSome?_singleton,
    ← hleave [id] (.singleton hnode hcons hid), List.singleton_append]

theorem assert {a : α} (hnode : g.nodes[id]? = some { Node.assert a with out := [exit] }) :
    Replies g b rest id (id + 1) id exit fun leave ↦
      if Atom.check a b.prev b.next then leave else none := by
  have hholds : Graph.holdsAt g.nodes b id = Atom.check a b.prev b.next := by
    rw [Graph.holdsAt, hnode]
    rfl
  refine (step hnode rfl rfl).congr fun leave ↦ ?_
  rw [hholds]
  exact congrArg (ite _ · none) (Graph.precede_nil b leave)

/-- A node that asserts nothing. -/
theorem passing (hnode : g.nodes[id]? = some node) (hcons : node.isConsuming = false)
    (hassert : node.kind.assertion? = none) (hout : node.out = [exit]) :
    Replies g b rest id (id + 1) id exit
      (Option.map (Graph.precede b (Graph.passing node id))) :=
  (step hnode hcons hout).congr fun leave ↦ if_pos (by simp [Graph.holdsAt, hnode, hassert])

/-! ### Operators -/

/-- One part after the other. -/
theorem concat (h : Replies g b rest lo mid head next f) (h' : Replies g b rest mid hi next exit f')
    (hmid : lo ≤ mid ∧ mid ≤ hi) : Replies g b rest lo hi head exit fun leave ↦ f (f' leave) := by
  intro passed leave hclear hleave
  refine h passed _ (hclear.mono ⟨Nat.le_refl lo, hmid.2⟩) fun via hvia ↦ ?_
  refine h' (via ++ passed) leave ?_ ?_
  · exact (hclear.mono ⟨hmid.1, Nat.le_refl hi⟩).append (hvia.clear (.inl (Nat.le_refl mid)))
  · exact hleave.after (hvia.mono ⟨Nat.le_refl lo, hmid.2⟩) ⟨hmid.1, Nat.le_refl hi⟩

/-- An operand that is come to from the operator behind it, and has the same exit. -/
theorem operand (h : Replies g b rest lo' hi' body exit f) (hinside : lo ≤ lo' ∧ hi' ≤ hi)
    (hhi : Crosses g.nodes lo (hi + 1) hi [hi]) (hclear : Clear lo (hi + 1) passed)
    (hleave : Leaves g b rest lo (hi + 1) hi exit passed leave) :
    g.onward b rest (hi :: passed) body = f leave :=
  h (hi :: passed) leave (hclear.cons hinside)
    (hleave.after hhi ⟨hinside.1, Nat.le_succ_of_le hinside.2⟩)

/-- A marker before the operand. -/
theorem opening (h : Replies g b rest lo hi body exit f) (hle : lo ≤ hi)
    (hnode : g.nodes[hi]? = some node) (hcons : node.isConsuming = false)
    (hassert : node.kind.assertion? = none) (hout : node.out = [body]) :
    Replies g b rest lo (hi + 1) hi exit fun leave ↦
      (f leave).map (Graph.precede b (Graph.passing node hi)) := by
  intro passed leave hclear hleave
  have hhi : Crosses g.nodes lo (hi + 1) hi [hi] :=
    .singleton hnode hcons ⟨hle, Nat.lt_succ_self hi⟩
  have hnew := hclear.notMem (hhi.inside hi hhi.head_mem)
  rw [Graph.onward_of_out_eq hnode hcons hassert hout hnew,
    h.operand ⟨Nat.le_refl lo, Nat.le_refl hi⟩ hhi hclear hleave]

theorem alternate (h : Replies g b rest lo mid left exit f) (h' : Replies g b rest mid hi right exit f')
    (hmid : lo ≤ mid ∧ mid ≤ hi) (hfork : Forks g.nodes hi [left, right]) :
    Replies g b rest lo (hi + 1) hi exit fun leave ↦ (f leave).or (f' leave) := by
  intro passed leave hclear hleave
  have hhi := Crosses.fork hfork (Nat.le_trans hmid.1 hmid.2)
  rw [hfork.onward (hclear.notMem (hhi.inside hi hhi.head_mem)), Graph.findSome?_pair,
    h.operand ⟨Nat.le_refl lo, hmid.2⟩ hhi hclear hleave,
    h'.operand ⟨hmid.1, Nat.le_refl hi⟩ hhi hclear hleave]

theorem zeroOrOne (h : Replies g b rest lo hi body exit f) (hle : lo ≤ hi)
    (hfork : Forks g.nodes hi (branches greedy body exit)) :
    Replies g b rest lo (hi + 1) hi exit fun leave ↦ prefer greedy (f leave) leave := by
  intro passed leave hclear hleave
  have hhi := Crosses.fork hfork hle
  rw [hfork.onward (hclear.notMem (hhi.inside hi hhi.head_mem)), Graph.findSome?_branches,
    h.operand ⟨Nat.le_refl lo, Nat.le_refl hi⟩ hhi hclear hleave, ← hleave [hi] hhi,
    List.singleton_append]

/-- An iteration that consumes nothing comes back to the loop, which has been passed. -/
theorem zeroOrMore (h : Replies g b rest lo hi body hi f) (hle : lo ≤ hi)
    (hfork : Forks g.nodes hi (branches greedy body exit)) :
    Replies g b rest lo (hi + 1) hi exit fun leave ↦ prefer greedy (f none) leave := by
  intro passed leave hclear hleave
  have hhi := Crosses.fork hfork hle
  have hbody : g.onward b rest (hi :: passed) body = f none :=
    h (hi :: passed) none (hclear.cons ⟨Nat.le_refl lo, Nat.le_refl hi⟩) fun via _ ↦
      hfork.onward_of_mem (List.mem_append_right via List.mem_cons_self)
  rw [hfork.onward (hclear.notMem (hhi.inside hi hhi.head_mem)), Graph.findSome?_branches, hbody,
    ← hleave [hi] hhi, List.singleton_append]

/-- An iteration that consumes nothing comes to the loop, but its head has been passed, so the loop only
leads out. -/
theorem oneOrMore (h : Replies g b rest lo hi body hi f) (hle : lo ≤ hi)
    (hfork : Forks g.nodes hi (branches greedy body exit)) :
    Replies g b rest lo (hi + 1) body exit f := by
  intro passed leave hclear hleave
  have hhi := Crosses.fork hfork hle
  have hinside : lo ≤ lo ∧ hi ≤ hi + 1 := ⟨Nat.le_refl lo, Nat.le_succ hi⟩
  refine h passed leave (hclear.mono hinside) fun via hvia ↦ ?_
  have hnew : hi ∉ via ++ passed := fun hmem ↦ (List.mem_append.mp hmem).elim
    (fun hmem ↦ Nat.lt_irrefl hi (hvia.inside hi hmem).2)
    (hclear.notMem (hhi.inside hi hhi.head_mem))
  have hhead : g.onward b rest (hi :: (via ++ passed)) body = none :=
    Graph.onward_of_mem (hvia.idle body hvia.head_mem)
      (List.mem_cons_of_mem _ (List.mem_append_left passed hvia.head_mem))
  have hexit : g.onward b rest (hi :: (via ++ passed)) exit = leave :=
    hleave ([hi] ++ via) ((hvia.mono hinside).append hhi)
  rw [hfork.onward hnew, Graph.findSome?_branches, hhead, hexit, Graph.prefer_none_left]

end Replies

/-! ## The reply of a whole pattern -/

variable {p : Pattern α} {base : Nat}

/-- The nodes of a pattern give its reply. -/
theorem replies_block (hbase : 0 < base) (h : Graph.Holds g.nodes base (p.block.nodes base exit)) :
    Replies g b rest base (base + p.block.size) (base + p.block.head) exit
      (p.reply b (g.beyond b rest) base) := by
  induction p generalizing base exit with
  | empty => exact (Replies.passing h.getElem?_eq rfl rfl rfl).congr (Graph.precede_nil b)
  | atom a => exact .atom h.getElem?_eq
  | assert a => exact .assert h.getElem?_eq
  | concat p q ihp ihq =>
    obtain ⟨hp, hq⟩ := h.of_concat
    have hright := ihq (Nat.add_pos_left hbase _) hq
    rw [Nat.add_assoc base p.block.size q.block.size] at hright
    exact (ihp hbase hp).concat hright
      ⟨Nat.le_add_right _ _, Nat.add_le_add_left (Nat.le_add_right _ _) _⟩
  | alternate p q ihp ihq =>
    obtain ⟨hp, hq, hnode⟩ := h.of_alternatives
    have hboth := (ihp hbase hp).alternate (ihq (Nat.add_pos_left hbase _) hq)
      ⟨Nat.le_add_right _ _, Nat.le_add_right _ _⟩
      ⟨Nat.ne_of_gt (Nat.add_pos_left (Nat.add_pos_left hbase _) _), _, hnode, rfl, rfl, rfl, rfl⟩
    rw [Nat.add_assoc base] at hboth
    exact hboth
  | zeroOrMore greedy p ih =>
    obtain ⟨hp, hloop⟩ := h.of_wrap
    exact (ih hbase hp).zeroOrMore (Nat.le_add_right _ _)
      ⟨Nat.ne_of_gt (Nat.add_pos_left hbase _), _, hloop, rfl, rfl, rfl, rfl⟩
  | oneOrMore greedy p ih =>
    obtain ⟨hp, hloop⟩ := h.of_wrap
    exact (ih hbase hp).oneOrMore (Nat.le_add_right _ _)
      ⟨Nat.ne_of_gt (Nat.add_pos_left hbase _), _, hloop, rfl, rfl, rfl, rfl⟩
  | zeroOrOne greedy p ih =>
    obtain ⟨hp, hoption⟩ := h.of_wrap
    exact (ih hbase hp).zeroOrOne (Nat.le_add_right _ _)
      ⟨Nat.ne_of_gt (Nat.add_pos_left hbase _), _, hoption, rfl, rfl, rfl, rfl⟩
  | group number p ih =>
    obtain ⟨hopened, hclose⟩ := h.of_wrap
    obtain ⟨hp, hopen⟩ := hopened.of_wrap
    have hbody := (ih hbase hp).opening (Nat.le_add_right _ _) hopen rfl rfl rfl
    have hinside : base ≤ base + p.block.size + 1 := Nat.le_succ_of_le (Nat.le_add_right _ _)
    refine (hbody.concat (.passing hclose rfl rfl rfl) ⟨hinside, Nat.le_succ _⟩).congr fun leave ↦ ?_
    cases number <;> rfl

/-- A search of the graph of a pattern finds the pattern's reply, where leaving is a match. -/
theorem search_graph (p : Pattern α) (groups : Nat) (b : Boundary) (rest : Ahead) :
    (p.block.graph groups).search (b :: rest) (p.block.graph groups).entry =
      p.reply b ((p.block.graph groups).beyond b rest) 1 (some (b :: rest, [])) := by
  have hentry := p.block.getElem?_entry_graph groups
  have hfinal : (p.block.graph groups).nodes[Graph.final]? = some ⟨.final, false, false, 0, []⟩ := rfl
  rw [Graph.search_eq_onward (p.block.wellFormed_graph groups).entry_ne hentry,
    List.findSome?_singleton]
  exact replies_block Nat.zero_lt_one (p.block.holds_graph groups) [] _ (List.forall_mem_nil _)
    fun via _ ↦ Graph.onward_of_consuming hfinal rfl

/-- Only what is found from the pattern's own atoms counts. -/
theorem reply_congr {found found' : Nat → Option (Ahead × List Mark)}
    (h : ∀ id, base ≤ id → id < base + p.block.size → found id = found' id)
    (leave : Option (Ahead × List Mark)) :
    p.reply b found base leave = p.reply b found' base leave := by
  induction p generalizing base leave with
  | empty => rfl
  | atom a => exact h base (Nat.le_refl base) (Nat.lt_succ_self base)
  | assert a => rfl
  | concat p q ihp ihq =>
    have hsize : (p.concat q).block.size = p.block.size + q.block.size := rfl
    rw [reply, reply, ihp fun id hlo hhi ↦ h id hlo (by omega),
      ihq fun id hlo hhi ↦ h id (by omega) (by omega)]
  | alternate p q ihp ihq =>
    have hsize : (p.alternate q).block.size = p.block.size + (q.block.size + 0) + 1 := rfl
    rw [reply, reply, ihp fun id hlo hhi ↦ h id hlo (by omega),
      ihq fun id hlo hhi ↦ h id (by omega) (by omega)]
  | zeroOrMore greedy p ih => rw [reply, reply, ih fun id hlo hhi ↦ h id hlo (Nat.lt_succ_of_lt hhi)]
  | oneOrMore greedy p ih => exact ih (fun id hlo hhi ↦ h id hlo (Nat.lt_succ_of_lt hhi)) leave
  | zeroOrOne greedy p ih => rw [reply, reply, ih fun id hlo hhi ↦ h id hlo (Nat.lt_succ_of_lt hhi)]
  | group number p ih =>
    have hsize : (p.group number).block.size = p.block.size + 1 + 1 := rfl
    rw [reply, reply, ih fun id hlo hhi ↦ h id hlo (by omega)]

end Pattern

end Lockstep
