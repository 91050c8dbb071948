import Lockstep.Pattern
import Lockstep.Proofs.Graph.Search

/-!
# The graph of a pattern

Wiring a pattern in post-order leaves one fragment on the stack. Its nodes stand in a row, from those
of the operands to that of the operator, and lead from the head of the fragment to wherever its
dangling edges are pointed. Nothing that is wired later changes them otherwise.
-/

namespace Lockstep

universe u

variable {α : Type u}

/-! ## Wired patterns -/

namespace Pattern

/-- The edges of a quantifier over the operand at `body`, the preferred one first. -/
def branches (greedy : Bool) (body exit : Nat) : List Nat :=
  if greedy then [body, exit] else [exit, body]

/-- The nodes of a pattern lead from `head` to `exit`. -/
def Wired (nodes : Array (Node α)) : Pattern α → (head exit : Nat) → Prop
  | .empty, head, exit => nodes[head]? = some { Node.empty with out := [exit] }
  | .atom a, head, exit => nodes[head]? = some { Node.atom a with out := [exit] }
  | .assert a, head, exit => nodes[head]? = some { Node.assert a with out := [exit] }
  | .concat p q, head, exit => ∃ mid, p.Wired nodes head mid ∧ q.Wired nodes mid exit
  | .alternate p q, head, exit => ∃ left right,
      nodes[head]? = some { Node.alternate with out := [left, right] } ∧
        p.Wired nodes left exit ∧ q.Wired nodes right exit
  | .zeroOrMore greedy p, head, exit => ∃ body,
      nodes[head]? = some { Node.zeroOrMore greedy with out := branches greedy body exit } ∧
        p.Wired nodes body head
  | .oneOrMore greedy p, head, exit => ∃ loop,
      nodes[loop]? = some { Node.oneOrMore greedy with out := branches greedy head exit } ∧
        p.Wired nodes head loop
  | .zeroOrOne greedy p, head, exit => ∃ body,
      nodes[head]? = some { Node.zeroOrOne greedy with out := branches greedy body exit } ∧
        p.Wired nodes body exit
  | .group number p, head, exit => ∃ body close,
      nodes[head]? = some { Node.groupStart number with out := [body] } ∧
        p.Wired nodes body close ∧
          nodes[close]? = some { Node.groupEnd number with out := [exit] }

/-- The highest number of a group. -/
def groups : Pattern α → Nat
  | .empty | .atom _ | .assert _ => 0
  | .concat p q | .alternate p q => max p.groups q.groups
  | .zeroOrMore _ p | .oneOrMore _ p | .zeroOrOne _ p => p.groups
  | .group none p => p.groups
  | .group (some n) p => max p.groups n

end Pattern

/-! ## Pointing edges elsewhere -/

namespace Builder

/-- What pointing `edges` at `target` makes of the node with number `id`. -/
def retarget (edges : List Edge) (target id : Nat) (node : Node α) : Node α :=
  edges.foldl (fun node e ↦
    if e.source = id then { node with out := node.out.set e.place target } else node) node

theorem retarget_cons (e : Edge) (edges : List Edge) (target id : Nat) (node : Node α) :
    retarget (e :: edges) target id node = retarget edges target id
      (if e.source = id then { node with out := node.out.set e.place target } else node) := rfl

theorem getElem?_redirect (nodes : Array (Node α)) (edges : Array Edge) (target id : Nat) :
    (redirect nodes edges target)[id]? = nodes[id]?.map (retarget edges.toList target id) := by
  rw [redirect, ← Array.foldl_toList]
  induction edges.toList generalizing nodes with
  | nil => exact Option.map_id'.symm
  | cons e edges ih =>
    rw [List.foldl_cons, ih, Array.getElem?_modify]
    by_cases h : e.source = id
    · rw [if_pos h, Option.map_map]
      exact Option.map_congr fun node _ ↦ by rw [retarget_cons, if_pos h, Function.comp_apply]
    · rw [if_neg h]
      exact Option.map_congr fun node _ ↦ by rw [retarget_cons, if_neg h]

@[simp] theorem size_redirect (nodes : Array (Node α)) (edges : Array Edge) (target : Nat) :
    (redirect nodes edges target).size = nodes.size := by
  rw [redirect, ← Array.foldl_toList]
  induction edges.toList generalizing nodes with
  | nil => rfl
  | cons e edges ih => rw [List.foldl_cons, ih, Array.size_modify]

theorem retarget_of_forall_ne {edges : List Edge} {id : Nat} (h : ∀ e ∈ edges, e.source ≠ id)
    (target : Nat) (node : Node α) : retarget edges target id node = node := by
  induction edges with
  | nil => rfl
  | cons e edges ih =>
    rw [retarget_cons, if_neg (h e List.mem_cons_self)]
    exact ih fun e' he' ↦ h e' (List.mem_cons_of_mem _ he')

theorem getElem?_redirect_of_forall_ne {edges : Array Edge} {id : Nat}
    (h : ∀ e ∈ edges.toList, e.source ≠ id) (nodes : Array (Node α)) (target : Nat) :
    (redirect nodes edges target)[id]? = nodes[id]? := by
  rw [getElem?_redirect, Option.map_congr fun node _ ↦ retarget_of_forall_ne h target node,
    Option.map_id']

/-- An edge that leads to the final node. -/
def Dangles (nodes : Array (Node α)) (e : Edge) : Prop :=
  ∃ node, nodes[e.source]? = some node ∧ node.out[e.place]? = some Graph.final

/-- Edges that lead to the final node already may be pointed there. -/
theorem redirect_final {nodes : Array (Node α)} {edges : Array Edge}
    (h : ∀ e ∈ edges.toList, Dangles nodes e) : redirect nodes edges Graph.final = nodes := by
  rw [redirect, ← Array.foldl_toList]
  generalize edges.toList = edges at h
  induction edges with
  | nil => rfl
  | cons e edges ih =>
    obtain ⟨node, hnode, hplace⟩ := h e List.mem_cons_self
    have hsame : nodes.modify e.source (fun n ↦ { n with out := n.out.set e.place Graph.final }) =
        nodes := by
      refine Array.ext_getElem? fun id ↦ ?_
      rw [Array.getElem?_modify]
      split
      · rename_i hid
        have hset : node.out.set e.place Graph.final = node.out := by
          obtain ⟨hlt, hget⟩ := List.getElem?_eq_some_iff.mp hplace
          rw [← hget, List.set_getElem_self]
        rw [← hid, hnode, Option.map_some, hset]
      · rfl
    rw [List.foldl_cons, hsame]
    exact ih fun e' he' ↦ h e' (List.mem_cons_of_mem _ he')

/-! ## Fragments that stand for patterns -/

/-- The nodes from `lo` up to `hi` are the same. -/
def Agree (nodes nodes' : Array (Node α)) (lo hi : Nat) : Prop :=
  ∀ id, lo ≤ id → id < hi → nodes'[id]? = nodes[id]?

namespace Agree

variable {nodes nodes' nodes'' : Array (Node α)} {lo lo' hi hi' : Nat}

theorem trans (h : Agree nodes nodes' lo hi) (h' : Agree nodes' nodes'' lo hi) :
    Agree nodes nodes'' lo hi := fun id hlo hhi ↦ (h' id hlo hhi).trans (h id hlo hhi)

theorem mono (h : Agree nodes nodes' lo hi) (hlo : lo ≤ lo') (hhi : hi' ≤ hi) :
    Agree nodes nodes' lo' hi' := fun id hlo' hhi' ↦
  h id (Nat.le_trans hlo hlo') (Nat.lt_of_lt_of_le hhi' hhi)

theorem redirect (h : Agree nodes nodes' lo hi) (edges : Array Edge) (target : Nat) :
    Agree (redirect nodes edges target) (Builder.redirect nodes' edges target) lo hi :=
  fun id hlo hhi ↦ by rw [getElem?_redirect, getElem?_redirect, h id hlo hhi]

/-- Edges that leave from outside do not change the nodes. -/
theorem of_redirect {edges : Array Edge} (h : ∀ e ∈ edges.toList, e.source < lo ∨ hi ≤ e.source)
    (nodes : Array (Node α)) (target : Nat) :
    Agree nodes (Builder.redirect nodes edges target) lo hi := by
  intro id hlo hhi
  refine getElem?_redirect_of_forall_ne (fun e he heq ↦ ?_) nodes target
  have := h e he
  omega

theorem push (nodes : Array (Node α)) (node : Node α) (lo : Nat) :
    Agree nodes (nodes.push node) lo nodes.size := by
  intro id _ hhi
  rw [Array.getElem?_push_lt hhi, Array.getElem?_eq_getElem hhi]

end Agree

/-- A fragment stands for a way through its nodes: wherever its dangling edges are pointed, the nodes
from `lo` up to `hi` lead there from its head, and these edges are theirs. -/
structure Stands (nodes : Array (Node α)) (way : Array (Node α) → (head exit : Nat) → Prop)
    (f : Fragment) (lo hi : Nat) : Prop where
  within : ∀ e ∈ f.dangling.toList, lo ≤ e.source ∧ e.source < hi
  dangles : ∀ e ∈ f.dangling.toList, Dangles nodes e
  way : ∀ nodes' exit, Agree (redirect nodes f.dangling exit) nodes' lo hi → way nodes' f.head exit

namespace Stands

variable {nodes nodes' : Array (Node α)} {way way' way'' : Array (Node α) → Nat → Nat → Prop}
  {f left right : Fragment} {lo mid hi : Nat} {node : Node α}

/-- Changes to other nodes do not matter. -/
theorem of_agree (h : Stands nodes way f lo hi) (hagree : Agree nodes nodes' lo hi) :
    Stands nodes' way f lo hi where
  within := h.within
  dangles e he := by
    obtain ⟨hlo, hhi⟩ := h.within e he
    obtain ⟨node, hnode, hplace⟩ := h.dangles e he
    exact ⟨node, (hagree e.source hlo hhi).trans hnode, hplace⟩
  way nodes'' exit hagree' := h.way nodes'' exit ((hagree.redirect f.dangling exit).trans hagree')

/-- A fragment that ends before `hi` has no edges from there on. -/
theorem source_ne (h : Stands nodes way f lo hi) : ∀ e ∈ f.dangling.toList, e.source ≠ hi :=
  fun e he ↦ Nat.ne_of_lt (h.within e he).2

/-- A node without operands. -/
theorem leaf (nodes : Array (Node α)) (node : Node α) (hway : ∀ nodes' exit,
      nodes'[nodes.size]? = some { node with out := [exit] } → way nodes' nodes.size exit) :
    Stands (nodes.push { node with out := [Graph.final] }) way ⟨nodes.size, #[⟨nodes.size, 0⟩]⟩
      nodes.size (nodes.size + 1) where
  within e he := by
    cases List.mem_singleton.mp he
    exact ⟨Nat.le_refl _, Nat.lt_succ_self _⟩
  dangles e he := by
    cases List.mem_singleton.mp he
    exact ⟨_, Array.getElem?_push_size, rfl⟩
  way nodes' exit hagree := hway nodes' exit (by
    rw [hagree _ (Nat.le_refl _) (Nat.lt_succ_self _), getElem?_redirect, Array.getElem?_push_size]
    simp [retarget])

/-- One fragment after the other. -/
theorem concat (hleft : Stands nodes way left lo mid) (hright : Stands nodes way' right mid hi)
    (hlo : lo ≤ mid) (hhi : mid ≤ hi) :
    Stands (redirect nodes left.dangling right.head)
      (fun nodes head exit ↦ ∃ mid, way nodes head mid ∧ way' nodes mid exit)
      ⟨left.head, right.dangling⟩ lo hi := by
  have hother : Agree nodes (redirect nodes left.dangling right.head) mid hi :=
    Agree.of_redirect (fun e he ↦ .inl (hleft.within e he).2) nodes right.head
  constructor
  case within =>
    intro e he
    exact ⟨Nat.le_trans hlo (hright.within e he).1, (hright.within e he).2⟩
  case dangles => exact (hright.of_agree hother).dangles
  case way =>
    intro nodes' exit hagree
    refine ⟨right.head, hleft.way nodes' _ ?_, hright.way nodes' exit ?_⟩
    · exact (Agree.of_redirect (fun e he ↦ .inr (hright.within e he).1) _ exit).trans
        (hagree.mono (Nat.le_refl _) hhi)
    · exact (hother.redirect right.dangling exit).trans (hagree.mono hlo (Nat.le_refl _))

/-- A new node before two fragments that leave by the same exit. -/
theorem alternate (node : Node α) (hleft : Stands nodes way left lo mid)
    (hright : Stands nodes way' right mid nodes.size) (hlo : lo ≤ mid) (hhi : mid ≤ nodes.size)
    (hway : ∀ nodes' exit,
      nodes'[nodes.size]? = some { node with out := [left.head, right.head] } →
        way nodes' left.head exit → way' nodes' right.head exit → way'' nodes' nodes.size exit) :
    Stands (nodes.push { node with out := [left.head, right.head] }) way''
      ⟨nodes.size, left.dangling ++ right.dangling⟩ lo (nodes.size + 1) := by
  have hpush := Agree.push nodes { node with out := [left.head, right.head] } lo
  generalize hnodes : nodes.push { node with out := [left.head, right.head] } = pushed at hpush ⊢
  have hl := hleft.of_agree (hpush.mono (Nat.le_refl _) hhi)
  have hr := hright.of_agree (hpush.mono hlo (Nat.le_refl _))
  have happend : ∀ exit, redirect pushed (left.dangling ++ right.dangling) exit =
      redirect (redirect pushed left.dangling exit) right.dangling exit := fun exit ↦
    Array.foldl_append
  constructor
  case within =>
    intro e he
    rw [Array.toList_append] at he
    rcases List.mem_append.mp he with he | he
    · have := hl.within e he
      omega
    · have := hr.within e he
      omega
  case dangles =>
    intro e he
    rw [Array.toList_append] at he
    exact (List.mem_append.mp he).elim (hl.dangles e) (hr.dangles e)
  case way =>
    intro nodes' exit hagree
    rw [happend] at hagree
    refine hway nodes' exit ?_ (hl.way nodes' exit ?_) (hr.way nodes' exit ?_)
    · rw [hagree _ (by omega) (Nat.lt_succ_self _),
        getElem?_redirect_of_forall_ne hr.source_ne,
        getElem?_redirect_of_forall_ne fun e he ↦ Nat.ne_of_lt (by have := hl.within e he; omega),
        ← hnodes, Array.getElem?_push_size]
    · exact (Agree.of_redirect (fun e he ↦ .inr (hr.within e he).1) _ exit).trans
        (hagree.mono (Nat.le_refl _) (by omega))
    · exact ((Agree.of_redirect (fun e he ↦ .inl (hl.within e he).2) _ exit).redirect _ exit).trans
        (hagree.mono hlo (by omega))

/-- A new node before a fragment, with edges of its own that dangle. -/
theorem enter (h : Stands nodes way f lo nodes.size) (hlo : lo ≤ nodes.size) {own : Array Edge}
    (hown : ∀ e ∈ own.toList, e.source = nodes.size ∧ node.out[e.place]? = some Graph.final)
    (hway : ∀ nodes' exit, nodes'[nodes.size]? = some (retarget own.toList exit nodes.size node) →
      way nodes' f.head exit → way' nodes' nodes.size exit) :
    Stands (nodes.push node) way' ⟨nodes.size, f.dangling ++ own⟩ lo (nodes.size + 1) := by
  have hpush := Agree.push nodes node lo
  have hget : (nodes.push node)[nodes.size]? = some node := Array.getElem?_push_size
  generalize nodes.push node = pushed at hpush hget ⊢
  have hf := h.of_agree hpush
  have happend : ∀ exit, redirect pushed (f.dangling ++ own) exit =
      redirect (redirect pushed f.dangling exit) own exit := fun exit ↦ Array.foldl_append
  constructor
  case within =>
    intro e he
    rw [Array.toList_append] at he
    rcases List.mem_append.mp he with he | he
    · have := hf.within e he
      omega
    · have := (hown e he).1
      omega
  case dangles =>
    intro e he
    rw [Array.toList_append] at he
    rcases List.mem_append.mp he with he | he
    · exact hf.dangles e he
    · obtain ⟨hsource, hplace⟩ := hown e he
      exact ⟨node, by rw [hsource, hget], hplace⟩
  case way =>
    intro nodes' exit hagree
    rw [happend] at hagree
    refine hway nodes' exit ?_ (hf.way nodes' exit ?_)
    · rw [hagree _ hlo (Nat.lt_succ_self _), getElem?_redirect,
        getElem?_redirect_of_forall_ne hf.source_ne, hget, Option.map_some]
    · refine (Agree.of_redirect (fun e he ↦ .inr ?_) _ exit).trans
        (hagree.mono (Nat.le_refl _) (Nat.le_succ _))
      exact Nat.le_of_eq (hown e he).1.symm

/-- A new node after a fragment, which leaves it by the edge at `place`. -/
theorem leave (h : Stands nodes way f lo nodes.size) (hlo : lo ≤ nodes.size) {place : Nat}
    (hplace : node.out[place]? = some Graph.final) {head : Nat}
    (hway : ∀ nodes' exit, nodes'[nodes.size]? = some { node with out := node.out.set place exit } →
      way nodes' f.head nodes.size → way' nodes' head exit) :
    Stands (redirect (nodes.push node) f.dangling nodes.size) way' ⟨head, #[⟨nodes.size, place⟩]⟩ lo
      (nodes.size + 1) := by
  have hpush := (Agree.push nodes node lo).redirect f.dangling nodes.size
  have hget : (redirect (nodes.push node) f.dangling nodes.size)[nodes.size]? = some node := by
    rw [getElem?_redirect_of_forall_ne h.source_ne, Array.getElem?_push_size]
  generalize redirect (nodes.push node) f.dangling nodes.size = pushed at hpush hget ⊢
  constructor
  case within =>
    intro e he
    cases List.mem_singleton.mp he
    exact ⟨hlo, Nat.lt_succ_self _⟩
  case dangles =>
    intro e he
    cases List.mem_singleton.mp he
    exact ⟨node, hget, hplace⟩
  case way =>
    intro nodes' exit hagree
    refine hway nodes' exit ?_ (h.way nodes' nodes.size ?_)
    · rw [hagree _ hlo (Nat.lt_succ_self _), getElem?_redirect, hget]
      simp [retarget]
    · refine hpush.trans ((Agree.of_redirect (fun e he ↦ .inr ?_) _ exit).trans
        (hagree.mono (Nat.le_refl _) (Nat.le_succ _)))
      cases List.mem_singleton.mp he
      exact Nat.le_refl _

end Stands

/-! ## Wiring a pattern -/

theorem pushAll_place {limit index : Nat} {b b' b'' : Builder α} {node : Node α}
    {rest : List (Node α)} (h : b.pushAll limit index (node :: rest) = .ok b')
    (hplace : b.place? node = some b'') : b''.pushAll limit (index + 1) rest = .ok b' := by
  rw [pushAll, push, hplace] at h
  dsimp only at h
  by_cases hlimit : limit < b''.nodes.size
  · rw [if_pos hlimit] at h
    cases h
  · rwa [if_neg hlimit] at h

/-- What each node keeps, a sequence of nodes keeps. -/
theorem pushAll_of_place? {P : Builder α → Prop}
    (hplace : ∀ {b b' : Builder α} {node : Node α}, P b → b.place? node = some b' → P b')
    {limit index : Nat} {b b' : Builder α} {sequence : List (Node α)} (h : P b)
    (hpush : b.pushAll limit index sequence = .ok b') : P b' := by
  induction sequence generalizing b index with
  | nil =>
    cases hpush
    exact h
  | cons node sequence ih =>
    cases hnode : b.place? node with
    | none =>
      rw [pushAll, push, hnode] at hpush
      cases hpush
    | some placed => exact ih (hplace h hnode) (pushAll_place hpush hnode)

/-- A graph is wired from its sequence of nodes, and the entry is added before the fragment left. -/
theorem exists_of_ofPostorder {limit : Nat} {sequence : List (Node α)} {g : Graph α}
    (h : Graph.ofPostorder limit sequence = .ok g) :
    ∃ b f, initial.pushAll (min limit Graph.maxNodes) 0 sequence = .ok b ∧ b.stack = [f] ∧
      g = ⟨b.nodes.push ⟨.entry, false, false, 0, [f.head]⟩, b.nodes.size, b.groups⟩ := by
  unfold Graph.ofPostorder at h
  dsimp only at h
  split at h
  · cases h
  · rename_i b hpush
    refine ⟨b, ?_⟩
    unfold finish at h
    split at h
    · split at h <;> cases h
      exact ⟨_, hpush, rfl, rfl⟩
    · cases h

/-- What wiring operands leaves on the stack: a fragment that stands for a way through its nodes,
before `rest` is wired. -/
structure Placed (limit : Nat) (rest : List (Node α)) (b b' : Builder α)
    (way : Array (Node α) → (head exit : Nat) → Prop) (groups : Nat) (nodes : Array (Node α))
    (f : Fragment) : Prop where
  stands : Stands nodes way f b.nodes.size nodes.size
  agree : Agree b.nodes nodes 0 b.nodes.size
  size : b.nodes.size ≤ nodes.size
  rest : ∃ index, (⟨nodes, f :: b.stack, groups⟩ : Builder α).pushAll limit index rest = .ok b'

namespace Placed

variable {limit index groups groups' place head : Nat} {b b' : Builder α} {rest rest' : List (Node α)}
  {way way' way'' : Array (Node α) → Nat → Nat → Prop} {nodes nodes' : Array (Node α)}
  {f f' : Fragment} {node wired : Node α}

/-- Wiring a node without operands. -/
theorem leaf (h : b.pushAll limit index (node :: rest) = .ok b')
    (hplace : b.place? node = some ⟨b.nodes.push { node with out := [Graph.final] },
      ⟨b.nodes.size, #[⟨b.nodes.size, 0⟩]⟩ :: b.stack, b.groups⟩)
    (hway : ∀ nodes exit, nodes[b.nodes.size]? = some { node with out := [exit] } →
      way nodes b.nodes.size exit) :
    ∃ nodes f, Placed limit rest b b' way b.groups nodes f := by
  have hrest := pushAll_place h hplace
  refine ⟨_, _, ?_, Agree.push _ _ 0, ?_, _, hrest⟩
  · rw [Array.size_push]
    exact Stands.leaf b.nodes node hway
  · rw [Array.size_push]
    exact Nat.le_succ _

/-- Wiring an operator before its operand. -/
theorem enter (h : Placed limit (node :: rest) b b' way groups nodes f) (own : Array Edge)
    (way' : Array (Node α) → (head exit : Nat) → Prop)
    (hplace : place? ⟨nodes, f :: b.stack, groups⟩ node =
      some ⟨nodes.push wired, ⟨nodes.size, f.dangling ++ own⟩ :: b.stack, groups'⟩)
    (hown : ∀ e ∈ own.toList, e.source = nodes.size ∧ wired.out[e.place]? = some Graph.final)
    (hway : ∀ nodes' exit, nodes'[nodes.size]? = some (retarget own.toList exit nodes.size wired) →
      way nodes' f.head exit → way' nodes' nodes.size exit) :
    ∃ nodes f, Placed limit rest b b' way' groups' nodes f := by
  obtain ⟨hstands, hagree, hsize, index, hpush⟩ := h
  have hrest := pushAll_place hpush hplace
  refine ⟨_, _, ?_, hagree.trans ((Agree.push _ _ 0).mono (Nat.le_refl _) hsize), ?_, _, hrest⟩
  · rw [Array.size_push]
    exact hstands.enter hsize hown hway
  · rw [Array.size_push]
    omega

/-- Wiring an operator after its operand. -/
theorem leave (h : Placed limit (node :: rest) b b' way groups nodes f)
    (hplace : place? ⟨nodes, f :: b.stack, groups⟩ node =
      some ⟨redirect (nodes.push wired) f.dangling nodes.size,
        ⟨head, #[⟨nodes.size, place⟩]⟩ :: b.stack, groups'⟩)
    (hout : wired.out[place]? = some Graph.final)
    (hway : ∀ nodes' exit,
      nodes'[nodes.size]? = some { wired with out := wired.out.set place exit } →
        way nodes' f.head nodes.size → way' nodes' head exit) :
    ∃ nodes f, Placed limit rest b b' way' groups' nodes f := by
  obtain ⟨hstands, hagree, hsize, index, hpush⟩ := h
  have hrest := pushAll_place hpush hplace
  have hredirect : Agree (nodes.push wired) (redirect (nodes.push wired) f.dangling nodes.size) 0
      b.nodes.size :=
    Agree.of_redirect (fun e he ↦ .inr (hstands.within e he).1) (nodes.push wired) nodes.size
  refine ⟨_, _, ?_, hagree.trans (((Agree.push _ _ 0).mono (Nat.le_refl _) hsize).trans hredirect),
    ?_, _, hrest⟩
  · rw [size_redirect, Array.size_push]
    exact hstands.leave hsize hout hway
  · rw [size_redirect, Array.size_push]
    omega

/-- Wiring another operand leaves the first as it is. -/
theorem first (h : Placed limit rest b b' way groups nodes f)
    (h' : Placed limit rest' ⟨nodes, f :: b.stack, groups⟩ b' way' groups' nodes' f') :
    Stands nodes' way f b.nodes.size nodes.size ∧ Agree b.nodes nodes' 0 b.nodes.size :=
  ⟨h.stands.of_agree (h'.agree.mono (Nat.zero_le _) (Nat.le_refl _)),
    h.agree.trans (h'.agree.mono (Nat.le_refl _) h.size)⟩

/-- Wiring one operand after another. -/
theorem concat (h : Placed limit rest' b b' way groups nodes f)
    (h' : Placed limit (Node.concat :: rest) ⟨nodes, f :: b.stack, groups⟩ b' way' groups' nodes' f') :
    ∃ nodes f, Placed limit rest b b'
      (fun nodes head exit ↦ ∃ mid, way nodes head mid ∧ way' nodes mid exit) groups' nodes f := by
  obtain ⟨hleft, hagree⟩ := h.first h'
  obtain ⟨hright, -, hsize, index, hpush⟩ := h'
  have hrest := pushAll_place hpush rfl
  refine ⟨_, _, ?_, ?_, ?_, _, hrest⟩
  · rw [size_redirect]
    exact hleft.concat hright h.size hsize
  · exact hagree.trans (Agree.of_redirect (fun e he ↦ .inr (hleft.within e he).1) _ _)
  · rw [size_redirect]
    exact Nat.le_trans h.size hsize

/-- Wiring two operands that leave by the same exit. -/
theorem alternate (h : Placed limit rest' b b' way groups nodes f)
    (h' : Placed limit (Node.alternate :: rest) ⟨nodes, f :: b.stack, groups⟩ b' way' groups' nodes'
      f')
    (hway : ∀ nodes'' exit,
      nodes''[nodes'.size]? = some { Node.alternate with out := [f.head, f'.head] } →
        way nodes'' f.head exit → way' nodes'' f'.head exit → way'' nodes'' nodes'.size exit) :
    ∃ nodes f, Placed limit rest b b' way'' groups' nodes f := by
  obtain ⟨hleft, hagree⟩ := h.first h'
  obtain ⟨hright, -, hsize, index, hpush⟩ := h'
  have hrest := pushAll_place hpush rfl
  have hle : b.nodes.size ≤ nodes'.size := Nat.le_trans h.size hsize
  refine ⟨_, _, ?_, ?_, ?_, _, hrest⟩
  · rw [Array.size_push]
    exact hleft.alternate Node.alternate hright h.size hsize hway
  · exact hagree.trans ((Agree.push _ _ 0).mono (Nat.le_refl _) hle)
  · rw [Array.size_push]
    exact Nat.le_succ_of_le hle

end Placed

/-- The nodes of a pattern are wired to a fragment that stands for it. -/
theorem exists_placed (p : Pattern α) {limit index : Nat} {b b' : Builder α} {rest : List (Node α)}
    (h : b.pushAll limit index (p.nodes ++ rest) = .ok b') :
    ∃ nodes f, Placed limit rest b b' (fun nodes ↦ p.Wired nodes) (max b.groups p.groups) nodes f := by
  induction p generalizing b index rest with
  | empty =>
    rw [Pattern.groups, Nat.max_zero]
    exact Placed.leaf h rfl fun _ _ h ↦ h
  | atom a =>
    rw [Pattern.groups, Nat.max_zero]
    exact Placed.leaf h rfl fun _ _ h ↦ h
  | assert a =>
    rw [Pattern.groups, Nat.max_zero]
    exact Placed.leaf h rfl fun _ _ h ↦ h
  | concat p q ihp ihq =>
    rw [Pattern.nodes, List.append_assoc, List.append_assoc] at h
    obtain ⟨nodes₁, f₁, hleft⟩ := ihp h
    obtain ⟨index, hpush⟩ := hleft.rest
    obtain ⟨nodes₂, f₂, hright⟩ := ihq hpush
    rw [Pattern.groups, ← Nat.max_assoc]
    exact hleft.concat hright
  | alternate p q ihp ihq =>
    rw [Pattern.nodes, List.append_assoc, List.append_assoc] at h
    obtain ⟨nodes₁, f₁, hleft⟩ := ihp h
    obtain ⟨index, hpush⟩ := hleft.rest
    obtain ⟨nodes₂, f₂, hright⟩ := ihq hpush
    rw [Pattern.groups, ← Nat.max_assoc]
    exact hleft.alternate hright fun _ _ hnode hp hq ↦ ⟨_, _, hnode, hp, hq⟩
  | zeroOrMore greedy p ih =>
    rw [Pattern.nodes, List.append_assoc] at h
    obtain ⟨nodes, f, hplaced⟩ := ih h
    refine hplaced.leave rfl ?_ fun nodes' exit hnode hbody ↦ ⟨f.head, ?_, hbody⟩
    · cases greedy <;> rfl
    · rw [hnode]
      cases greedy <;> rfl
  | oneOrMore greedy p ih =>
    rw [Pattern.nodes, List.append_assoc] at h
    obtain ⟨nodes, f, hplaced⟩ := ih h
    refine hplaced.leave rfl ?_ fun nodes' exit hnode hbody ↦ ⟨nodes.size, ?_, hbody⟩
    · cases greedy <;> rfl
    · rw [hnode]
      cases greedy <;> rfl
  | zeroOrOne greedy p ih =>
    rw [Pattern.nodes, List.append_assoc] at h
    obtain ⟨nodes, f, hplaced⟩ := ih h
    refine hplaced.enter #[exit greedy nodes.size] _
      (by rw [← Array.push_eq_append]; rfl) (fun e he ↦ ?_) fun nodes' exit hnode hbody ↦
        ⟨f.head, ?_, hbody⟩
    · cases List.mem_singleton.mp he
      cases greedy <;> exact ⟨rfl, rfl⟩
    · rw [hnode]
      cases greedy <;> simp [retarget, Builder.exit] <;> rfl
  | group number p ih =>
    rw [Pattern.nodes, List.append_assoc] at h
    obtain ⟨nodes₁, f₁, hplaced₁⟩ := ih h
    obtain ⟨nodes₂, f₂, hplaced₂⟩ := hplaced₁.enter #[]
      (fun nodes head exit ↦ ∃ body,
        nodes[head]? = some { Node.groupStart number with out := [body] } ∧ p.Wired nodes body exit)
      (by rw [Array.append_empty]; rfl) nofun fun nodes' exit hnode hbody ↦ ⟨f₁.head, hnode, hbody⟩
    have hgroups : max b.groups (Pattern.group number p).groups =
        noteGroup (noteGroup (max b.groups p.groups) (Node.groupStart number : Node α))
          (Node.groupEnd number : Node α) := by
      cases number with
      | none => rfl
      | some n =>
        simp only [Pattern.groups, noteGroup, Node.groupStart, Node.groupEnd, Option.isSome_some,
          Option.getD_some, if_true]
        omega
    rw [hgroups]
    exact hplaced₂.leave rfl rfl fun nodes' exit hnode ⟨body, hhead, hbody⟩ ↦
      ⟨body, _, hhead, hbody, hnode⟩

end Builder

/-! ## The graph of a pattern -/

namespace Pattern

variable {limit : Nat} {p : Pattern α}

/-- A graph in which the nodes of a pattern lead from the entry to the final node. -/
structure Accepted (p : Pattern α) (g : Graph α) : Prop where
  final : g.nodes[Graph.final]? = some ⟨.final, false, false, 0, []⟩
  entry : ∃ root, g.nodes[g.entry]? = some ⟨.entry, false, false, 0, [root]⟩ ∧
    p.Wired g.nodes root Graph.final
  groups : g.groups = p.groups

theorem Accepted.exists_final {g : Graph α} (h : p.Accepted g) :
    ∃ node, g.nodes[Graph.final]? = some node ∧ node.kind = .final := ⟨_, h.final, rfl⟩

theorem Accepted.wellFormed {g : Graph α} (h : p.Accepted g) : g.WellFormed where
  final := by rw [h.final, Option.map_some]
  entry := by
    obtain ⟨root, hentry, -⟩ := h.entry
    rw [hentry, Option.map_some]

/-- The nodes of a pattern make a graph in which they lead from the entry to the final node. -/
theorem accepted_of_ofPostorder {g : Graph α} (h : Graph.ofPostorder limit p.nodes = .ok g) :
    p.Accepted g := by
  obtain ⟨b, root, hpush, hstack, rfl⟩ := Builder.exists_of_ofPostorder h
  rw [← List.append_nil p.nodes] at hpush
  obtain ⟨nodes, f, hstands, hagree, hsize, index, hrest⟩ := Builder.exists_placed p hpush
  rw [Builder.pushAll] at hrest
  cases hrest
  cases hstack
  have hpush := Builder.Agree.push nodes ⟨.entry, false, false, 0, [root.head]⟩ 1
  refine ⟨?_, ⟨root.head, Array.getElem?_push_size, ?_⟩, Nat.zero_max _⟩
  · have hlt : Graph.final < nodes.size := Nat.lt_of_lt_of_le Nat.zero_lt_one hsize
    exact ((Builder.Agree.push nodes _ 0) _ (Nat.le_refl _) hlt).trans
      (hagree _ (Nat.le_refl _) Nat.zero_lt_one)
  · apply hstands.way
    rw [Builder.redirect_final hstands.dangles]
    exact hpush

/-- The automaton of a pattern is that of such a graph. -/
theorem exists_accepted_of_compile [Atom α] {nfa : Nfa α} (h : p.compile limit = .ok nfa) :
    ∃ g : Graph α, p.Accepted g ∧
      nfa = { Nfa.ofGraph g with startBytes? := (Nfa.ofGraph g).findStartBytes? } := by
  obtain ⟨g, hgraph, rfl⟩ := Nfa.exists_of_compile h
  exact ⟨g, accepted_of_ofPostorder hgraph, rfl⟩

end Pattern

end Lockstep
