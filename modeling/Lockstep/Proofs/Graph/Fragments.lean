import Mathlib.Data.List.Basic
import Mathlib.Logic.Relation
import Lockstep.Proofs.Pattern.Wired

/-!
# The dangling edges of a fragment

While a graph is wired, the operands on the stack are parts of it that have no node in common, and a
fragment names the edges by which its part ends the match: all of them, once each. So pointing these
edges elsewhere is what a walk through the part would do, and no node of a finished graph is off the
way from the entry to the final node.

The nodes of an operand stand in a row, those of the operands below it before them. The operators are
put together from a few steps on such rows: joining two of them, adding a node behind one, and
pointing some of the dangling edges back into it.
-/

namespace Lockstep

universe u

variable {α : Type u}

open Relation (ReflTransGen)

/-! ## Edges -/

namespace Graph

/-- An edge between two nodes. -/
def Link (nodes : Array (Node α)) (source target : Nat) : Prop :=
  ∃ node, nodes[source]? = some node ∧ target ∈ node.out

/-- An edge that does not end the match. -/
def InnerLink (nodes : Array (Node α)) (source target : Nat) : Prop :=
  target ≠ final ∧ Link nodes source target

/-- The node lies on a way from the entry to the final node. -/
def Through (g : Graph α) (id : Nat) : Prop :=
  ReflTransGen (Link g.nodes) g.entry id ∧ ReflTransGen (Link g.nodes) id final

/-- The node, with its edges to the final node pointed at `target`. -/
def pointed (target : Nat) (node : Node α) : Node α :=
  { node with out := node.out.map fun next ↦ if next = final then target else next }

end Graph

namespace Builder

open Lockstep.Graph (InnerLink Link)

section

variable {nodes nodes' : Array (Node α)} {node : Node α} {source target next : Nat} {e : Edge}

theorem inner_congr (h : nodes'[source]? = nodes[source]?) :
    InnerLink nodes' source next ↔ InnerLink nodes source next := by
  rw [InnerLink, InnerLink, Link, Link, h]

theorem dangles_congr (h : nodes'[e.source]? = nodes[e.source]?) :
    Dangles nodes' e ↔ Dangles nodes e := by
  rw [Dangles, Dangles, h]

theorem inner_push_size : InnerLink (nodes.push node) nodes.size next ↔
    next ≠ Graph.final ∧ next ∈ node.out := by
  rw [InnerLink, Link, Array.getElem?_push_size]
  simp

theorem dangles_push_size (place : Nat) : Dangles (nodes.push node) ⟨nodes.size, place⟩ ↔
    node.out[place]? = some Graph.final := by
  rw [Dangles, Array.getElem?_push_size]
  simp

theorem reach_link (h : ReflTransGen (InnerLink nodes) source target) :
    ReflTransGen (Link nodes) source target :=
  ReflTransGen.mono (fun _ _ hstep ↦ hstep.2) _ _ h

/-! ## Edges that are pointed elsewhere -/

/-- Exactly the edges named are pointed at `target`. -/
theorem getElem?_out_retarget (edges : List Edge) (target id place : Nat) (node : Node α) :
    (retarget edges target id node).out[place]? =
      if (⟨id, place⟩ : Edge) ∈ edges then node.out[place]?.map fun _ ↦ target
      else node.out[place]? := by
  induction edges generalizing node with
  | nil => rfl
  | cons e edges ih =>
    rw [retarget_cons, ih]
    by_cases he : e = ⟨id, place⟩
    · subst he
      simp [List.getElem?_set', Function.comp_def, Function.const_def]
    · have hout : (if e.source = id then { node with out := node.out.set e.place target }
          else node).out[place]? = node.out[place]? := by
        split
        · rename_i hsource
          have hplace : e.place ≠ place := fun hplace ↦ he (by rw [← hsource, ← hplace])
          exact List.getElem?_set_ne hplace
        · rfl
      simp only [hout, List.mem_cons, Ne.symm he, false_or]

theorem mem_out_retarget {edges : List Edge} {id : Nat}
    (h : next ∈ (retarget edges target id node).out) : next ∈ node.out ∨ next = target := by
  obtain ⟨place, hplace⟩ := List.mem_iff_getElem?.mp h
  rw [getElem?_out_retarget] at hplace
  split at hplace
  · obtain ⟨_, -, rfl⟩ := Option.map_eq_some_iff.mp hplace
    exact .inr rfl
  · exact .inl (List.mem_of_getElem? hplace)

theorem retarget_with_out (edges : List Edge) (target id : Nat) (node : Node α) :
    { node with out := (retarget edges target id node).out } = retarget edges target id node := by
  induction edges generalizing node with
  | nil => rfl
  | cons e edges ih =>
    rw [retarget_cons]
    split
    · rw [← ih]
    · exact ih node

/-- Edges to other nodes stay. -/
theorem inner_redirect {edges : Array Edge} (hedges : ∀ e ∈ edges.toList, Dangles nodes e)
    (h : InnerLink nodes source next) (target : Nat) :
    InnerLink (redirect nodes edges target) source next := by
  obtain ⟨hne, node, hnode, hnext⟩ := h
  obtain ⟨place, hplace⟩ := List.mem_iff_getElem?.mp hnext
  have hkept : (⟨source, place⟩ : Edge) ∉ edges.toList := by
    intro he
    obtain ⟨node', hnode', hfinal⟩ := hedges _ he
    cases hnode.symm.trans hnode'
    exact hne (Option.some.inj (hplace.symm.trans hfinal))
  refine ⟨hne, retarget edges.toList target source node, ?_, List.mem_iff_getElem?.mpr ⟨place, ?_⟩⟩
  · rw [getElem?_redirect, hnode, Option.map_some]
  · rw [getElem?_out_retarget, if_neg hkept, hplace]

/-- So do the ways that do not end the match. -/
theorem reach_redirect {edges : Array Edge} (hedges : ∀ e ∈ edges.toList, Dangles nodes e)
    (h : ReflTransGen (InnerLink nodes) source next) (target : Nat) :
    ReflTransGen (InnerLink (redirect nodes edges target)) source next :=
  ReflTransGen.mono (fun _ _ hstep ↦ inner_redirect hedges hstep target) _ _ h

theorem inner_redirect_of_mem {edges : Array Edge} (he : e ∈ edges.toList) (h : Dangles nodes e)
    (htarget : target ≠ Graph.final) : InnerLink (redirect nodes edges target) e.source target := by
  obtain ⟨node, hnode, hplace⟩ := h
  refine ⟨htarget, retarget edges.toList target e.source node, ?_,
    List.mem_iff_getElem?.mpr ⟨e.place, ?_⟩⟩
  · rw [getElem?_redirect, hnode, Option.map_some]
  · rw [getElem?_out_retarget, if_pos he, hplace, Option.map_some]

theorem inner_or_eq_of_redirect {edges : Array Edge}
    (h : InnerLink (redirect nodes edges target) source next) :
    InnerLink nodes source next ∨ next = target := by
  obtain ⟨hne, node, hnode, hnext⟩ := h
  rw [getElem?_redirect] at hnode
  obtain ⟨wired, hwired, rfl⟩ := Option.map_eq_some_iff.mp hnode
  exact (mem_out_retarget hnext).imp (fun hnext ↦ ⟨hne, wired, hwired, hnext⟩) fun heq ↦ heq

theorem dangles_redirect {edges : Array Edge} (htarget : target ≠ Graph.final) :
    Dangles (redirect nodes edges target) e ↔ Dangles nodes e ∧ e ∉ edges.toList := by
  have hplace : ∀ node : Node α, (retarget edges.toList target e.source node).out[e.place]? =
      some Graph.final ↔ node.out[e.place]? = some Graph.final ∧ e ∉ edges.toList := by
    intro node
    rw [getElem?_out_retarget]
    split <;> simp_all
  simp only [Dangles, getElem?_redirect, Option.map_eq_some_iff]
  constructor
  · rintro ⟨_, ⟨node, hnode, rfl⟩, hfinal⟩
    exact ⟨⟨node, hnode, ((hplace node).mp hfinal).1⟩, ((hplace node).mp hfinal).2⟩
  · rintro ⟨⟨node, hnode, hfinal⟩, he⟩
    exact ⟨_, ⟨node, hnode, rfl⟩, (hplace node).mpr ⟨hfinal, he⟩⟩

/-- Edges that are all those of a node to the final node. -/
theorem retarget_eq_pointed {edges : List Edge} {id : Nat}
    (h : ∀ place, (⟨id, place⟩ : Edge) ∈ edges ↔ node.out[place]? = some Graph.final) (target : Nat) :
    retarget edges target id node = Graph.pointed target node := by
  have hout : (retarget edges target id node).out = (Graph.pointed target node).out := by
    refine List.ext_getElem? fun place ↦ ?_
    rw [getElem?_out_retarget, Graph.pointed, List.getElem?_map]
    split
    · rename_i he
      rw [(h place).mp he, Option.map_some, Option.map_some, if_pos rfl]
    · rename_i he
      cases hplace : node.out[place]? with
      | none => rfl
      | some next =>
        have hne : next ≠ Graph.final := fun heq ↦ he ((h place).mpr (heq ▸ hplace))
        rw [Option.map_some, if_neg hne]
  rw [← retarget_with_out, hout]
  rfl

end

/-! ## Nodes in a row -/

/-- The nodes from `lo` up to `hi`: they lead to each other and to the final node only, `heads` lead to
all of them, and all of them lead to `ends`, which are their edges to the final node. -/
structure Stretch (nodes : Array (Node α)) (heads : List Nat) (ends : List Edge) (lo hi : Nat) :
    Prop where
  pos : 0 < lo
  le : lo ≤ hi
  within : ∀ id ∈ heads, lo ≤ id ∧ id < hi
  closed : ∀ {id next}, lo ≤ id → id < hi → InnerLink nodes id next → lo ≤ next ∧ next < hi
  reach : ∀ {id}, lo ≤ id → id < hi → ∃ head ∈ heads, ReflTransGen (InnerLink nodes) head id
  leave : ∀ {id}, lo ≤ id → id < hi → ∃ e ∈ ends, ReflTransGen (InnerLink nodes) id e.source
  mem_ends : ∀ {e}, e ∈ ends ↔ (lo ≤ e.source ∧ e.source < hi) ∧ Dangles nodes e
  nodup : ends.Nodup

namespace Stretch

variable {nodes nodes' : Array (Node α)} {heads heads' : List Nat} {ends ends' own : List Edge}
  {edges : Array Edge} {node : Node α} {lo mid hi id next target : Nat}

theorem nil (nodes : Array (Node α)) (hpos : 0 < lo) : Stretch nodes [] [] lo lo where
  pos := hpos
  le := Nat.le_refl _
  within := nofun
  closed hlo hhi := by omega
  reach hlo hhi := by omega
  leave hlo hhi := by omega
  mem_ends := ⟨nofun, fun ⟨hin, _⟩ ↦ by omega⟩
  nodup := List.nodup_nil

theorem dangles (h : Stretch nodes heads ends lo hi) : ∀ e ∈ ends, Dangles nodes e :=
  fun _ he ↦ (h.mem_ends.mp he).2

theorem ne_final (h : Stretch nodes heads ends lo hi) (hlo : lo ≤ id) : id ≠ Graph.final :=
  Nat.ne_of_gt (Nat.lt_of_lt_of_le h.pos hlo)

theorem head_within {head : Nat} (h : Stretch nodes [head] ends lo hi) : lo ≤ head ∧ head < hi :=
  h.within head (List.mem_singleton_self head)

/-- No way leads out but by ending the match. -/
theorem closed_reach (h : Stretch nodes heads ends lo hi) (hlo : lo ≤ id) (hhi : id < hi)
    (hpath : ReflTransGen (InnerLink nodes) id next) : lo ≤ next ∧ next < hi := by
  induction hpath with
  | refl => exact ⟨hlo, hhi⟩
  | tail _ hstep ih => exact h.closed ih.1 ih.2 hstep

/-- Every node leads to the end of the match. -/
theorem reach_final (h : Stretch nodes heads ends lo hi) (hlo : lo ≤ id) (hhi : id < hi) :
    ReflTransGen (Link nodes) id Graph.final := by
  obtain ⟨e, he, hpath⟩ := h.leave hlo hhi
  obtain ⟨node, hnode, hplace⟩ := h.dangles e he
  exact (reach_link hpath).tail ⟨node, hnode, List.mem_of_getElem? hplace⟩

/-- Changes to other nodes do not matter. -/
theorem of_agree (h : Stretch nodes heads ends lo hi) (hagree : Agree nodes nodes' lo hi) :
    Stretch nodes' heads ends lo hi := by
  have hpath : ∀ {id next}, lo ≤ id → id < hi → ReflTransGen (InnerLink nodes) id next →
      ReflTransGen (InnerLink nodes') id next := by
    intro id next hlo hhi hpath
    induction hpath with
    | refl => exact .refl
    | tail hpath hstep ih =>
      obtain ⟨hlo', hhi'⟩ := h.closed_reach hlo hhi hpath
      exact ih.tail ((inner_congr (hagree _ hlo' hhi')).mpr hstep)
  constructor
  case pos => exact h.pos
  case le => exact h.le
  case within => exact h.within
  case closed =>
    intro id next hlo hhi hstep
    exact h.closed hlo hhi ((inner_congr (hagree id hlo hhi)).mp hstep)
  case reach =>
    intro id hlo hhi
    obtain ⟨head, hhead, hreach⟩ := h.reach hlo hhi
    exact ⟨head, hhead, hpath (h.within head hhead).1 (h.within head hhead).2 hreach⟩
  case leave =>
    intro id hlo hhi
    obtain ⟨e, he, hleave⟩ := h.leave hlo hhi
    exact ⟨e, he, hpath hlo hhi hleave⟩
  case mem_ends =>
    intro e
    rw [h.mem_ends]
    exact and_congr_right fun hin ↦ (dangles_congr (hagree _ hin.1 hin.2)).symm
  case nodup => exact h.nodup

/-- Two rows, one behind the other. -/
theorem append (h : Stretch nodes heads ends lo mid) (h' : Stretch nodes heads' ends' mid hi) :
    Stretch nodes (heads ++ heads') (ends ++ ends') lo hi := by
  have hle := h.le
  have hle' := h'.le
  constructor
  case pos => exact h.pos
  case le => omega
  case within =>
    intro id hid
    rcases List.mem_append.mp hid with hid | hid
    · have := h.within id hid
      omega
    · have := h'.within id hid
      omega
  case closed =>
    intro id next hlo hhi hstep
    rcases Nat.lt_or_ge id mid with hlt | hge
    · have := h.closed hlo hlt hstep
      omega
    · have := h'.closed hge hhi hstep
      omega
  case reach =>
    intro id hlo hhi
    rcases Nat.lt_or_ge id mid with hlt | hge
    · exact (h.reach hlo hlt).imp fun _ hin ↦ hin.imp_left (List.mem_append_left _)
    · exact (h'.reach hge hhi).imp fun _ hin ↦ hin.imp_left (List.mem_append_right _)
  case leave =>
    intro id hlo hhi
    rcases Nat.lt_or_ge id mid with hlt | hge
    · exact (h.leave hlo hlt).imp fun _ hin ↦ hin.imp_left (List.mem_append_left _)
    · exact (h'.leave hge hhi).imp fun _ hin ↦ hin.imp_left (List.mem_append_right _)
  case mem_ends =>
    intro e
    rw [List.mem_append, h.mem_ends, h'.mem_ends, ← or_and_right]
    exact and_congr_left' (by omega)
  case nodup =>
    refine List.nodup_append.mpr ⟨h.nodup, h'.nodup, fun e he e' he' heq ↦ ?_⟩
    subst heq
    have := (h.mem_ends.mp he).1
    have := (h'.mem_ends.mp he').1
    omega

/-- A new node behind a row, which leads to the heads and may have dangling edges of its own. -/
theorem push (h : Stretch nodes heads ends lo nodes.size) (hheads : ∀ head ∈ heads, head ∈ node.out)
    (hout : ∀ next ∈ node.out, next ≠ Graph.final → lo ≤ next ∧ next < nodes.size)
    (hown : ∀ e, e ∈ own ↔ e.source = nodes.size ∧ node.out[e.place]? = some Graph.final)
    (hnodup : own.Nodup) (hne : heads ≠ [] ∨ own ≠ []) :
    Stretch (nodes.push node) [nodes.size] (ends ++ own) lo (nodes.size + 1) := by
  have hle := h.le
  have hold := h.of_agree (Agree.push nodes node lo)
  have hlink : ∀ head ∈ heads, InnerLink (nodes.push node) nodes.size head := fun head hhead ↦
    inner_push_size.mpr ⟨h.ne_final (h.within head hhead).1, hheads head hhead⟩
  have hlast : ∀ {id}, id < nodes.size + 1 → id < nodes.size ∨ id = nodes.size := fun hlt ↦
    Nat.lt_succ_iff_lt_or_eq.mp hlt
  constructor
  case pos => exact h.pos
  case le => omega
  case within =>
    intro id hid
    cases List.mem_singleton.mp hid
    omega
  case closed =>
    intro id next hlo hhi hstep
    rcases hlast hhi with hlt | rfl
    · have := hold.closed hlo hlt hstep
      omega
    · obtain ⟨hnext, hmem⟩ := inner_push_size.mp hstep
      have := hout next hmem hnext
      omega
  case reach =>
    intro id hlo hhi
    rcases hlast hhi with hlt | rfl
    · obtain ⟨head, hhead, hreach⟩ := hold.reach hlo hlt
      exact ⟨_, List.mem_singleton_self _, hreach.head (hlink head hhead)⟩
    · exact ⟨_, List.mem_singleton_self _, .refl⟩
  case leave =>
    intro id hlo hhi
    rcases hlast hhi with hlt | rfl
    · exact (hold.leave hlo hlt).imp fun _ hin ↦ hin.imp_left (List.mem_append_left _)
    · rcases hne with hne | hne
      · obtain ⟨head, hhead⟩ := List.exists_mem_of_ne_nil heads hne
        obtain ⟨e, he, hleave⟩ := hold.leave (h.within head hhead).1 (h.within head hhead).2
        exact ⟨e, List.mem_append_left _ he, hleave.head (hlink head hhead)⟩
      · obtain ⟨e, he⟩ := List.exists_mem_of_ne_nil own hne
        exact ⟨e, List.mem_append_right _ he, ((hown e).mp he).1 ▸ .refl⟩
  case mem_ends =>
    rintro ⟨source, place⟩
    rw [List.mem_append, hold.mem_ends, hown]
    by_cases hsource : source = nodes.size
    · subst hsource
      rw [dangles_push_size]
      simp [hle]
    · have hin : source < nodes.size + 1 ↔ source < nodes.size := by omega
      simp [hsource, hin]
  case nodup =>
    refine List.nodup_append.mpr ⟨h.nodup, hnodup, fun e he e' he' heq ↦ ?_⟩
    subst heq
    have := (h.mem_ends.mp he).1
    have := ((hown e).mp he').1
    omega

/-- The nodes lead to wherever the dangling edges are pointed. -/
theorem reach_target (h : Stretch nodes heads edges.toList lo hi) (hlo : lo ≤ id) (hhi : id < hi)
    (htarget : target ≠ Graph.final) :
    ReflTransGen (InnerLink (redirect nodes edges target)) id target := by
  obtain ⟨e, he, hleave⟩ := h.leave hlo hhi
  exact (reach_redirect h.dangles hleave target).tail
    (inner_redirect_of_mem he (h.dangles e he) htarget)

/-- Some of the dangling edges are pointed at a node of the row that leads to one of the others. -/
theorem redirect (h : Stretch nodes heads (edges.toList ++ ends) lo hi) (hlo : lo ≤ target)
    (hhi : target < hi) (hends : ∃ e ∈ ends, ReflTransGen (InnerLink nodes) target e.source) :
    Stretch (redirect nodes edges target) heads ends lo hi := by
  have htarget : target ≠ Graph.final := h.ne_final hlo
  have hedges : ∀ e ∈ edges.toList, Dangles nodes e := fun e he ↦
    h.dangles e (List.mem_append_left _ he)
  obtain ⟨hnodup, hnodup', hdisjoint⟩ := List.nodup_append.mp h.nodup
  constructor
  case pos => exact h.pos
  case le => exact h.le
  case within => exact h.within
  case closed =>
    intro id next hlo' hhi' hstep
    rcases inner_or_eq_of_redirect hstep with hstep | rfl
    · exact h.closed hlo' hhi' hstep
    · exact ⟨hlo, hhi⟩
  case reach =>
    intro id hlo' hhi'
    obtain ⟨head, hhead, hreach⟩ := h.reach hlo' hhi'
    exact ⟨head, hhead, reach_redirect hedges hreach target⟩
  case leave =>
    intro id hlo' hhi'
    obtain ⟨e, he, hleave⟩ := h.leave hlo' hhi'
    have hkept := reach_redirect hedges hleave target
    rcases List.mem_append.mp he with he | he
    · obtain ⟨e', he', hrest⟩ := hends
      have hstep := inner_redirect_of_mem he (hedges e he) htarget
      exact ⟨e', he', (hkept.tail hstep).trans (reach_redirect hedges hrest target)⟩
    · exact ⟨e, he, hkept⟩
  case mem_ends =>
    intro e
    rw [dangles_redirect htarget, ← and_assoc, ← h.mem_ends, List.mem_append]
    constructor
    · exact fun he ↦ ⟨.inr he, fun he' ↦ hdisjoint e he' e he rfl⟩
    · exact fun ⟨he, hne⟩ ↦ he.resolve_left hne
  case nodup => exact hnodup'

/-- Other heads that lead to the heads. -/
theorem of_heads (h : Stretch nodes heads ends lo hi) (hheads : ∀ id ∈ heads', lo ≤ id ∧ id < hi)
    (hreach : ∀ head ∈ heads, ∃ head' ∈ heads', ReflTransGen (InnerLink nodes) head' head) :
    Stretch nodes heads' ends lo hi where
  pos := h.pos
  le := h.le
  within := hheads
  closed := h.closed
  reach hlo hhi := by
    obtain ⟨head, hhead, hrest⟩ := h.reach hlo hhi
    obtain ⟨head', hhead', hfirst⟩ := hreach head hhead
    exact ⟨head', hhead', hfirst.trans hrest⟩
  leave := h.leave
  mem_ends := h.mem_ends
  nodup := h.nodup

/-- A row and its head hold the same nodes. -/
theorem reach_iff {head : Nat} (h : Stretch nodes [head] ends lo hi) :
    ReflTransGen (InnerLink nodes) head id ↔ lo ≤ id ∧ id < hi := by
  obtain ⟨hlo, hhi⟩ := h.head_within
  refine ⟨h.closed_reach hlo hhi, fun hin ↦ ?_⟩
  obtain ⟨head', hhead', hreach⟩ := h.reach hin.1 hin.2
  cases List.mem_singleton.mp hhead'
  exact hreach

/-! ## The nodes of an operator -/

/-- A node without operands. -/
theorem leaf (hpos : 0 < nodes.size) (node : Node α) :
    Stretch (nodes.push { node with out := [Graph.final] }) [nodes.size] [⟨nodes.size, 0⟩] nodes.size
      (nodes.size + 1) := by
  refine (nil nodes hpos).push nofun (by simp) (fun e ↦ ?_) (List.pairwise_singleton _ _) (by simp)
  obtain ⟨source, place⟩ := e
  cases place <;> simp

/-- One operand after the other. -/
theorem concat {left right : Nat} {edges edges' : Array Edge}
    (h : Stretch nodes [left] edges.toList lo mid) (h' : Stretch nodes [right] edges'.toList mid hi) :
    Stretch (Builder.redirect nodes edges right) [left] edges'.toList lo hi := by
  have hle := h.le
  have hle' := h'.le
  obtain ⟨hleft, hleft'⟩ := h.head_within
  obtain ⟨hright, hright'⟩ := h'.head_within
  refine ((h.append h').redirect (by omega) hright' (h'.leave hright hright')).of_heads ?_ ?_
  · intro id hid
    cases List.mem_singleton.mp hid
    omega
  · intro head hhead
    refine ⟨left, List.mem_singleton_self left, ?_⟩
    rcases List.mem_pair.mp hhead with rfl | rfl
    · exact .refl
    · exact h.reach_target hleft hleft' (h'.ne_final hright)

/-- A new node that leads to the heads and nowhere else. -/
theorem enter (h : Stretch nodes heads ends lo nodes.size) (hne : heads ≠ []) (node : Node α) :
    Stretch (nodes.push { node with out := heads }) [nodes.size] ends lo (nodes.size + 1) := by
  rw [← List.append_nil ends]
  refine h.push (fun _ hhead ↦ hhead) (fun next hnext _ ↦ h.within next hnext) (fun e ↦ ?_)
    List.nodup_nil (.inl hne)
  refine ⟨nofun, fun ⟨_, hplace⟩ ↦ ?_⟩
  have hfinal := (h.within _ (List.mem_of_getElem? hplace)).1
  exact absurd rfl (h.ne_final hfinal)

/-- A new node that leads to the operand and past it. -/
theorem choice {head : Nat} (h : Stretch nodes [head] ends lo nodes.size) (node : Node α)
    (greedy : Bool) :
    Stretch (nodes.push { node with out := choices greedy head }) [nodes.size]
      (ends ++ [exit greedy nodes.size]) lo (nodes.size + 1) := by
  have hin := h.head_within
  have hne : head ≠ Graph.final := h.ne_final hin.1
  refine h.push (fun id hid ↦ ?_) (fun next hnext hnext' ↦ ?_) (fun e ↦ ?_)
    (List.pairwise_singleton _ _) (.inl (List.cons_ne_nil _ _))
  · cases List.mem_singleton.mp hid
    cases greedy <;> simp [choices]
  · have hnext : next = head ∨ next = Graph.final := by
      cases greedy <;> simpa [choices, or_comm] using hnext
    exact hnext.elim (fun heq ↦ heq ▸ hin) fun heq ↦ absurd heq hnext'
  · obtain ⟨source, place⟩ := e
    rcases place with _ | _ | place <;> cases greedy <;> simp [choices, exit, hne]

/-- A new node that leads to the operand, which leads back to it. -/
theorem loop {head : Nat} (h : Stretch nodes [head] edges.toList lo nodes.size) (node : Node α)
    (greedy : Bool) :
    Stretch (Builder.redirect (nodes.push { node with out := choices greedy head }) edges nodes.size)
      [nodes.size] [exit greedy nodes.size] lo (nodes.size + 1) :=
  (h.choice node greedy).redirect h.le (Nat.lt_succ_self _) ⟨_, List.mem_singleton_self _, .refl⟩

/-- A loop that is entered by its operand. -/
theorem loop_of_operand {head : Nat} (h : Stretch nodes [head] edges.toList lo nodes.size)
    (node : Node α) (greedy : Bool) :
    Stretch (Builder.redirect (nodes.push { node with out := choices greedy head }) edges nodes.size)
      [head] [exit greedy nodes.size] lo (nodes.size + 1) := by
  obtain ⟨hlo, hhi⟩ := h.head_within
  refine (h.loop node greedy).of_heads (fun id hid ↦ ?_) fun id hid ↦ ?_
  · cases List.mem_singleton.mp hid
    exact ⟨hlo, Nat.lt_succ_of_lt hhi⟩
  · cases List.mem_singleton.mp hid
    exact ⟨head, List.mem_singleton_self head,
      (h.of_agree (Agree.push nodes _ lo)).reach_target hlo hhi (h.ne_final h.le)⟩

end Stretch

/-! ## The operands on the stack -/

/-- The operands fill the nodes between the final one and `hi`, the last operand last. -/
inductive Stacked (nodes : Array (Node α)) : List Fragment → (hi : Nat) → Prop where
  | nil : Stacked nodes [] 1
  | cons {f : Fragment} {stack : List Fragment} {lo hi : Nat}
      (h : Stretch nodes [f.head] f.dangling.toList lo hi) (hrest : Stacked nodes stack lo) :
      Stacked nodes (f :: stack) hi

namespace Stacked

variable {nodes nodes' : Array (Node α)} {stack : List Fragment} {hi : Nat}

theorem pos (h : Stacked nodes stack hi) : 0 < hi := by
  cases h with
  | nil => exact Nat.zero_lt_one
  | cons h hrest => exact Nat.lt_of_lt_of_le h.pos h.le

theorem of_agree (h : Stacked nodes stack hi) (hagree : Agree nodes nodes' 0 hi) :
    Stacked nodes' stack hi := by
  induction h with
  | nil => exact .nil
  | cons h hrest ih =>
    exact .cons (h.of_agree (hagree.mono (Nat.zero_le _) (Nat.le_refl _)))
      (ih (hagree.mono (Nat.le_refl _) h.le))

end Stacked

/-- The final node ends the match, and the operands fill the nodes behind it. -/
structure Laid (b : Builder α) : Prop where
  final : b.nodes[Graph.final]? = some ⟨.final, false, false, 0, []⟩
  stacked : Stacked b.nodes b.stack b.nodes.size

theorem laid_initial : (initial : Builder α).Laid := ⟨rfl, .nil⟩

namespace Laid

variable {b b' : Builder α} {nodes : Array (Node α)} {stack : List Fragment}
  {f operand : Fragment} {node : Node α} {lo groups : Nat}

/-- An operand in the place of the last ones leaves the others as they are. -/
theorem of_stretch (h : b.Laid) (hrest : Stacked b.nodes stack lo) (hagree : Agree b.nodes nodes 0 lo)
    (hf : Stretch nodes [f.head] f.dangling.toList lo nodes.size) (groups : Nat) :
    Laid ⟨nodes, f :: stack, groups⟩ where
  final := (hagree _ (Nat.le_refl _) hrest.pos).trans h.final
  stacked := .cons hf (hrest.of_agree hagree)

theorem leaf (h : b.Laid) (node : Node α) (groups : Nat) :
    Laid ⟨b.nodes.push { node with out := [Graph.final] },
      ⟨b.nodes.size, #[⟨b.nodes.size, 0⟩]⟩ :: b.stack, groups⟩ := by
  refine h.of_stretch h.stacked (Agree.push b.nodes _ 0) ?_ groups
  rw [Array.size_push]
  exact Stretch.leaf h.stacked.pos node

/-- An operator with one operand, which adds a node. -/
theorem push (h : Laid ⟨nodes, operand :: stack, groups⟩)
    (hf : ∀ {lo}, Stretch nodes [operand.head] operand.dangling.toList lo nodes.size →
      Stretch (nodes.push node) [f.head] f.dangling.toList lo (nodes.size + 1)) (groups : Nat) :
    Laid ⟨nodes.push node, f :: stack, groups⟩ := by
  obtain _ | ⟨hoperand, hrest⟩ := h.stacked
  refine h.of_stretch hrest ((Agree.push nodes node 0).mono (Nat.le_refl _) hoperand.le) ?_ groups
  rw [Array.size_push]
  exact hf hoperand

/-- An operator with one operand, which adds a node that the operand leads to. -/
theorem push_redirect (h : Laid ⟨nodes, operand :: stack, groups⟩)
    (hf : ∀ {lo}, Stretch nodes [operand.head] operand.dangling.toList lo nodes.size →
      Stretch (redirect (nodes.push node) operand.dangling nodes.size) [f.head] f.dangling.toList lo
        (nodes.size + 1)) (groups : Nat) :
    Laid ⟨redirect (nodes.push node) operand.dangling nodes.size, f :: stack, groups⟩ := by
  obtain _ | ⟨hoperand, hrest⟩ := h.stacked
  refine h.of_stretch hrest ?_ ?_ groups
  · exact ((Agree.push nodes node 0).mono (Nat.le_refl _) hoperand.le).trans
      (Agree.of_redirect (fun _ he ↦ .inr (hoperand.mem_ends.mp he).1.1) _ _)
  · rw [size_redirect, Array.size_push]
    exact hf hoperand

theorem place? (h : b.Laid) (hplace : b.place? node = some b') : b'.Laid := by
  unfold Builder.place? at hplace
  split at hplace <;> cases hplace
  -- nodes without operands
  · exact h.leaf node _
  · exact h.leaf node _
  · exact h.leaf node _
  -- nodes with two operands
  · rename_i nodes right left stack groups _
    obtain _ | ⟨hright, _ | ⟨hleft, hrest⟩⟩ := h.stacked
    refine h.of_stretch hrest (Agree.of_redirect (fun _ he ↦ .inr (hleft.mem_ends.mp he).1.1) _ _) ?_ _
    rw [size_redirect]
    exact hleft.concat hright
  · rename_i nodes right left stack groups _
    obtain _ | ⟨hright, _ | ⟨hleft, hrest⟩⟩ := h.stacked
    refine h.of_stretch hrest
      ((Agree.push nodes _ 0).mono (Nat.le_refl _) (Nat.le_trans hleft.le hright.le)) ?_ _
    rw [Array.size_push, Array.toList_append]
    exact (hleft.append hright).enter (List.cons_ne_nil _ _) node
  -- nodes with one operand
  · exact h.push_redirect (fun hoperand ↦ hoperand.loop node _) _
  · exact h.push_redirect (fun hoperand ↦ hoperand.loop_of_operand node _) _
  · refine h.push (fun hoperand ↦ ?_) _
    rw [Array.toList_push]
    exact hoperand.choice node _
  · exact h.push (fun hoperand ↦ hoperand.enter (List.cons_ne_nil _ _) node) _
  · refine h.push_redirect (fun hoperand ↦ ?_) _
    have hpos := Nat.lt_of_lt_of_le hoperand.pos hoperand.le
    exact (hoperand.of_agree (Agree.push _ _ _)).concat (Stretch.leaf hpos node)

end Laid

end Builder

/-! ## What a fragment holds -/

/-- The fragment holds the nodes that its head leads to without ending the match. -/
def Fragment.Holds (nodes : Array (Node α)) (f : Fragment) (id : Nat) : Prop :=
  ReflTransGen (Graph.InnerLink nodes) f.head id

/-- A way that does not end the match does not leave the fragment. -/
theorem Fragment.Holds.path {nodes : Array (Node α)} {f : Fragment} {id next : Nat}
    (h : f.Holds nodes id) (hpath : ReflTransGen (Graph.InnerLink nodes) id next) :
    ReflTransGen (fun source target ↦ Graph.Link nodes source target ∧ f.Holds nodes target) id
      next := by
  induction hpath with
  | refl => exact .refl
  | tail hpath hstep ih => exact ih.tail ⟨hstep.2, (h.trans hpath).tail hstep⟩

/-- What a walk through the fragment makes of all nodes, when it points the edges to the final node at
`target`. -/
structure Fragment.Walked (nodes : Array (Node α)) (f : Fragment) (target : Nat)
    (before after : Array (Node α)) : Prop where
  held : ∀ id, f.Holds nodes id → after[id]? = before[id]?.map (Graph.pointed target)
  other : ∀ id, ¬f.Holds nodes id → after[id]? = before[id]?

/-- The dangling edges of the fragment are those of its nodes that end the match. -/
structure Fragment.Exact (nodes : Array (Node α)) (f : Fragment) : Prop where
  /-- Every node leads to a dangling edge, by nodes of the fragment. -/
  leave : ∀ id, f.Holds nodes id → ∃ e ∈ f.dangling.toList,
    ReflTransGen (fun source target ↦ Graph.Link nodes source target ∧ f.Holds nodes target) id
      e.source
  mem_dangling : ∀ e, e ∈ f.dangling.toList ↔ f.Holds nodes e.source ∧ Builder.Dangles nodes e
  nodup : f.dangling.toList.Nodup
  nonempty : f.dangling ≠ #[]
  /-- Also when there are other nodes by now. -/
  redirect : ∀ nodes', (∀ id, f.Holds nodes id → nodes'[id]? = nodes[id]?) → ∀ target,
    f.Walked nodes target nodes' (Builder.redirect nodes' f.dangling target)

/-- The operands on the stack share out all nodes but the final one. -/
structure Builder.Exact (b : Builder α) : Prop where
  /-- Nothing leads on from the final node, so no way goes by it. -/
  final : ∃ node, b.nodes[Graph.final]? = some node ∧ node.out = []
  disjoint : b.stack.Pairwise fun f f' ↦ ∀ id, f.Holds b.nodes id → ¬f'.Holds b.nodes id
  cover : ∀ id, (∃ f ∈ b.stack, f.Holds b.nodes id) ↔ id ≠ Graph.final ∧ id < b.nodes.size
  fragments : ∀ f ∈ b.stack, f.Exact b.nodes

namespace Builder

variable {nodes : Array (Node α)} {stack : List Fragment} {f : Fragment} {lo hi id : Nat}

namespace Stretch

theorem walked (h : Stretch nodes [f.head] f.dangling.toList lo hi) {nodes' : Array (Node α)}
    (hsame : ∀ id, f.Holds nodes id → nodes'[id]? = nodes[id]?) (target : Nat) :
    f.Walked nodes target nodes' (Builder.redirect nodes' f.dangling target) where
  held id hid := by
    rw [getElem?_redirect, hsame id hid]
    refine Option.map_congr fun node hnode ↦ retarget_eq_pointed (fun place ↦ ?_) target
    rw [h.mem_ends, and_iff_right (h.reach_iff.mp hid)]
    simp [Dangles, hnode]
  other id hid := by
    refine getElem?_redirect_of_forall_ne (fun e he heq ↦ hid (h.reach_iff.mpr ?_)) nodes' target
    rw [← heq]
    exact (h.mem_ends.mp he).1

theorem exact (h : Stretch nodes [f.head] f.dangling.toList lo hi) : f.Exact nodes where
  leave id hid := by
    obtain ⟨hlo, hhi⟩ := h.reach_iff.mp hid
    obtain ⟨e, he, hpath⟩ := h.leave hlo hhi
    exact ⟨e, he, hid.path hpath⟩
  mem_dangling e := h.mem_ends.trans (and_congr_left' h.reach_iff.symm)
  nodup := h.nodup
  nonempty := by
    obtain ⟨hlo, hhi⟩ := h.head_within
    obtain ⟨e, he, -⟩ := h.leave hlo hhi
    intro hempty
    rw [hempty] at he
    cases he
  redirect nodes' hsame target := h.walked hsame target

end Stretch

namespace Stacked

theorem exists_stretch (h : Stacked nodes stack hi) (hf : f ∈ stack) :
    ∃ lo mid, Stretch nodes [f.head] f.dangling.toList lo mid ∧ mid ≤ hi := by
  induction h with
  | nil => cases hf
  | cons hstretch hrest ih =>
    rcases List.mem_cons.mp hf with rfl | hf
    · exact ⟨_, _, hstretch, Nat.le_refl _⟩
    · obtain ⟨lo, mid, hbefore, hle⟩ := ih hf
      exact ⟨lo, mid, hbefore, Nat.le_trans hle hstretch.le⟩

theorem disjoint (h : Stacked nodes stack hi) :
    stack.Pairwise fun f f' ↦ ∀ id, f.Holds nodes id → ¬f'.Holds nodes id := by
  induction h with
  | nil => exact .nil
  | cons hstretch hrest ih =>
    refine List.pairwise_cons.mpr ⟨fun f' hf' id hid hid' ↦ ?_, ih⟩
    obtain ⟨lo', mid, hbefore, hle⟩ := hrest.exists_stretch hf'
    have := hstretch.reach_iff.mp hid
    have := hbefore.reach_iff.mp hid'
    omega

theorem exists_holds_iff (h : Stacked nodes stack hi) :
    (∃ f ∈ stack, f.Holds nodes id) ↔ id ≠ Graph.final ∧ id < hi := by
  induction h with
  | nil => simp
  | cons hstretch hrest ih =>
    rw [List.exists_mem_cons_iff, ih, Fragment.Holds, hstretch.reach_iff]
    have := hrest.pos
    have := hstretch.le
    have : id ≠ Graph.final ↔ 0 < id := Nat.pos_iff_ne_zero.symm
    omega

end Stacked

theorem Laid.exact {b : Builder α} (h : b.Laid) : b.Exact where
  final := ⟨_, h.final, rfl⟩
  disjoint := h.stacked.disjoint
  cover _ := h.stacked.exists_holds_iff
  fragments f hf := by
    obtain ⟨lo, mid, hstretch, -⟩ := h.stacked.exists_stretch hf
    exact hstretch.exact

theorem laid_of_pushAll {limit : Nat} {sequence : List (Node α)} {b : Builder α}
    (h : initial.pushAll limit 0 sequence = .ok b) : b.Laid :=
  pushAll_of_place? Laid.place? laid_initial h

end Builder

/-- Every node of a finished graph is on the way from the entry to the final node. -/
theorem Graph.through_of_ofPostorder {limit id : Nat} {sequence : List (Node α)} {g : Graph α}
    (h : Graph.ofPostorder limit sequence = .ok g) (hid : id < g.nodes.size) : g.Through id := by
  obtain ⟨b, f, hpush, hstack, rfl⟩ := Builder.exists_of_ofPostorder h
  have hstacked := (Builder.laid_of_pushAll hpush).stacked
  rw [hstack] at hstacked
  obtain _ | ⟨hoperand, _ | _⟩ := hstacked
  have hall := hoperand.enter (List.cons_ne_nil _ _) ⟨.entry, false, false, 0, []⟩
  rw [Array.size_push] at hid
  dsimp only [Graph.Through]
  generalize b.nodes.push ⟨.entry, false, false, 0, [f.head]⟩ = nodes at hall ⊢
  rcases Nat.eq_zero_or_pos id with rfl | hpos
  · exact ⟨hall.reach_final hoperand.le (Nat.lt_succ_self _), .refl⟩
  · exact ⟨Builder.reach_link (hall.reach_iff.mpr ⟨hpos, hid⟩), hall.reach_final hpos hid⟩

/-- After every prefix of a sequence of nodes, the operands on the stack share out the nodes and name
the edges that end the match. -/
theorem Builder.exact_of_pushAll (limit : Nat) (sequence : List (Node α)) :
    (∀ first b, first <+: sequence → initial.pushAll limit 0 first = .ok b → b.Exact) ∧
      ∀ g, Graph.ofPostorder limit sequence = .ok g → ∀ id < g.nodes.size, g.Through id :=
  ⟨fun _ _ _ hpush ↦ (laid_of_pushAll hpush).exact,
    fun _ hgraph _ hid ↦ Graph.through_of_ofPostorder hgraph hid⟩

/-- A lazy loop and an option that are still to be joined, and the graph in which they are. -/
theorem Builder.exact_of_pushAll_of_two_operands :
    (∃ b, initial.pushAll 12 0 [Node.atom 'a', .atom 'b', .alternate, .groupStart (some 1),
        .groupEnd (some 1), .zeroOrMore false, .atom 'c', .zeroOrOne true] = .ok b ∧
      b.stack = [⟨8, #[⟨7, 0⟩, ⟨8, 1⟩]⟩, ⟨6, #[⟨6, 0⟩]⟩] ∧ b.Exact) ∧
    ∃ g, Graph.ofPostorder 12 [Node.atom 'a', .atom 'b', .alternate, .groupStart (some 1),
        .groupEnd (some 1), .zeroOrMore false, .atom 'c', .zeroOrOne true, .concat] = .ok g ∧
      ∀ id < g.nodes.size, g.Through id := by
  obtain ⟨hexact, hthrough⟩ := exact_of_pushAll 12 [Node.atom 'a', .atom 'b', .alternate,
    .groupStart (some 1), .groupEnd (some 1), .zeroOrMore false, .atom 'c', .zeroOrOne true, .concat]
  exact ⟨⟨_, rfl, rfl, hexact _ _ (List.take_prefix 8 _) rfl⟩, _, rfl, hthrough _ rfl⟩

end Lockstep
