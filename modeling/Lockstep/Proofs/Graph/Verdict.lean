import Mathlib.Data.List.Induction
import Mathlib.Data.Nat.Find
import Lockstep.Proofs.Pattern.Wired

/-!
# Verdicts on sequences of nodes

Two counts decide whether a sequence of nodes makes a graph: the operands that wait and the states
made so far. A node is at fault if it has no place in an expression or lacks operands, and else if it
needs a state where the limit is reached; a concatenation needs none. The first node at fault gives
the error. If no node is, one operand must be left, and the entry takes a state as well.
-/

namespace Lockstep

universe u

variable {α : Type u}

/-! ## Counting -/

/-- A concatenation joins its operands by their edges. Every other node becomes a state. -/
def Kind.makesState : Kind α → Bool
  | .concat => false
  | _ => true

theorem Kind.eq_concat {kind : Kind α} (h : kind.makesState = false) : kind = .concat := by
  cases kind <;> first | rfl | cases h

/-- The group of a marker that captures. -/
def Node.captured? (node : Node α) : Option Nat :=
  match node.kind with
  | .groupStart | .groupEnd => if node.capturing then some node.group else none
  | _ => none

/-- What some nodes come to: the operands that wait after them, and the states made, the final one
included. -/
structure Tally where
  depth : Nat
  states : Nat
deriving DecidableEq, Repr

namespace Tally

def initial : Tally := ⟨0, 1⟩

/-- A node takes its operands and leaves one. -/
def add (t : Tally) (node : Node α) : Tally :=
  ⟨t.depth + 1 - node.kind.arity?.getD 0, t.states + node.kind.makesState.toNat⟩

def ofNodes (nodes : List (Node α)) : Tally := nodes.foldl add initial

/-- The node has no place in an expression, or more operands than wait. -/
def Lacks (t : Tally) (node : Node α) : Prop := ∀ arity ∈ node.kind.arity?, t.depth < arity

theorem ofNodes_concat (nodes : List (Node α)) (node : Node α) :
    ofNodes (nodes ++ [node]) = (ofNodes nodes).add node := by
  rw [ofNodes, List.foldl_append]
  rfl

theorem states_ofNodes (nodes : List (Node α)) :
    (ofNodes nodes).states = nodes.countP (·.kind.makesState) + 1 := by
  induction nodes using List.reverseRecOn with
  | nil => rfl
  | append_singleton nodes node ih =>
    rw [ofNodes_concat, add, ih, List.countP_append, List.countP_singleton, Nat.add_right_comm]
    cases node.kind.makesState <;> rfl

end Tally

/-- The node at `index` is the one to blame for an error, if no node before it is. -/
inductive Fault (limit : Nat) (nodes : List (Node α)) (index : Nat) : BuildError → Prop where
  | lacking {node : Node α} (hnode : nodes[index]? = some node)
      (h : (Tally.ofNodes (nodes.take index)).Lacks node) :
      Fault limit nodes index (.malformed node.kind.name index)
  | full {node : Node α} (hnode : nodes[index]? = some node)
      (hoperands : ¬ (Tally.ofNodes (nodes.take index)).Lacks node)
      (hmakes : node.kind.makesState = true)
      (hlimit : limit ≤ (Tally.ofNodes (nodes.take index)).states) :
      Fault limit nodes index (.capacityExceeded limit)

/-- A node at fault gives one error. -/
theorem Fault.unique {limit index : Nat} {nodes : List (Node α)} {e e' : BuildError}
    (h : Fault limit nodes index e) (h' : Fault limit nodes index e') : e = e' := by
  cases h with
  | lacking hnode hlacks =>
    cases h' with
    | lacking hnode' => rw [Option.some.inj (hnode.symm.trans hnode')]
    | full hnode' hoperands =>
      cases hnode.symm.trans hnode'
      exact absurd hlacks hoperands
  | full hnode hoperands =>
    cases h' with
    | lacking hnode' hlacks =>
      cases hnode.symm.trans hnode'
      exact absurd hlacks hoperands
    | full => rfl

theorem Fault.lt_length {limit index : Nat} {nodes : List (Node α)} {e : BuildError}
    (h : Fault limit nodes index e) : index < nodes.length := by
  cases h with
  | lacking hnode => exact (List.getElem?_eq_some_iff.mp hnode).1
  | full hnode => exact (List.getElem?_eq_some_iff.mp hnode).1

/-- No node is at fault. -/
def Faultless (limit : Nat) (nodes : List (Node α)) : Prop := ∀ index e, ¬ Fault limit nodes index e

/-- The error that a sequence of nodes gives. -/
inductive Rejects (limit : Nat) (nodes : List (Node α)) : BuildError → Prop where
  | node {index : Nat} {e : BuildError} (h : Fault limit nodes index e)
      (hfirst : ∀ index' < index, ∀ e', ¬ Fault limit nodes index' e') : Rejects limit nodes e
  | leftover (h : Faultless limit nodes) (hdepth : (Tally.ofNodes nodes).depth ≠ 1) :
      Rejects limit nodes (.malformed "end" nodes.length)
  | entry (h : Faultless limit nodes) (hdepth : (Tally.ofNodes nodes).depth = 1)
      (hlimit : limit ≤ (Tally.ofNodes nodes).states) :
      Rejects limit nodes (.capacityExceeded limit)

/-- The nodes are an expression in post-order, and there is room for its states and the entry. -/
structure Accepts (limit : Nat) (nodes : List (Node α)) : Prop where
  faultless : Faultless limit nodes
  depth : (Tally.ofNodes nodes).depth = 1
  states : (Tally.ofNodes nodes).states < limit

/-- A graph made from some nodes: the states are the nodes but for concatenations, with a
final state and, as the last one, an entry, and the groups are those that are captured. -/
structure Graph.Made (g : Graph α) (nodes : List (Node α)) : Prop where
  size : g.nodes.size = nodes.countP (·.kind.makesState) + 2
  entry : g.entry + 1 = g.nodes.size
  entry_kind : g.nodes[g.entry]?.map Node.kind = some .entry
  groups : g.groups = (nodes.filterMap Node.captured?).max?.getD 0

namespace Builder

variable {b b' : Builder α} {node : Node α} {limit index : Nat} {nodes : List (Node α)}

/-! ## One node -/

/-- The operands and the states of a graph under construction. -/
def tally (b : Builder α) : Tally := ⟨b.stack.length, b.nodes.size⟩

/-- A node that does not lack operands is placed. -/
theorem exists_place? (h : ¬ b.tally.Lacks node) : ∃ b', b.place? node = some b' := by
  obtain ⟨arity, harity, hle⟩ : ∃ arity, node.kind.arity? = some arity ∧ arity ≤ b.stack.length := by
    simpa [Tally.Lacks, tally] using h
  obtain ⟨nodes, stack, groups⟩ := b
  obtain ⟨kind, greedy, capturing, group, out⟩ := node
  cases kind with
  | atom | assert | empty => exact ⟨_, rfl⟩
  | zeroOrMore | oneOrMore | zeroOrOne | groupStart | groupEnd =>
    cases harity
    obtain _ | ⟨operand, stack⟩ := stack
    · cases hle
    · exact ⟨_, rfl⟩
  | concat | alternate =>
    cases harity
    obtain _ | ⟨right, _ | ⟨left, stack⟩⟩ := stack
    · cases hle
    · cases Nat.le_of_succ_le_succ hle
    · exact ⟨_, rfl⟩
  | final | entry => cases harity

/-- A node that is placed does not lack operands, and it is counted. -/
theorem tally_of_place? (hplace : b.place? node = some b') :
    ¬ b.tally.Lacks node ∧ b'.tally = b.tally.add node ∧
      b'.groups = node.captured?.elim b.groups (max b.groups) := by
  obtain ⟨kind, greedy, capturing, group, out⟩ := node
  unfold Builder.place? at hplace
  split at hplace <;> cases hplace
  all_goals
    rename_i hkind
    cases hkind
  all_goals
    refine ⟨?_, ?_, ?_⟩
    · simp [Tally.Lacks, tally, Kind.arity?]
    · simp [Tally.add, tally, Kind.arity?, Kind.makesState, size_redirect]
    · cases capturing <;> simp [Node.captured?, noteGroup]

/-- What is wired from some nodes: as many operands and states as they come to, and no more states
than the limit allows once there is an operand. -/
structure Counts (limit : Nat) (nodes : List (Node α)) (b : Builder α) : Prop where
  tally : b.tally = .ofNodes nodes
  groups : b.groups = (nodes.filterMap Node.captured?).foldl max 0
  within : b.stack ≠ [] → b.nodes.size ≤ limit

theorem counts_initial (limit : Nat) : Counts limit [] (initial : Builder α) :=
  ⟨rfl, rfl, fun h ↦ absurd rfl h⟩

/-- The next node is at fault, or it is wired and counted. -/
theorem Counts.push (h : Counts limit (nodes.take index) b) (hnode : nodes[index]? = some node) :
    (∃ e, b.push limit index node = .error e ∧ Fault limit nodes index e) ∨
      ∃ b', b.push limit index node = .ok b' ∧ Counts limit (nodes.take index ++ [node]) b' ∧
        ∀ e, ¬ Fault limit nodes index e := by
  have hstates : (Tally.ofNodes (nodes.take index)).states = b.nodes.size :=
    congrArg Tally.states h.tally.symm
  by_cases hlacks : b.tally.Lacks node
  · have hplace : b.place? node = none :=
      Option.eq_none_iff_forall_ne_some.mpr fun b' hplace ↦ (tally_of_place? hplace).1 hlacks
    refine .inl ⟨.malformed node.kind.name index, ?_, .lacking hnode (h.tally ▸ hlacks)⟩
    rw [Builder.push, hplace]
  · obtain ⟨b', hplace⟩ := exists_place? hlacks
    obtain ⟨-, htally, hgroups⟩ := tally_of_place? hplace
    have hsize : b'.nodes.size = b.nodes.size + node.kind.makesState.toNat :=
      congrArg Tally.states htally
    by_cases hlimit : limit < b'.nodes.size
    · have hmakes : node.kind.makesState = true := by
        refine eq_true_of_ne_false fun hfalse ↦ ?_
        -- a concatenation has operands, so the limit was respected before it
        have hconcat := Kind.eq_concat hfalse
        have hle := h.within fun hnil ↦
          hlacks (by simp [Tally.Lacks, Builder.tally, hnil, hconcat, Kind.arity?])
        rw [hfalse, Bool.toNat_false] at hsize
        exact absurd hlimit (by omega)
      rw [hmakes, Bool.toNat_true] at hsize
      refine .inl ⟨.capacityExceeded limit, ?_, .full hnode (h.tally ▸ hlacks) hmakes (by omega)⟩
      rw [Builder.push, hplace]
      exact if_pos hlimit
    · refine .inr ⟨b', ?_, ⟨?_, ?_, fun _ ↦ Nat.not_lt.mp hlimit⟩, fun e hfault ↦ ?_⟩
      · rw [Builder.push, hplace]
        exact if_neg hlimit
      · rw [Tally.ofNodes_concat, ← h.tally, htally]
      · rw [List.filterMap_append, List.foldl_append, ← h.groups, hgroups]
        cases hcaptured : node.captured? <;> simp [hcaptured]
      · cases hfault with
        | lacking hnode' hlacks' =>
          cases hnode.symm.trans hnode'
          exact hlacks (h.tally ▸ hlacks')
        | full hnode' _ hmakes hlimit' =>
          cases hnode.symm.trans hnode'
          rw [hmakes, Bool.toNat_true] at hsize
          omega

/-! ## A sequence of nodes -/

theorem pushAll_append (b : Builder α) (limit index : Nat) (sequence sequence' : List (Node α)) :
    b.pushAll limit index (sequence ++ sequence') =
      match b.pushAll limit index sequence with
      | .error e => .error e
      | .ok b' => b'.pushAll limit (index + sequence.length) sequence' := by
  induction sequence generalizing b index with
  | nil => rfl
  | cons node sequence ih =>
    rw [List.cons_append, pushAll, pushAll]
    cases b.push limit index node with
    | error e => rfl
    | ok b' =>
      dsimp only
      rw [ih, List.length_cons, Nat.add_assoc, Nat.add_comm 1]

/-- The nodes before the first fault are wired. -/
theorem exists_counts (hle : index ≤ nodes.length)
    (h : ∀ index' < index, ∀ e, ¬ Fault limit nodes index' e) :
    ∃ b, initial.pushAll limit 0 (nodes.take index) = .ok b ∧ Counts limit (nodes.take index) b := by
  induction index with
  | zero => exact ⟨initial, rfl, counts_initial limit⟩
  | succ index ih =>
    obtain ⟨b, hpush, hcounts⟩ := ih (Nat.le_of_succ_le hle) fun index' hlt ↦
      h index' (Nat.lt_succ_of_lt hlt)
    have hnode : nodes[index]? = some nodes[index] := List.getElem?_eq_getElem hle
    rcases hcounts.push hnode with ⟨e, -, hfault⟩ | ⟨b', hok, hcounts', -⟩
    · exact absurd hfault (h index (Nat.lt_succ_self index) e)
    · have hlength : (nodes.take index).length = index :=
        List.length_take_of_le (Nat.le_of_succ_le hle)
      rw [List.take_succ_eq_append_getElem hle, pushAll_append, hpush]
      dsimp only
      rw [hlength, Nat.zero_add, pushAll, hok]
      exact ⟨b', rfl, hcounts'⟩

/-- Wiring stops at the first fault. -/
theorem pushAll_eq_error {e : BuildError} (h : Fault limit nodes index e)
    (hfirst : ∀ index' < index, ∀ e', ¬ Fault limit nodes index' e') :
    initial.pushAll limit 0 nodes = .error e := by
  have hlt := h.lt_length
  have hlength : (nodes.take index).length = index := List.length_take_of_le (Nat.le_of_lt hlt)
  obtain ⟨b, hpush, hcounts⟩ := exists_counts (Nat.le_of_lt hlt) hfirst
  rcases hcounts.push (List.getElem?_eq_getElem hlt) with ⟨e', herror, hfault⟩ | ⟨b', -, -, hnot⟩
  · obtain rfl := h.unique hfault
    rw [← List.take_append_drop index nodes, List.drop_eq_getElem_cons hlt, pushAll_append, hpush]
    dsimp only
    rw [hlength, Nat.zero_add, pushAll, herror]
  · exact absurd h (hnot e)

theorem pushAll_of_faultless (h : Faultless limit nodes) :
    ∃ b, initial.pushAll limit 0 nodes = .ok b ∧ Counts limit nodes b := by
  have hcounts := exists_counts (Nat.le_refl nodes.length) fun index _ ↦ h index
  rwa [List.take_length] at hcounts

/-- One operand must be left. -/
theorem Counts.finish_of_ne (h : Counts limit nodes b) (hdepth : (Tally.ofNodes nodes).depth ≠ 1)
    (count : Nat) : b.finish limit count = .error (.malformed "end" count) := by
  obtain ⟨graph, stack, groups⟩ := b
  rw [← h.tally] at hdepth
  obtain _ | ⟨root, _ | ⟨next, stack⟩⟩ := stack
  · rfl
  · exact absurd rfl hdepth
  · rfl

theorem Counts.exists_stack (h : Counts limit nodes b) (hdepth : (Tally.ofNodes nodes).depth = 1) :
    ∃ root, b.stack = [root] := by
  rw [← h.tally] at hdepth
  exact List.length_eq_one_iff.mp hdepth

/-- The entry needs a state. -/
theorem Counts.finish_of_le (h : Counts limit nodes b) (hdepth : (Tally.ofNodes nodes).depth = 1)
    (hlimit : limit ≤ (Tally.ofNodes nodes).states) (count : Nat) :
    b.finish limit count = .error (.capacityExceeded limit) := by
  obtain ⟨root, hroot⟩ := h.exists_stack hdepth
  obtain ⟨graph, stack, groups⟩ := b
  rw [← h.tally] at hlimit
  cases hroot
  exact if_pos hlimit

theorem foldl_max_eq (l : List Nat) : l.foldl max 0 = l.max?.getD 0 := by
  cases l with
  | nil => rfl
  | cons n l => rw [List.foldl_cons, Nat.zero_max, List.max?_cons', Option.getD_some]

theorem Counts.exists_finish (h : Counts limit nodes b) (hdepth : (Tally.ofNodes nodes).depth = 1)
    (hlimit : (Tally.ofNodes nodes).states < limit) (count : Nat) :
    ∃ g, b.finish limit count = .ok g ∧ g.Made nodes := by
  obtain ⟨root, hroot⟩ := h.exists_stack hdepth
  have hsize : b.nodes.size = (Tally.ofNodes nodes).states := congrArg Tally.states h.tally
  have hgroups := h.groups
  obtain ⟨graph, stack, groups⟩ := b
  cases hroot
  rw [← hsize] at hlimit
  refine ⟨_, if_neg (Nat.not_le.mpr hlimit), ?_, ?_, ?_, ?_⟩
  · rw [Array.size_push]
    exact congrArg (· + 1) (hsize.trans (Tally.states_ofNodes nodes))
  · rw [Array.size_push]
  · rw [Array.getElem?_push_size]
    rfl
  · exact hgroups.trans (foldl_max_eq _)

end Builder

/-! ## The verdict -/

/-- A sequence of nodes is rejected with some error, or it is accepted. -/
theorem rejects_or_accepts (limit : Nat) (nodes : List (Node α)) :
    (∃ e, Rejects limit nodes e) ∨ Accepts limit nodes := by
  classical
  by_cases hfault : ∃ index, ∃ e, Fault limit nodes index e
  · obtain ⟨e, hfirst⟩ := Nat.find_spec hfault
    exact .inl ⟨e, .node hfirst fun index' hlt e' hbefore ↦ Nat.find_min hfault hlt ⟨e', hbefore⟩⟩
  · have hfaultless : Faultless limit nodes := fun index e h ↦ hfault ⟨index, e, h⟩
    by_cases hdepth : (Tally.ofNodes nodes).depth = 1
    · rcases Nat.lt_or_ge (Tally.ofNodes nodes).states limit with hlt | hge
      · exact .inr ⟨hfaultless, hdepth, hlt⟩
      · exact .inl ⟨_, .entry hfaultless hdepth hge⟩
    · exact .inl ⟨_, .leftover hfaultless hdepth⟩

namespace Graph

open Builder (pushAll_eq_error pushAll_of_faultless)

variable {limit : Nat} {nodes : List (Node α)} {e : BuildError}

theorem ofPostorder_eq_error (h : Rejects (min limit maxNodes) nodes e) :
    ofPostorder limit nodes = .error e := by
  rw [ofPostorder]
  cases h with
  | node hfault hfirst => rw [pushAll_eq_error hfault hfirst]
  | leftover hfaultless hdepth =>
    obtain ⟨b, hpush, hcounts⟩ := pushAll_of_faultless hfaultless
    rw [hpush]
    exact hcounts.finish_of_ne hdepth _
  | entry hfaultless hdepth hlimit =>
    obtain ⟨b, hpush, hcounts⟩ := pushAll_of_faultless hfaultless
    rw [hpush]
    exact hcounts.finish_of_le hdepth hlimit _

theorem exists_ofPostorder (h : Accepts (min limit maxNodes) nodes) :
    ∃ g, ofPostorder limit nodes = .ok g ∧ g.Made nodes := by
  obtain ⟨b, hpush, hcounts⟩ := pushAll_of_faultless h.faultless
  rw [ofPostorder, hpush]
  exact hcounts.exists_finish h.depth h.states _

/-- The graph of a sequence of nodes, or the error that it gives, can be told from the nodes alone. -/
theorem ofPostorder_verdict (limit : Nat) (nodes : List (Node α)) :
    let most := min limit maxNodes
    (∀ e, ofPostorder limit nodes = .error e ↔ Rejects most nodes e) ∧
      ((∃ g, ofPostorder limit nodes = .ok g) ↔ Accepts most nodes) ∧
      ∀ g, ofPostorder limit nodes = .ok g → g.Made nodes ∧ g.nodes.size ≤ most := by
  intro most
  rcases rejects_or_accepts most nodes with ⟨e, hrejects⟩ | haccepts
  · have herror : ofPostorder limit nodes = .error e := ofPostorder_eq_error hrejects
    rw [herror]
    refine ⟨fun e' ↦ ⟨fun heq ↦ ?_, fun hrejects' ↦ ?_⟩, ⟨nofun, fun haccepts ↦ ?_⟩, nofun⟩
    · rwa [← Except.error.inj heq]
    · rw [← herror, ofPostorder_eq_error hrejects']
    · obtain ⟨g, hok, -⟩ := exists_ofPostorder haccepts
      cases herror.symm.trans hok
  · obtain ⟨g, hok, hmade⟩ := exists_ofPostorder haccepts
    rw [hok]
    refine ⟨fun e ↦ ⟨nofun, fun hrejects ↦ ?_⟩, ⟨fun _ ↦ haccepts, fun _ ↦ ⟨g, rfl⟩⟩, fun g' heq ↦ ?_⟩
    · cases hok.symm.trans (ofPostorder_eq_error hrejects)
    · cases heq
      have hstates := haccepts.states
      rw [Tally.states_ofNodes] at hstates
      exact ⟨hmade, hmade.size ▸ hstates⟩

/-- Operands are looked for before room for a state. -/
example : Graph.ofPostorder 2 [Node.atom 'a', .alternate, .atom 'b'] =
    .error (.malformed "alternate" 1) := by rfl

end Graph

end Lockstep
