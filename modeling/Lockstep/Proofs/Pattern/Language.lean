import Lockstep.Proofs.Graph.Run
import Lockstep.Proofs.Pattern.Wired

/-!
# The language of a pattern

What a pattern matches, without regard to preference: a relation between what lies ahead where a
match begins and what lies ahead where it stops. The runs of the graph of a pattern are its matches,
loops over patterns that match the empty text included, because a run may go through such a loop as
often as it likes.
-/

namespace Lockstep

universe u

variable {α : Type u}

/-- Any number of steps of a relation. -/
inductive Repeats (R : Ahead → Ahead → Prop) : (bs stop : Ahead) → Prop where
  | none (bs : Ahead) : Repeats R bs bs
  | more {bs mid stop : Ahead} (h : R bs mid) (hrest : Repeats R mid stop) : Repeats R bs stop

/-- Repeating preserves what each step preserves. -/
theorem Repeats.invariant {R : Ahead → Ahead → Prop} {P : Ahead → Prop}
    (hstep : ∀ bs mid, R bs mid → P bs → P mid) {bs stop : Ahead} (h : Repeats R bs stop)
    (hbs : P bs) : P stop := by
  induction h with
  | none bs => exact hbs
  | more h hrest ih => exact ih (hstep _ _ h hbs)

namespace Pattern

variable [Atom α]

/-- A pattern matches from `bs` to `stop`. -/
def Matches : Pattern α → (bs stop : Ahead) → Prop
  | .empty, bs, stop => stop = bs
  | .atom a, bs, stop =>
    ∃ b c, bs = b :: stop ∧ b.next = some c ∧ Atom.accepts a c = true
  | .assert a, bs, stop =>
    stop = bs ∧ ∃ b rest, bs = b :: rest ∧ Atom.check a b.prev b.next = true
  | .concat p q, bs, stop => ∃ mid, p.Matches bs mid ∧ q.Matches mid stop
  | .alternate p q, bs, stop => p.Matches bs stop ∨ q.Matches bs stop
  | .zeroOrMore _ p, bs, stop => Repeats p.Matches bs stop
  | .oneOrMore _ p, bs, stop => ∃ mid, p.Matches bs mid ∧ Repeats p.Matches mid stop
  | .zeroOrOne _ p, bs, stop => stop = bs ∨ p.Matches bs stop
  | .group _ p, bs, stop => p.Matches bs stop

/-- A match preserves what consuming a character preserves. -/
theorem invariant_of_matches {P : Ahead → Prop}
    (hconsume : ∀ {b : Boundary} {c : Char} {rest : Ahead}, b.next = some c → P (b :: rest) → P rest)
    {p : Pattern α} {bs stop : Ahead} (h : p.Matches bs stop) (hbs : P bs) : P stop := by
  induction p generalizing bs stop with
  | empty => exact h ▸ hbs
  | atom a =>
    obtain ⟨b, c, rfl, hc, -⟩ := h
    exact hconsume hc hbs
  | assert a => exact h.1 ▸ hbs
  | concat p q ihp ihq =>
    obtain ⟨mid, hp, hq⟩ := h
    exact ihq hq (ihp hp hbs)
  | alternate p q ihp ihq => exact h.elim (ihp · hbs) (ihq · hbs)
  | zeroOrMore greedy p ih => exact Repeats.invariant (R := p.Matches) (fun _ _ ↦ ih) h hbs
  | oneOrMore greedy p ih =>
    obtain ⟨mid, hp, hrest⟩ := h
    exact Repeats.invariant (R := p.Matches) (fun _ _ ↦ ih) hrest (ih hp hbs)
  | zeroOrOne greedy p ih =>
    rcases h with rfl | h
    · exact hbs
    · exact ih h hbs
  | group number p ih => exact ih h hbs

/-- A match stops ahead of where it begins. -/
theorem suffix_of_matches {p : Pattern α} {bs stop : Ahead} (h : p.Matches bs stop) : stop <:+ bs :=
  invariant_of_matches (P := (· <:+ bs)) (fun _ h ↦ (List.suffix_cons _ _).trans h) h List.suffix_rfl

end Pattern

/-! ## Nodes that only branch -/

namespace Graph

/-- A node that does nothing but lead on. -/
def Branches (nodes : Array (Node α)) (id : Nat) (out : List Nat) : Prop :=
  ∃ node, nodes[id]? = some node ∧ node.isConsuming = false ∧ node.kind.assertion? = none ∧
    node.out = out

variable [Atom α] {nodes : Array (Node α)} {id length : Nat} {node : Node α} {out : List Nat}
  {bs stop : Ahead}

/-- A run from a node that consumes nothing goes on from one of its successors. -/
theorem Run.exists_of_passing
    (hfinal : ∃ node, nodes[Graph.final]? = some node ∧ node.kind = .final)
    (hnode : nodes[id]? = some node) (hcons : node.isConsuming = false)
    (hrun : Run nodes length id bs stop) :
    ∃ b rest, bs = b :: rest ∧ holdsAt nodes b id = true ∧ ∃ next ∈ node.out, ∃ length',
      length = length' + 1 ∧ Run nodes length' next bs stop := by
  cases hrun with
  | final b rest =>
    obtain ⟨fnode, hfnode, hfkind⟩ := hfinal
    cases hnode.symm.trans hfnode
    simp [Node.isConsuming, hfkind, Kind.isConsuming] at hcons
  | consume hnode' hkind =>
    cases hnode.symm.trans hnode'
    simp [Node.isConsuming, hkind, Kind.isConsuming] at hcons
  | pass hnode' hcons' hholds hnext hrest =>
    cases hnode.symm.trans hnode'
    exact ⟨_, _, rfl, hholds, _, hnext, _, rfl, hrest⟩

/-- A run from a node that consumes goes on from one of its successors. -/
theorem Run.exists_of_atom
    (hfinal : ∃ node, nodes[Graph.final]? = some node ∧ node.kind = .final) {a : α}
    (hnode : nodes[id]? = some node) (hkind : node.kind = .atom a)
    (hrun : Run nodes length id bs stop) :
    ∃ b c rest, bs = b :: rest ∧ b.next = some c ∧ Atom.accepts a c = true ∧
      ∃ next ∈ node.out, ∃ length', length = length' + 1 ∧ Run nodes length' next rest stop := by
  cases hrun with
  | final b rest =>
    obtain ⟨fnode, hfnode, hfkind⟩ := hfinal
    cases hnode.symm.trans hfnode
    rw [hkind] at hfkind
    cases hfkind
  | consume hnode' hkind' hc haccepts hnext hrest =>
    cases hnode.symm.trans hnode'
    cases hkind.symm.trans hkind'
    exact ⟨_, _, _, rfl, hc, haccepts, _, hnext, _, rfl, hrest⟩
  | pass hnode' hcons =>
    cases hnode.symm.trans hnode'
    simp [Node.isConsuming, hkind, Kind.isConsuming] at hcons

/-- A run from the final node is over. -/
theorem Run.eq_of_final (hfinal : ∃ node, nodes[Graph.final]? = some node ∧ node.kind = .final)
    (hrun : Run nodes length Graph.final bs stop) : stop = bs := by
  obtain ⟨fnode, hfnode, hfkind⟩ := hfinal
  cases hrun with
  | final b rest => rfl
  | consume hnode hkind =>
    cases hfnode.symm.trans hnode
    rw [hfkind] at hkind
    cases hkind
  | pass hnode hcons =>
    cases hfnode.symm.trans hnode
    simp [Node.isConsuming, hfkind, Kind.isConsuming] at hcons

theorem Branches.exists_run
    (hfinal : ∃ node, nodes[Graph.final]? = some node ∧ node.kind = .final)
    (h : Branches nodes id out) (hrun : Run nodes length id bs stop) :
    ∃ next ∈ out, ∃ length', length = length' + 1 ∧ Run nodes length' next bs stop := by
  obtain ⟨node, hnode, hcons, -, rfl⟩ := h
  obtain ⟨b, rest, -, -, hnext⟩ := hrun.exists_of_passing hfinal hnode hcons
  exact hnext

theorem Run.ne_nil (hrun : Run nodes length id bs stop) : bs ≠ [] := by
  cases hrun <;> exact List.cons_ne_nil _ _

theorem Branches.run (h : Branches nodes id out) {next : Nat} (hnext : next ∈ out)
    (hrun : Run nodes length next bs stop) : Run nodes (length + 1) id bs stop := by
  obtain ⟨node, hnode, hcons, hassert, rfl⟩ := h
  obtain ⟨b, rest, rfl⟩ := List.exists_cons_of_ne_nil hrun.ne_nil
  exact .pass hnode hcons (by simp [holdsAt, hnode, hassert]) hnext hrun

end Graph

/-! ## Matches as runs -/

namespace Pattern

open Lockstep.Graph (Run Branches)

variable [Atom α] {nodes : Array (Node α)} {greedy : Bool} {body loop head exit length : Nat}
  {bs mid stop : Ahead} {R : Ahead → Ahead → Prop} {p : Pattern α}

theorem eq_or_eq_of_mem_branches {next : Nat} (h : next ∈ branches greedy body exit) :
    next = body ∨ next = exit := by
  cases greedy with
  | true => simpa [branches] using h
  | false => simpa [branches, or_comm] using h

/-- The runs through a loop repeat its body. -/
theorem repeats_of_run (hfinal : ∃ node, nodes[Graph.final]? = some node ∧ node.kind = .final)
    (hloop : Branches nodes loop (branches greedy body exit))
    (hbody : ∀ {length bs}, Run nodes length body bs stop →
      ∃ mid length', length' ≤ length ∧ R bs mid ∧ Run nodes length' loop mid stop)
    (hrun : Run nodes length loop bs stop) :
    ∃ mid length', length' ≤ length ∧ Repeats R bs mid ∧ Run nodes length' exit mid stop := by
  induction length using Nat.strongRecOn generalizing bs with | _ length ih
  obtain ⟨next, hnext, length', rfl, hrun'⟩ := hloop.exists_run hfinal hrun
  rcases eq_or_eq_of_mem_branches hnext with rfl | rfl
  · obtain ⟨mid, length'', hle, hmid, hrun''⟩ := hbody hrun'
    obtain ⟨mid', length''', hle', hrepeats, hrun'''⟩ := ih length'' (by omega) hrun''
    exact ⟨mid', length''', by omega, .more hmid hrepeats, hrun'''⟩
  · exact ⟨bs, length', by omega, .none bs, hrun'⟩

theorem mem_branches_body : body ∈ branches greedy body exit := by
  cases greedy <;> simp [branches]

theorem mem_branches_exit : exit ∈ branches greedy body exit := by
  cases greedy <;> simp [branches]

theorem run_of_repeats (hloop : Branches nodes loop (branches greedy body exit))
    (hbody : ∀ {length bs mid}, R bs mid → Run nodes length loop mid stop →
      ∃ length, Run nodes length body bs stop)
    (h : Repeats R bs mid) (hrun : Run nodes length exit mid stop) :
    ∃ length, Run nodes length loop bs stop := by
  induction h with
  | none bs => exact ⟨_, hloop.run mem_branches_exit hrun⟩
  | more h hrest ih =>
    obtain ⟨length', hrun'⟩ := ih hrun
    obtain ⟨length'', hrun''⟩ := hbody h hrun'
    exact ⟨_, hloop.run mem_branches_body hrun''⟩

/-- A run through the nodes of a pattern begins with a match. -/
theorem Wired.exists_matches (hfinal : ∃ node, nodes[Graph.final]? = some node ∧ node.kind = .final)
    (h : p.Wired nodes head exit) (hrun : Run nodes length head bs stop) :
    ∃ mid length', length' ≤ length ∧ p.Matches bs mid ∧ Run nodes length' exit mid stop := by
  induction p generalizing head exit length bs with
  | empty =>
    obtain ⟨next, hnext, length', rfl, hrun'⟩ :=
      Branches.exists_run hfinal ⟨_, h, rfl, rfl, rfl⟩ hrun
    cases List.mem_singleton.mp hnext
    exact ⟨_, length', Nat.le_succ _, rfl, hrun'⟩
  | atom a =>
    obtain ⟨b, c, rest, rfl, hc, haccepts, next, hnext, length', rfl, hrun'⟩ :=
      hrun.exists_of_atom hfinal h rfl
    cases List.mem_singleton.mp hnext
    exact ⟨rest, length', Nat.le_succ _, ⟨b, c, rfl, hc, haccepts⟩, hrun'⟩
  | assert a =>
    obtain ⟨b, rest, rfl, hholds, next, hnext, length', rfl, hrun'⟩ :=
      hrun.exists_of_passing hfinal h rfl
    cases List.mem_singleton.mp hnext
    have hcheck : Atom.check a b.prev b.next = true := by
      have hnode : nodes[head]? = some { Node.assert a with out := [exit] } := h
      simpa [Graph.holdsAt, hnode, Node.assert, Kind.assertion?] using hholds
    exact ⟨_, length', Nat.le_succ _, ⟨rfl, b, rest, rfl, hcheck⟩, hrun'⟩
  | concat p q ihp ihq =>
    obtain ⟨mid, hp, hq⟩ := h
    obtain ⟨mid₁, length₁, hle₁, hmatches₁, hrun₁⟩ := ihp hp hrun
    obtain ⟨mid₂, length₂, hle₂, hmatches₂, hrun₂⟩ := ihq hq hrun₁
    exact ⟨mid₂, length₂, Nat.le_trans hle₂ hle₁, ⟨mid₁, hmatches₁, hmatches₂⟩, hrun₂⟩
  | alternate p q ihp ihq =>
    obtain ⟨left, right, hnode, hp, hq⟩ := h
    obtain ⟨next, hnext, length', rfl, hrun'⟩ :=
      Branches.exists_run hfinal ⟨_, hnode, rfl, rfl, rfl⟩ hrun
    rcases List.mem_cons.mp hnext with rfl | hnext
    · obtain ⟨mid, length'', hle, hmatches, hrun''⟩ := ihp hp hrun'
      exact ⟨mid, length'', by omega, .inl hmatches, hrun''⟩
    · cases List.mem_singleton.mp hnext
      obtain ⟨mid, length'', hle, hmatches, hrun''⟩ := ihq hq hrun'
      exact ⟨mid, length'', by omega, .inr hmatches, hrun''⟩
  | zeroOrMore greedy p ih =>
    obtain ⟨body, hnode, hp⟩ := h
    exact repeats_of_run hfinal ⟨_, hnode, rfl, rfl, rfl⟩ (fun hrun ↦ ih hp hrun) hrun
  | oneOrMore greedy p ih =>
    obtain ⟨loop, hnode, hp⟩ := h
    obtain ⟨mid, length', hle, hmatches, hrun'⟩ := ih hp hrun
    obtain ⟨mid', length'', hle', hrepeats, hrun''⟩ :=
      repeats_of_run hfinal ⟨_, hnode, rfl, rfl, rfl⟩ (fun hrun ↦ ih hp hrun) hrun'
    exact ⟨mid', length'', Nat.le_trans hle' hle, ⟨mid, hmatches, hrepeats⟩, hrun''⟩
  | zeroOrOne greedy p ih =>
    obtain ⟨body, hnode, hp⟩ := h
    obtain ⟨next, hnext, length', rfl, hrun'⟩ :=
      Branches.exists_run hfinal ⟨_, hnode, rfl, rfl, rfl⟩ hrun
    rcases eq_or_eq_of_mem_branches hnext with rfl | rfl
    · obtain ⟨mid, length'', hle, hmatches, hrun''⟩ := ih hp hrun'
      exact ⟨mid, length'', by omega, .inr hmatches, hrun''⟩
    · exact ⟨_, length', Nat.le_succ _, .inl rfl, hrun'⟩
  | group number p ih =>
    obtain ⟨body, close, hopen, hp, hclose⟩ := h
    obtain ⟨next, hnext, length', rfl, hrun'⟩ :=
      Branches.exists_run hfinal ⟨_, hopen, rfl, rfl, rfl⟩ hrun
    cases List.mem_singleton.mp hnext
    obtain ⟨mid, length'', hle, hmatches, hrun''⟩ := ih hp hrun'
    obtain ⟨next', hnext', length''', rfl, hrun'''⟩ :=
      Branches.exists_run hfinal ⟨_, hclose, rfl, rfl, rfl⟩ hrun''
    cases List.mem_singleton.mp hnext'
    exact ⟨_, length''', by omega, hmatches, hrun'''⟩

/-- A match may go before a run from the exit. -/
theorem Wired.run (h : p.Wired nodes head exit) (hmatches : p.Matches bs mid)
    (hrun : Run nodes length exit mid stop) : ∃ length, Run nodes length head bs stop := by
  induction p generalizing head exit length bs mid with
  | empty =>
    cases hmatches
    exact ⟨_, Branches.run ⟨_, h, rfl, rfl, rfl⟩ (List.mem_singleton_self _) hrun⟩
  | atom a =>
    obtain ⟨b, c, rfl, hc, haccepts⟩ := hmatches
    exact ⟨_, .consume h rfl hc haccepts (List.mem_singleton_self _) hrun⟩
  | assert a =>
    obtain ⟨rfl, b, rest, rfl, hcheck⟩ := hmatches
    have hnode : nodes[head]? = some { Node.assert a with out := [exit] } := h
    refine ⟨_, .pass hnode rfl ?_ (List.mem_singleton_self _) hrun⟩
    simpa [Graph.holdsAt, hnode, Node.assert, Kind.assertion?] using hcheck
  | concat p q ihp ihq =>
    obtain ⟨mid', hp, hq⟩ := h
    obtain ⟨mid'', hmatches, hmatches'⟩ := hmatches
    obtain ⟨length', hrun'⟩ := ihq hq hmatches' hrun
    exact ihp hp hmatches hrun'
  | alternate p q ihp ihq =>
    obtain ⟨left, right, hnode, hp, hq⟩ := h
    rcases hmatches with hmatches | hmatches
    · obtain ⟨length', hrun'⟩ := ihp hp hmatches hrun
      exact ⟨_, Branches.run ⟨_, hnode, rfl, rfl, rfl⟩ List.mem_cons_self hrun'⟩
    · obtain ⟨length', hrun'⟩ := ihq hq hmatches hrun
      exact ⟨_, Branches.run ⟨_, hnode, rfl, rfl, rfl⟩
        (List.mem_cons_of_mem _ (List.mem_singleton_self _)) hrun'⟩
  | zeroOrMore greedy p ih =>
    obtain ⟨body, hnode, hp⟩ := h
    exact run_of_repeats ⟨_, hnode, rfl, rfl, rfl⟩ (fun hmatches hrun ↦ ih hp hmatches hrun)
      hmatches hrun
  | oneOrMore greedy p ih =>
    obtain ⟨loop, hnode, hp⟩ := h
    obtain ⟨mid', hmatches, hrepeats⟩ := hmatches
    obtain ⟨length', hrun'⟩ := run_of_repeats ⟨_, hnode, rfl, rfl, rfl⟩
      (fun hmatches hrun ↦ ih hp hmatches hrun) hrepeats hrun
    exact ih hp hmatches hrun'
  | zeroOrOne greedy p ih =>
    obtain ⟨body, hnode, hp⟩ := h
    rcases hmatches with rfl | hmatches
    · exact ⟨_, Branches.run ⟨_, hnode, rfl, rfl, rfl⟩ mem_branches_exit hrun⟩
    · obtain ⟨length', hrun'⟩ := ih hp hmatches hrun
      exact ⟨_, Branches.run ⟨_, hnode, rfl, rfl, rfl⟩ mem_branches_body hrun'⟩
  | group number p ih =>
    obtain ⟨body, close, hopen, hp, hclose⟩ := h
    have hclosed := Branches.run ⟨_, hclose, rfl, rfl, rfl⟩ (List.mem_singleton_self _) hrun
    obtain ⟨length', hrun'⟩ := ih hp hmatches hclosed
    exact ⟨_, Branches.run ⟨_, hopen, rfl, rfl, rfl⟩ (List.mem_singleton_self _) hrun'⟩

/-! ## Matches as searches -/

variable {g : Graph α}

/-- Where a search from the entry stops, a match does. -/
theorem Accepted.matches_of_search (h : p.Accepted g) {marks : List Mark}
    (hsearch : g.search bs g.entry = some (stop, marks)) : p.Matches bs stop := by
  obtain ⟨root, hentry, hwired⟩ := h.entry
  obtain ⟨node, next, length, hnode, hnext, hrun⟩ := Graph.exists_run_of_search hsearch
  cases hentry.symm.trans hnode
  cases List.mem_singleton.mp hnext
  obtain ⟨mid, length', -, hmatches, hrun'⟩ := hwired.exists_matches h.exists_final hrun
  rwa [hrun'.eq_of_final h.exists_final]

/-- Where a match begins, a search from the entry succeeds. -/
theorem Accepted.isSome_search (h : p.Accepted g) (hmatches : p.Matches bs stop) (hne : stop ≠ []) :
    (g.search bs g.entry).isSome := by
  obtain ⟨root, hentry, hwired⟩ := h.entry
  obtain ⟨b, rest, rfl⟩ := List.exists_cons_of_ne_nil hne
  obtain ⟨length, hrun⟩ := hwired.run hmatches (.final b rest)
  exact (Graph.isSome_search_iff h.exists_final h.wellFormed.entry_ne hentry).mpr
    ⟨root, length, _, List.mem_singleton_self _, hrun⟩

end Pattern

end Lockstep
