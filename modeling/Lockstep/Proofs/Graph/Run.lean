import Lockstep.Proofs.Graph.Search

/-!
# Runs of a graph

A run goes from a node over the boundaries ahead to the final node, and may pass a node at one
boundary as often as it likes. A search, which passes no node twice at a boundary, finds a match if
and only if there is a run: what a run passes between two visits of a node may be left out.
-/

namespace Lockstep

universe u

variable {α : Type u} [Atom α]

namespace Graph

/-- A run of `length` edges from a node to the final one, where it stops at `stop`. -/
inductive Run (nodes : Array (Node α)) : (length id : Nat) → (bs stop : Ahead) → Prop where
  | final (b : Boundary) (rest : Ahead) : Run nodes 0 Graph.final (b :: rest) (b :: rest)
  | consume {length id next : Nat} {node : Node α} {a : α} {c : Char} {b : Boundary}
      {rest stop : Ahead} (hnode : nodes[id]? = some node) (hkind : node.kind = .atom a)
      (hc : b.next = some c) (haccepts : Atom.accepts a c = true) (hnext : next ∈ node.out)
      (hrest : Run nodes length next rest stop) : Run nodes (length + 1) id (b :: rest) stop
  | pass {length id next : Nat} {node : Node α} {b : Boundary} {rest stop : Ahead}
      (hnode : nodes[id]? = some node) (hcons : node.isConsuming = false)
      (hholds : holdsAt nodes b id = true) (hnext : next ∈ node.out)
      (hrest : Run nodes length next (b :: rest) stop) : Run nodes (length + 1) id (b :: rest) stop

variable {nodes : Array (Node α)} {b : Boundary} {rest stop : Ahead} {id target : Nat}
  {avoid via : List Nat}

/-- What leads on from a node at a boundary is the beginning of a run. -/
theorem exists_run_of_leads (h : Leads nodes avoid id via target)
    (hvia : via.all (holdsAt nodes b) = true) {length : Nat}
    (hrun : Run nodes length target (b :: rest) stop) :
    ∃ length, Run nodes length id (b :: rest) stop := by
  induction h with
  | arrive => exact ⟨length, hrun⟩
  | pass hnode hcons hnew hnext hrest ih =>
    rw [List.all_cons, Bool.and_eq_true] at hvia
    obtain ⟨length', hrun'⟩ := ih hvia.2 hrun
    exact ⟨length' + 1, .pass hnode hcons hvia.1 hnext hrun'⟩

theorem admits_eq_true_iff {next : Option Char} : admits nodes id next = true ↔
    id = final ∨ ∃ node a c, nodes[id]? = some node ∧ node.kind = .atom a ∧ next = some c ∧
      Atom.accepts a c = true := by
  unfold admits
  rw [Bool.or_eq_true, beq_iff_eq]
  apply or_congr_right
  cases nodes[id]? with
  | none => simp
  | some node =>
    obtain ⟨kind, greedy, capturing, group, out⟩ := node
    cases kind <;> cases next <;> simp

variable {g : Graph α} {source : Nat}

/-- Where a search stops, a run does. -/
theorem exists_run_of_search {bs : Ahead} {marks : List Mark}
    (h : g.search bs source = some (stop, marks)) :
    ∃ node next length, g.nodes[source]? = some node ∧ next ∈ node.out ∧
      Run g.nodes length next bs stop := by
  induction bs generalizing source stop marks with
  | nil => cases h
  | cons b rest ih =>
    rw [search_cons] at h
    obtain ⟨p, hp, hfound⟩ := List.exists_of_findSome?_eq_some h
    obtain ⟨-, node, next, hnode, hnext, hpaths⟩ := mem_paths.mp hp
    obtain ⟨via, hleads, hpassed⟩ := mem_pathsFrom.mp hpaths
    split at hfound
    · rename_i hallows
      obtain ⟨r, hr, heq⟩ := Option.map_eq_some_iff.mp hfound
      cases heq
      rw [Path.work, hpassed, List.reverse_nil, List.nil_append, allows_passedWork] at hallows
      have hrun : ∃ length, Run g.nodes length p.target (b :: rest) r.1 := by
        unfold beyond at hr
        split at hr
        · rename_i hadmits
          by_cases htarget : p.target = final
          · rw [if_pos htarget] at hr
            cases hr
            exact ⟨0, htarget ▸ .final b rest⟩
          · rw [if_neg htarget] at hr
            have hsearch : g.search rest p.target = some (r.1, r.2) := hr
            obtain ⟨node', next', length, hnode', hnext', hrun⟩ := ih hsearch
            rcases admits_eq_true_iff.mp hadmits with h | ⟨node'', a, c, hnode'', hkind, hc, haccepts⟩
            · exact absurd h htarget
            · cases hnode'.symm.trans hnode''
              exact ⟨length + 1, .consume hnode' hkind hc haccepts hnext' hrun⟩
        · cases hr
      obtain ⟨length, hrun⟩ := hrun
      obtain ⟨length', hrun'⟩ := exists_run_of_leads hleads hallows hrun
      exact ⟨node, next, length', hnode, hnext, hrun'⟩
    · cases hfound

/-- A node from which a search finds a match, if one leads there from its source. -/
def Reaches (g : Graph α) (b : Boundary) (rest : Ahead) (id : Nat) : Prop :=
  ∃ via target, Leads g.nodes [] id via target ∧ via.all (holdsAt g.nodes b) = true ∧
    (g.beyond b rest target).isSome

theorem isSome_search_of_reaches {node : Node α} (hsource : source ≠ final)
    (hnode : g.nodes[source]? = some node) (hid : id ∈ node.out) (h : g.Reaches b rest id) :
    (g.search (b :: rest) source).isSome := by
  obtain ⟨via, target, hleads, hvia, hbeyond⟩ := h
  have hpath : (⟨via, target⟩ : Path) ∈ g.paths source :=
    mem_paths.mpr ⟨hsource, node, id, hnode, hid, mem_pathsFrom.mpr ⟨via, hleads, rfl⟩⟩
  rw [search_cons, List.findSome?_isSome_iff]
  refine ⟨_, hpath, ?_⟩
  rw [Path.work, if_pos (by rwa [allows_passedWork])]
  simpa using hbeyond

/-- Where a run begins, a search does: what is passed between two visits of a node is left out. -/
theorem reaches_of_run (hfinal : ∃ node, g.nodes[final]? = some node ∧ node.kind = .final)
    {length : Nat} {bs : Ahead} (h : Run g.nodes length id bs stop) :
    ∃ b rest, bs = b :: rest ∧ g.Reaches b rest id := by
  obtain ⟨fnode, hfnode, hfkind⟩ := hfinal
  induction h with
  | final b rest =>
    refine ⟨b, rest, rfl, [], final, .arrive hfnode ?_, rfl, ?_⟩
    · simp [Node.isConsuming, hfkind, Kind.isConsuming]
    · simp [beyond, admits]
  | @consume length id next node a c b rest stop hnode hkind hc haccepts hnext hrest ih =>
    obtain ⟨b', rest', rfl, hreaches⟩ := ih
    have hid : id ≠ final := by
      rintro rfl
      cases hnode.symm.trans hfnode
      rw [hkind] at hfkind
      cases hfkind
    refine ⟨b, b' :: rest', rfl, [], id, .arrive hnode ?_, rfl, ?_⟩
    · simp [Node.isConsuming, hkind, Kind.isConsuming]
    · rw [beyond, if_pos (admits_eq_true_iff.mpr (.inr ⟨node, a, c, hnode, hkind, hc, haccepts⟩)),
        if_neg hid]
      exact isSome_search_of_reaches hid hnode hnext hreaches
  | @pass length id next node b rest stop hnode hcons hholds hnext hrest ih =>
    obtain ⟨b', rest', heq, via, target, hleads, hvia, hbeyond⟩ := ih
    cases heq
    refine ⟨b, rest, rfl, ?_⟩
    by_cases hid : id ∈ via
    · obtain ⟨via', hsuffix, hleads'⟩ := hleads.of_mem hid
      refine ⟨id :: via', target, hleads', ?_, hbeyond⟩
      exact List.all_eq_true.mpr fun x hx ↦ List.all_eq_true.mp hvia x (hsuffix.subset hx)
    · refine ⟨id :: via, target, .pass hnode hcons List.not_mem_nil hnext (hleads.avoiding ?_), ?_,
        hbeyond⟩
      · intro x hx hmem
        cases List.mem_singleton.mp hmem
        exact hid hx
      · rw [List.all_cons, hholds, hvia, Bool.and_self]

/-- A search finds a match if and only if a run leaves its source. -/
theorem isSome_search_iff (hfinal : ∃ node, g.nodes[final]? = some node ∧ node.kind = .final)
    {node : Node α} (hsource : source ≠ final) (hnode : g.nodes[source]? = some node) {bs : Ahead} :
    (g.search bs source).isSome ↔
      ∃ next length stop, next ∈ node.out ∧ Run g.nodes length next bs stop := by
  constructor
  · intro h
    obtain ⟨⟨stop, marks⟩, hsearch⟩ := Option.isSome_iff_exists.mp h
    obtain ⟨node', next, length, hnode', hnext, hrun⟩ := exists_run_of_search hsearch
    cases hnode.symm.trans hnode'
    exact ⟨next, length, stop, hnext, hrun⟩
  · rintro ⟨next, length, stop, hnext, hrun⟩
    obtain ⟨b, rest, rfl, hreaches⟩ := reaches_of_run hfinal hrun
    exact isSome_search_of_reaches hsource hnode hnext hreaches

end Graph

end Lockstep
