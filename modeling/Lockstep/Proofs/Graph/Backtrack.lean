import Lockstep.Proofs.Graph.Search

/-!
# Backtracking in a graph

A matcher that follows the edges of a graph, preferred ones first, may go round a loop forever without
consuming anything. Where it comes to an end, a search finds what it finds: if it met a node on its way
from that node at the same boundary, it would meet it again and again, so the paths that a search leaves
out are not taken.
-/

namespace Lockstep

universe u v w

variable {α : Type u}

namespace Graph

/-! ## The first success -/

section

variable {β : Type v} {f f' : Nat → Option (Option β)} {ids : List Nat} {r r' : Option β}

/-- The first success among nodes, in order; `none` if an attempt before it does not come to an end. -/
def firstOf (f : Nat → Option (Option β)) : List Nat → Option (Option β)
  | [] => some none
  | id :: ids =>
    match f id with
    | none => none
    | some none => firstOf f ids
    | some (some x) => some (some x)

theorem firstOf_mono (h : ∀ id r, f id = some r → f' id = some r) (hf : firstOf f ids = some r) :
    firstOf f' ids = some r := by
  induction ids with
  | nil => exact hf
  | cons id ids ih =>
    rw [firstOf] at hf ⊢
    cases hid : f id with
    | none => simp [hid] at hf
    | some x =>
      rw [hid] at hf
      rw [h id x hid]
      cases x with
      | none => exact ih hf
      | some x => exact hf

theorem firstOf_eq_none (h : ∀ id r, f id = some r → r = none) (hf : firstOf f ids = some r) :
    r = none := by
  induction ids with
  | nil =>
    cases hf
    rfl
  | cons id ids ih =>
    rw [firstOf] at hf
    cases hid : f id with
    | none => simp [hid] at hf
    | some x =>
      rw [hid, h id x hid] at hf
      exact ih hf

theorem firstOf_singleton {id : Nat} (h : f id = some r) : firstOf f [id] = some r := by
  rw [firstOf, h]
  cases r <;> rfl

theorem firstOf_pair {id id' : Nat} (h : f id = some r) (h' : f id' = some r') :
    firstOf f [id, id'] = some (r.or r') := by
  rw [firstOf, h, firstOf_singleton h']
  cases r <;> rfl

/-- A first success gives the first success among what stands for the nodes. -/
theorem findSome?_flatMap_of_firstOf {γ : Type w} {δ : Type v} {paths : Nat → List γ}
    {attempt : γ → Option δ} {F : β → δ}
    (h : ∀ id r, f id = some r → (paths id).findSome? attempt = r.map F)
    (hf : firstOf f ids = some r) : (ids.flatMap paths).findSome? attempt = r.map F := by
  induction ids with
  | nil =>
    cases hf
    rfl
  | cons id ids ih =>
    rw [List.flatMap_cons, List.findSome?_append]
    rw [firstOf] at hf
    cases hid : f id with
    | none => simp [hid] at hf
    | some x =>
      rw [hid] at hf
      rw [h id x hid]
      cases x with
      | none => exact ih hf
      | some x =>
        cases hf
        rfl

end

variable [Atom α] {nodes : Array (Node α)} {depth depth' id : Nat} {bs : Ahead}
  {r r' : Option (Ahead × List Mark)}

/-- What a node does on the way, as marks. -/
def passing (node : Node α) (id : Nat) : List (Side × Nat) :=
  markers (ZeroWidth.ofNode? node id).toList

/-- What following the edges from a node finds, `depth` edges deep; `none` if that is not deep
enough. -/
def explore (nodes : Array (Node α)) : (depth id : Nat) → Ahead → Option (Option (Ahead × List Mark))
  | 0, _, _ => none
  | _ + 1, _, [] => some none
  | depth + 1, id, b :: rest =>
    if id = final then some (some (b :: rest, []))
    else
      match nodes[id]? with
      | none => some none
      | some node =>
        if node.isConsuming then
          if admits nodes id b.next then firstOf (explore nodes depth · rest) node.out else some none
        else if holdsAt nodes b id then
          (firstOf (explore nodes depth · (b :: rest)) node.out).map
            (Option.map (precede b (passing node id)))
        else some none

theorem explore_of_consuming {node : Node α} {b : Boundary} {rest : Ahead} (hid : id ≠ final)
    (hnode : nodes[id]? = some node) (hcons : node.isConsuming = true) :
    explore nodes (depth + 1) id (b :: rest) =
      if admits nodes id b.next then firstOf (explore nodes depth · rest) node.out else some none := by
  rw [explore, if_neg hid, hnode]
  exact if_pos hcons

theorem explore_of_passing {node : Node α} {b : Boundary} {rest : Ahead} (hid : id ≠ final)
    (hnode : nodes[id]? = some node) (hcons : node.isConsuming = false) :
    explore nodes (depth + 1) id (b :: rest) =
      if holdsAt nodes b id then
        (firstOf (explore nodes depth · (b :: rest)) node.out).map
          (Option.map (precede b (passing node id)))
      else some none := by
  rw [explore, if_neg hid, hnode]
  exact if_neg (by simp [hcons])

theorem explore_nil (h : explore nodes depth id [] = some r) : r = none := by
  cases depth with
  | zero => cases h
  | succ depth =>
    cases h
    rfl

/-- Going deeper changes nothing where the end has been reached. -/
theorem explore_succ (h : explore nodes depth id bs = some r) :
    explore nodes (depth + 1) id bs = some r := by
  induction depth generalizing id bs r with
  | zero => cases h
  | succ depth ih =>
    cases bs with
    | nil => exact h
    | cons b rest =>
      by_cases hid : id = final
      · rw [explore, if_pos hid] at h ⊢
        exact h
      cases hnode : nodes[id]? with
      | none =>
        rw [explore, if_neg hid, hnode] at h ⊢
        exact h
      | some node =>
        cases hcons : node.isConsuming with
        | true =>
          rw [explore_of_consuming hid hnode hcons] at h ⊢
          by_cases hadmits : admits nodes id b.next = true
          · rw [if_pos hadmits] at h ⊢
            exact firstOf_mono (fun _ _ ↦ ih) h
          · rwa [if_neg hadmits] at h ⊢
        | false =>
          rw [explore_of_passing hid hnode hcons] at h ⊢
          by_cases hholds : holdsAt nodes b id = true
          · rw [if_pos hholds] at h ⊢
            obtain ⟨x, hx, rfl⟩ := Option.map_eq_some_iff.mp h
            rw [firstOf_mono (fun _ _ ↦ ih) hx, Option.map_some]
          · rwa [if_neg hholds] at h ⊢

theorem explore_mono (hle : depth ≤ depth') (h : explore nodes depth id bs = some r) :
    explore nodes depth' id bs = some r := by
  induction hle with
  | refl => exact h
  | step hle ih => exact explore_succ ih

/-! ## Searches and backtracking -/

variable {g : Graph α} {b : Boundary} {rest : Ahead} {passed : List Nat}

/-- What a search finds along a path. -/
def alongPath (g : Graph α) (b : Boundary) (rest : Ahead) (p : Path) : Option (Ahead × List Mark) :=
  if allows (holdsAt g.nodes b) (p.work g.nodes) then
    (g.beyond b rest p.target).map (precede b (markers (p.work g.nodes)))
  else none

/-- A search from a node tries the paths that its edges lead to. -/
theorem search_of_ne_final {source : Nat} {node : Node α} (hsource : source ≠ final)
    (hnode : g.nodes[source]? = some node) : g.search (b :: rest) source =
      (node.out.flatMap (pathsFrom g.nodes [])).findSome? (g.alongPath b rest) := by
  rw [search_cons, paths, if_neg hsource, hnode]
  rfl

theorem precede_nil (b : Boundary) (r : Option (Ahead × List Mark)) : r.map (precede b []) = r :=
  congrFun Option.map_id r

theorem precede_append (b : Boundary) (passed passed' : List (Side × Nat))
    (r : Option (Ahead × List Mark)) :
    r.map (precede b (passed ++ passed')) = (r.map (precede b passed')).map (precede b passed) := by
  rw [Option.map_map]
  apply congrArg (Option.map · r)
  funext x
  simp [precede]

/-- Nothing is found along paths over an assertion that fails. -/
theorem findSome?_pathsFrom_of_not_all (h : ¬ passed.all (holdsAt g.nodes b) = true) :
    (pathsFrom g.nodes passed id).findSome? (g.alongPath b rest) = none := by
  refine List.findSome?_eq_none_iff.mpr fun p hp ↦ if_neg fun hallows ↦ h ?_
  obtain ⟨via, -, hpassed⟩ := mem_pathsFrom.mp hp
  rw [Path.work, hpassed, allows_passedWork, List.all_append, List.all_reverse,
    Bool.and_eq_true] at hallows
  exact hallows.1

/-- The paths that a search tries from a node find what backtracking `depth` edges deep from the node
finds, if backtracking from the nodes passed goes deeper. -/
def PathsFind (g : Graph α) (depth : Nat) : Prop :=
  ∀ ⦃id passed b rest r⦄, explore g.nodes depth id (b :: rest) = some r →
    (∀ x ∈ passed, explore g.nodes depth x (b :: rest) = none) →
    passed.all (holdsAt g.nodes b) = true →
    (pathsFrom g.nodes passed id).findSome? (g.alongPath b rest) =
      r.map (precede b (markers (passedWork g.nodes passed.reverse)))

namespace PathsFind

theorem onward (hdepth : PathsFind g depth) (h : explore g.nodes depth id (b :: rest) = some r) :
    (pathsFrom g.nodes [] id).findSome? (g.alongPath b rest) = r :=
  (hdepth h (List.forall_mem_nil _) rfl).trans (precede_nil b r)

/-- A search from a node finds what backtracking from its successors finds. -/
theorem search {source : Nat} {node : Node α} (hdepth : PathsFind g depth) (hsource : source ≠ final)
    (hnode : g.nodes[source]? = some node)
    (h : firstOf (explore g.nodes depth · bs) node.out = some r) : g.search bs source = r := by
  cases bs with
  | nil =>
    rw [firstOf_eq_none (fun _ _ ↦ explore_nil) h]
    rfl
  | cons b rest =>
    have hpaths : ∀ next x, explore g.nodes depth next (b :: rest) = some x →
        (pathsFrom g.nodes [] next).findSome? (g.alongPath b rest) = x.map fun y ↦ y :=
      fun next x hnext ↦ (hdepth.onward hnext).trans (congrFun Option.map_id x).symm
    rw [search_of_ne_final hsource hnode]
    exact (findSome?_flatMap_of_firstOf hpaths h).trans (congrFun Option.map_id r)

/-- What is found behind a consuming node is what backtracking from it finds. -/
theorem beyond {node : Node α} (hdepth : PathsFind g depth) (hnode : g.nodes[id]? = some node)
    (hcons : node.isConsuming = true)
    (h : explore g.nodes (depth + 1) id (b :: rest) = some r) : g.beyond b rest id = r := by
  by_cases hid : id = final
  · rw [explore, if_pos hid] at h
    cases h
    rw [Graph.beyond, hid]
    rfl
  · rw [explore_of_consuming hid hnode hcons] at h
    rw [Graph.beyond, if_neg hid]
    by_cases hadmits : admits g.nodes id b.next = true
    · rw [if_pos hadmits] at h ⊢
      exact hdepth.search hid hnode h
    · rw [if_neg hadmits] at h ⊢
      cases h
      rfl

/-- The paths that go on over a node that consumes nothing find what backtracking from it finds. -/
theorem passing {node : Node α} (hdepth : PathsFind g depth) (hid : id ≠ final)
    (hnode : g.nodes[id]? = some node) (hcons : node.isConsuming = false) (hmem : id ∉ passed)
    (h : explore g.nodes (depth + 1) id (b :: rest) = some r)
    (hpassed : ∀ x ∈ id :: passed, explore g.nodes depth x (b :: rest) = none)
    (hholds : passed.all (holdsAt g.nodes b) = true) :
    (pathsFrom g.nodes passed id).findSome? (g.alongPath b rest) =
      r.map (precede b (markers (passedWork g.nodes passed.reverse))) := by
  rw [explore_of_passing hid hnode hcons] at h
  rw [pathsFrom_of_notMem hnode hcons hmem]
  by_cases hhold : holdsAt g.nodes b id = true
  · rw [if_pos hhold] at h
    obtain ⟨x, hx, rfl⟩ := Option.map_eq_some_iff.mp h
    have hall : (id :: passed).all (holdsAt g.nodes b) = true := by
      rw [List.all_cons, hhold, hholds, Bool.and_self]
    have hpaths := findSome?_flatMap_of_firstOf
      (fun next x (hnext : explore g.nodes depth next (b :: rest) = some x) ↦
        hdepth hnext hpassed hall) hx
    rw [hpaths, List.reverse_cons, passedWork_append, passedWork_cons hnode, passedWork_nil,
      List.append_nil, markers, List.filterMap_append, precede_append]
    rfl
  · rw [if_neg hhold] at h
    cases h
    -- every path goes over the failing assertion
    refine List.findSome?_eq_none_iff.mpr fun p hp ↦ ?_
    obtain ⟨next, -, hp⟩ := List.mem_flatMap.mp hp
    have hnone : (pathsFrom g.nodes (id :: passed) next).findSome? (g.alongPath b rest) = none :=
      findSome?_pathsFrom_of_not_all fun hall ↦
        hhold (List.all_eq_true.mp hall id List.mem_cons_self)
    exact List.findSome?_eq_none_iff.mp hnone p hp

theorem succ (hfinal : ∃ node, g.nodes[final]? = some node ∧ node.kind = .final)
    (hdepth : PathsFind g depth) : PathsFind g (depth + 1) := by
  intro id passed b rest r h hpassed hholds
  have hshallow : ∀ x ∈ passed, explore g.nodes depth x (b :: rest) = none := fun x hx ↦
    Option.eq_none_iff_forall_ne_some.mpr fun r' hr' ↦ by
      have hnone := hpassed x hx
      rw [explore_succ hr'] at hnone
      cases hnone
  cases hprev : explore g.nodes depth id (b :: rest) with
  | some r' =>
    rw [explore_succ hprev] at h
    cases h
    exact hdepth hprev hshallow hholds
  | none =>
    -- the depth is the least at which backtracking from the node comes to an end
    have hmem : id ∉ passed := by
      intro hmem
      rw [hpassed id hmem] at h
      cases h
    cases hnode : g.nodes[id]? with
    | none =>
      have hid : id ≠ final := by
        rintro rfl
        obtain ⟨node, hfnode, -⟩ := hfinal
        cases hnode.symm.trans hfnode
      rw [explore, if_neg hid, hnode] at h
      cases h
      rw [pathsFrom_of_none hnode]
      rfl
    | some node =>
      cases hcons : node.isConsuming with
      | true =>
        rw [pathsFrom_of_consuming hnode hcons, List.findSome?_singleton, alongPath, Path.work,
          allows_passedWork, List.all_reverse, if_pos hholds, hdepth.beyond hnode hcons h]
      | false =>
        have hid : id ≠ final := ne_final_of_kind hfinal hnode fun hkind ↦ by
          simp [Node.isConsuming, hkind, Kind.isConsuming] at hcons
        exact hdepth.passing hid hnode hcons hmem h (List.forall_mem_cons.mpr ⟨hprev, hshallow⟩)
          hholds

end PathsFind

theorem pathsFind (hfinal : ∃ node, g.nodes[final]? = some node ∧ node.kind = .final)
    (depth : Nat) : PathsFind g depth := by
  induction depth with
  | zero =>
    intro id passed b rest r h
    cases h
  | succ depth ih => exact ih.succ hfinal

/-! ## The results of backtracking -/

/-- Backtracking from a node comes to an end and finds `r`. -/
def Evaluates (nodes : Array (Node α)) (id : Nat) (bs : Ahead) (r : Option (Ahead × List Mark)) :
    Prop := ∃ depth, explore nodes depth id bs = some r

/-- Backtracking from one node after another, up to the first success, comes to an end and finds
`r`. -/
def EvaluatesFirst (nodes : Array (Node α)) (ids : List Nat) (bs : Ahead)
    (r : Option (Ahead × List Mark)) : Prop :=
  ∃ depth, firstOf (explore nodes depth · bs) ids = some r

/-- A success after `marks` have been recorded. -/
def withMarks (marks : List Mark) (r : Ahead × List Mark) : Ahead × List Mark := (r.1, marks ++ r.2)

section

variable {node : Node α} {next next' : Nat}

theorem Evaluates.nil (nodes : Array (Node α)) (id : Nat) : Evaluates nodes id [] none := ⟨1, rfl⟩

theorem Evaluates.final (nodes : Array (Node α)) (b : Boundary) (rest : Ahead) :
    Evaluates nodes Graph.final (b :: rest) (some (b :: rest, [])) :=
  ⟨1, by rw [explore, if_pos rfl]⟩

theorem Evaluates.first (h : Evaluates nodes next bs r) : EvaluatesFirst nodes [next] bs r := by
  obtain ⟨depth, h⟩ := h
  exact ⟨depth, firstOf_singleton h⟩

theorem Evaluates.first_or (h : Evaluates nodes next bs r) (h' : Evaluates nodes next' bs r') :
    EvaluatesFirst nodes [next, next'] bs (r.or r') := by
  obtain ⟨depth, h⟩ := h
  obtain ⟨depth', h'⟩ := h'
  exact ⟨max depth depth', firstOf_pair (explore_mono (Nat.le_max_left _ _) h)
    (explore_mono (Nat.le_max_right _ _) h')⟩

theorem EvaluatesFirst.eq_none {ids : List Nat} (h : EvaluatesFirst nodes ids [] r) : r = none := by
  obtain ⟨depth, h⟩ := h
  exact firstOf_eq_none (fun _ _ ↦ explore_nil) h

/-- Backtracking from a node that does not take the next character fails. -/
theorem Evaluates.of_not_admits (hid : id ≠ Graph.final) (hnode : nodes[id]? = some node)
    (hcons : node.isConsuming = true) (hadmits : ¬ admits nodes id b.next = true) :
    Evaluates nodes id (b :: rest) none :=
  ⟨1, by rw [explore_of_consuming hid hnode hcons, if_neg hadmits]⟩

/-- Backtracking from a node that takes the next character goes on after it. -/
theorem Evaluates.of_admits (hid : id ≠ Graph.final) (hnode : nodes[id]? = some node)
    (hcons : node.isConsuming = true) (hadmits : admits nodes id b.next = true)
    (h : EvaluatesFirst nodes node.out rest r) : Evaluates nodes id (b :: rest) r := by
  obtain ⟨depth, h⟩ := h
  exact ⟨depth + 1, by rw [explore_of_consuming hid hnode hcons, if_pos hadmits, h]⟩

/-- Backtracking from a node fails where its assertion does. -/
theorem Evaluates.of_not_holds (hid : id ≠ Graph.final) (hnode : nodes[id]? = some node)
    (hcons : node.isConsuming = false) (hholds : ¬ holdsAt nodes b id = true) :
    Evaluates nodes id (b :: rest) none :=
  ⟨1, by rw [explore_of_passing hid hnode hcons, if_neg hholds]⟩

/-- Backtracking from a node that consumes nothing goes on at the same boundary where its assertion
holds. -/
theorem Evaluates.of_holds (hid : id ≠ Graph.final) (hnode : nodes[id]? = some node)
    (hcons : node.isConsuming = false) (hholds : holdsAt nodes b id = true)
    (h : EvaluatesFirst nodes node.out (b :: rest) r) :
    Evaluates nodes id (b :: rest) (r.map (precede b (passing node id))) := by
  obtain ⟨depth, h⟩ := h
  exact ⟨depth + 1, by rw [explore_of_passing hid hnode hcons, if_pos hholds, h, Option.map_some]⟩

/-- Backtracking from a node that consumes and tests nothing only records its marks. -/
theorem Evaluates.of_passing (hid : id ≠ Graph.final) (hnode : nodes[id]? = some node)
    (hcons : node.isConsuming = false) (hassert : node.kind.assertion? = none)
    (h : EvaluatesFirst nodes node.out bs r) :
    Evaluates nodes id bs
      (r.map (withMarks ((passing node id).map fun m ↦ ⟨m.1, m.2, bs.offset⟩))) := by
  cases bs with
  | nil =>
    rw [h.eq_none]
    exact .nil nodes id
  | cons b rest =>
    exact .of_holds hid hnode hcons (by simp [holdsAt, hnode, hassert]) h

/-- A node that does nothing but lead on. -/
structure Forks (nodes : Array (Node α)) (id : Nat) (out : List Nat) : Prop where
  ne_final : id ≠ Graph.final
  node : ∃ node, nodes[id]? = some node ∧ node.isConsuming = false ∧ node.kind.assertion? = none ∧
    passing node id = [] ∧ node.out = out

theorem withMarks_nil (r : Option (Ahead × List Mark)) : r.map (withMarks []) = r :=
  congrFun Option.map_id r

theorem Forks.evaluates {out : List Nat} (h : Forks nodes id out)
    (hfirst : EvaluatesFirst nodes out bs r) : Evaluates nodes id bs r := by
  obtain ⟨hid, node, hnode, hcons, hassert, hmarks, rfl⟩ := h
  have hpassing := Evaluates.of_passing hid hnode hcons hassert hfirst
  rwa [hmarks, List.map_nil, withMarks_nil] at hpassing

end

/-- A search from a node finds what backtracking from its only successor finds. -/
theorem search_eq_of_evaluates (hfinal : ∃ node, g.nodes[final]? = some node ∧ node.kind = .final)
    {source next : Nat} {node : Node α} (hsource : source ≠ final)
    (hnode : g.nodes[source]? = some node) (hout : node.out = [next])
    (h : Evaluates g.nodes next bs r) : g.search bs source = r := by
  obtain ⟨depth, h⟩ := h
  apply (pathsFind hfinal depth).search hsource hnode
  rw [hout]
  exact firstOf_singleton h

end Graph

end Lockstep
