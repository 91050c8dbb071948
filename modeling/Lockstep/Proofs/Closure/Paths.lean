import Lockstep.Closure
import Lockstep.Proofs.Search

/-!
# Paths

The reference for the closures: all paths from a node that consume nothing on the way and pass no
node twice, in depth-first order. Paths that end in the same node differ in what they pass, and the
first of them whose assertions hold is the one that counts.
-/

namespace Lockstep

universe u v

variable {α : Type u}

/-! ## All paths -/

/-- A path to a consuming node or the final one. -/
structure Path where
  /-- The nodes passed, in order. None of them consumes. -/
  passed : List Nat
  target : Nat
deriving DecidableEq, Repr

theorem countP_lt_countP {p q : Nat → Bool} (h : ∀ i, p i = true → q i = true) {l : List Nat}
    {id : Nat} (hid : id ∈ l) (hp : p id = false) (hq : q id = true) : l.countP p < l.countP q := by
  induction l with
  | nil => cases hid
  | cons i l ih =>
    have hle : l.countP p ≤ l.countP q := List.countP_mono_left fun i _ ↦ h i
    rw [List.countP_cons, List.countP_cons]
    rcases List.mem_cons.mp hid with rfl | hid
    · rw [if_neg (by simp [hp]), if_pos hq]
      omega
    · have hlt := ih hid
      by_cases hi : p i = true
      · rw [if_pos hi, if_pos (h i hi)]
        omega
      · rw [if_neg hi]
        omega

/-- The paths from a node on that pass none of the nodes `passed`, the last of which comes first. A
node is passed once at most, so there are finitely many. -/
def pathsFrom (nodes : Array (Node α)) (passed : List Nat) (id : Nat) : List Path :=
  match _h : nodes[id]? with
  | none => []
  | some node =>
    if node.isConsuming then [⟨passed.reverse, id⟩]
    else if _hnew : id ∈ passed then []
    else node.out.flatMap fun next ↦ pathsFrom nodes (id :: passed) next
termination_by (List.range nodes.size).countP fun i ↦ i ∉ passed
decreasing_by
  obtain ⟨hid, -⟩ := Array.getElem?_eq_some_iff.mp _h
  exact countP_lt_countP (fun i hi ↦ by simp_all) (List.mem_range.mpr hid) (by simp)
    (by simpa using _hnew)

/-- The paths that leave a node. No path leaves the final node. The source itself does not count as
passed: in a graph wired by hand, an edge back to the entry may pass the entry once. No edge of a graph
wired from an expression leads there. -/
def Graph.paths (g : Graph α) (source : Nat) : List Path :=
  if source = Graph.final then []
  else (g.nodes[source]?.elim [] Node.out).flatMap (pathsFrom g.nodes [])

variable {nodes : Array (Node α)} {passed : List Nat} {id : Nat} {node : Node α}

theorem pathsFrom_of_none (h : nodes[id]? = none) : pathsFrom nodes passed id = [] := by
  rw [pathsFrom]
  split <;> simp_all

theorem pathsFrom_of_consuming (h : nodes[id]? = some node) (hcons : node.isConsuming = true) :
    pathsFrom nodes passed id = [⟨passed.reverse, id⟩] := by
  rw [pathsFrom]
  split <;> simp_all

theorem pathsFrom_of_notMem (h : nodes[id]? = some node) (hcons : node.isConsuming = false)
    (hid : id ∉ passed) :
    pathsFrom nodes passed id = node.out.flatMap (pathsFrom nodes (id :: passed)) := by
  rw [pathsFrom]
  split <;> simp_all

theorem pathsFrom_of_mem (h : nodes[id]? = some node) (hcons : node.isConsuming = false)
    (hid : id ∈ passed) : pathsFrom nodes passed id = [] := by
  rw [pathsFrom]
  split <;> simp_all

/-- The nodes `via` lead from `id` on to `target` without a node of `avoid`, and without passing a
node twice. -/
inductive Leads (nodes : Array (Node α)) : List Nat → Nat → List Nat → Nat → Prop where
  | arrive {avoid : List Nat} {id : Nat} {node : Node α} (hnode : nodes[id]? = some node)
      (hcons : node.isConsuming = true) : Leads nodes avoid id [] id
  | pass {avoid : List Nat} {id next : Nat} {node : Node α} {via : List Nat} {target : Nat}
      (hnode : nodes[id]? = some node) (hcons : node.isConsuming = false) (hnew : id ∉ avoid)
      (hnext : next ∈ node.out) (hrest : Leads nodes (id :: avoid) next via target) :
      Leads nodes avoid id (id :: via) target

namespace Leads

variable {avoid avoid' via : List Nat} {target : Nat}

theorem notMem (h : Leads nodes avoid id via target) {x : Nat} (hx : x ∈ via) : x ∉ avoid := by
  induction h with
  | arrive => cases hx
  | pass hnode hcons hnew hnext hrest ih =>
    rcases List.mem_cons.mp hx with rfl | hx
    · exact hnew
    · exact fun hmem ↦ ih hx (List.mem_cons_of_mem _ hmem)

theorem exists_target (h : Leads nodes avoid id via target) :
    ∃ node, nodes[target]? = some node ∧ node.isConsuming = true := by
  induction h with
  | arrive hnode hcons => exact ⟨_, hnode, hcons⟩
  | pass hnode hcons hnew hnext hrest ih => exact ih

/-- Only the nodes passed have to be off the ones to avoid. -/
theorem avoiding (h : Leads nodes avoid id via target) (hvia : ∀ x ∈ via, x ∉ avoid') :
    Leads nodes avoid' id via target := by
  induction h generalizing avoid' with
  | arrive hnode hcons => exact .arrive hnode hcons
  | @pass avoid id next node via target hnode hcons hnew hnext hrest ih =>
    refine .pass hnode hcons (hvia id List.mem_cons_self) hnext (ih fun x hx hmem ↦ ?_)
    rcases List.mem_cons.mp hmem with rfl | hmem
    · exact hrest.notMem hx List.mem_cons_self
    · exact hvia x (List.mem_cons_of_mem _ hx) hmem

/-- A node on the way leads on to the same target. -/
theorem of_mem (h : Leads nodes avoid id via target) {x : Nat} (hx : x ∈ via) :
    ∃ via', x :: via' <:+ via ∧ Leads nodes avoid x (x :: via') target := by
  induction h with
  | arrive => cases hx
  | @pass avoid id next node via target hnode hcons hnew hnext hrest ih =>
    rcases List.mem_cons.mp hx with rfl | hx
    · exact ⟨via, List.suffix_rfl, .pass hnode hcons hnew hnext hrest⟩
    · obtain ⟨via', hsuffix, hleads⟩ := ih hx
      refine ⟨via', hsuffix.trans (List.suffix_cons _ _), hleads.avoiding fun y hy hmem ↦ ?_⟩
      exact hleads.notMem hy (List.mem_cons_of_mem _ hmem)

end Leads

/-- The paths are what leads from the node on. -/
theorem mem_pathsFrom {p : Path} : p ∈ pathsFrom nodes passed id ↔
    ∃ via, Leads nodes passed id via p.target ∧ p.passed = passed.reverse ++ via := by
  constructor
  · intro h
    fun_induction pathsFrom nodes passed id with
    | case1 => cases h
    | case2 passed id node hnode hcons =>
      cases List.mem_singleton.mp h
      exact ⟨[], .arrive hnode hcons, (List.append_nil _).symm⟩
    | case3 => cases h
    | case4 passed id node hnode hcons hnew ih =>
      obtain ⟨next, hnext, hp⟩ := List.mem_flatMap.mp h
      obtain ⟨via, hleads, hpassed⟩ := ih next hp
      exact ⟨id :: via, .pass hnode (by simpa using hcons) hnew hnext hleads, by simp [hpassed]⟩
  · rintro ⟨via, hleads, hpassed⟩
    obtain ⟨ps, target⟩ := p
    dsimp only at hleads hpassed
    subst hpassed
    induction hleads with
    | arrive hnode hcons =>
      rw [pathsFrom_of_consuming hnode hcons]
      simp
    | pass hnode hcons hnew hnext hrest ih =>
      rw [pathsFrom_of_notMem hnode hcons hnew]
      exact List.mem_flatMap.mpr ⟨_, hnext, by simpa using ih⟩

theorem Graph.mem_paths {g : Graph α} {source : Nat} {p : Path} : p ∈ g.paths source ↔
    source ≠ Graph.final ∧ ∃ node next, g.nodes[source]? = some node ∧ next ∈ node.out ∧
      p ∈ pathsFrom g.nodes [] next := by
  unfold paths
  by_cases h : source = Graph.final
  · simp [h]
  · rw [if_neg h]
    cases g.nodes[source]? with
    | none => simp
    | some node => simp [h]

/-! ## What a path passes -/

/-- What a node that consumes nothing does, with the node's number for an assertion. -/
def ZeroWidth.ofNode? (node : Node α) (id : Nat) : Option ZeroWidth :=
  match node.kind with
  | .groupStart => if node.capturing then some (.mark .opening node.group) else none
  | .groupEnd => if node.capturing then some (.mark .closing node.group) else none
  | .assert _ => some (.assert id)
  | _ => none

/-- What is done when nodes are passed, in their order. -/
def passedWork (nodes : Array (Node α)) (ids : List Nat) : List ZeroWidth :=
  ids.filterMap fun id ↦ nodes[id]?.bind (ZeroWidth.ofNode? · id)

/-- What is done on a path, in order. -/
def Path.work (nodes : Array (Node α)) (p : Path) : List ZeroWidth := passedWork nodes p.passed

/-- The group boundaries in `work`, in order. -/
def markers (work : List ZeroWidth) : List (Side × Nat) := work.filterMap ZeroWidth.mark?

/-- Whether all assertions in `work` are among those that hold. -/
def allows (truth : Nat → Bool) (work : List ZeroWidth) : Bool :=
  work.all fun
    | .assert id => truth id
    | .mark _ _ => true

@[simp] theorem passedWork_nil : passedWork nodes [] = [] := rfl

theorem passedWork_append (ids ids' : List Nat) :
    passedWork nodes (ids ++ ids') = passedWork nodes ids ++ passedWork nodes ids' :=
  List.filterMap_append

theorem passedWork_reverse (ids : List Nat) :
    passedWork nodes ids.reverse = (passedWork nodes ids).reverse := List.filterMap_reverse

theorem passedWork_cons (hnode : nodes[id]? = some node) (ids : List Nat) :
    passedWork nodes (id :: ids) =
      (ZeroWidth.ofNode? node id).toList ++ passedWork nodes ids := by
  rw [passedWork, List.filterMap_cons, hnode]
  cases h : ZeroWidth.ofNode? node id <;> simp [h, passedWork]

theorem allows_append (truth : Nat → Bool) (work work' : List ZeroWidth) :
    allows truth (work ++ work') = (allows truth work && allows truth work') :=
  List.all_append

theorem allows_reverse (truth : Nat → Bool) (work : List ZeroWidth) :
    allows truth work.reverse = allows truth work := List.all_reverse

/-- Where a path ends and what is done on it. -/
def Path.outline (nodes : Array (Node α)) (p : Path) : Nat × List ZeroWidth := (p.target, p.work nodes)

/-! ## The ways that count -/

/-- The ways that may be taken when the assertions in `truth` hold, each with its target and the
group boundaries it passes. -/
def taken (truth : Nat → Bool) (ways : List (Nat × List ZeroWidth)) :
    List (Nat × List (Side × Nat)) :=
  (ways.filter fun way ↦ allows truth way.2).map fun way ↦ (way.1, markers way.2)

theorem taken_cons (truth : Nat → Bool) (way : Nat × List ZeroWidth)
    (ways : List (Nat × List ZeroWidth)) :
    taken truth (way :: ways) =
      if allows truth way.2 then (way.1, markers way.2) :: taken truth ways else taken truth ways := by
  by_cases h : allows truth way.2 = true
  · simp [taken, h]
  · simp [taken, h]

theorem taken_concat (truth : Nat → Bool) (ways : List (Nat × List ZeroWidth))
    (way : Nat × List ZeroWidth) :
    taken truth (ways ++ [way]) =
      taken truth ways ++ if allows truth way.2 then [(way.1, markers way.2)] else [] := by
  by_cases h : allows truth way.2 = true
  · simp [taken, h]
  · simp [taken, h]

theorem mem_targets_taken {truth : Nat → Bool} {ways : List (Nat × List ZeroWidth)}
    {way : Nat × List ZeroWidth} (hway : way ∈ ways) (h : allows truth way.2 = true) :
    way.1 ∈ (taken truth ways).map (·.1) :=
  List.mem_map.mpr ⟨_, List.mem_map.mpr ⟨way, List.mem_filter.mpr ⟨hway, h⟩, rfl⟩, rfl⟩

theorem taken_map (truth : Nat → Bool) (f : Nat → Nat) (ways : List (Nat × List ZeroWidth)) :
    taken truth (ways.map fun way ↦ (f way.1, way.2)) =
      (taken truth ways).map fun way ↦ (f way.1, way.2) := by
  simp [taken, List.filter_map, Function.comp_def]

/-- The pairs of which no earlier one has the same target. -/
def firstPerTarget {β : Type v} : List (Nat × β) → List (Nat × β)
  | [] => []
  | x :: l => x :: (firstPerTarget l).filter (·.1 ≠ x.1)

section

variable {β γ : Type v}

theorem mem_targets_firstPerTarget {l : List (Nat × β)} {target : Nat} :
    target ∈ (firstPerTarget l).map (·.1) ↔ target ∈ l.map (·.1) := by
  induction l with
  | nil => rfl
  | cons x l ih =>
    simp only [firstPerTarget, List.map_cons, List.mem_cons, ← ih, List.mem_map, List.mem_filter]
    by_cases h : target = x.1
    · simp [h]
    · constructor
      · rintro (h' | ⟨y, ⟨hy, -⟩, rfl⟩)
        · exact absurd h' h
        · exact .inr ⟨y, hy, rfl⟩
      · rintro (h' | ⟨y, hy, rfl⟩)
        · exact absurd h' h
        · exact .inr ⟨y, ⟨hy, by simpa using h⟩, rfl⟩

theorem mem_of_mem_firstPerTarget {l : List (Nat × β)} {x : Nat × β} (h : x ∈ firstPerTarget l) :
    x ∈ l := by
  induction l with
  | nil => exact h
  | cons y l ih =>
    rcases List.mem_cons.mp h with rfl | h
    · exact List.mem_cons_self
    · exact List.mem_cons_of_mem _ (ih (List.mem_filter.mp h).1)

/-- A pair after the others counts if none of them has its target. -/
theorem firstPerTarget_concat (l : List (Nat × β)) (x : Nat × β) :
    firstPerTarget (l ++ [x]) =
      firstPerTarget l ++ if x.1 ∈ l.map (·.1) then [] else [x] := by
  induction l with
  | nil => rfl
  | cons y l ih =>
    rw [List.cons_append, firstPerTarget, ih, List.filter_append, firstPerTarget, List.cons_append]
    by_cases hy : x.1 = y.1
    · have hnone : (if x.1 ∈ l.map (·.1) then [] else [x]).filter (·.1 ≠ y.1) = [] := by
        split <;> simp [hy]
      rw [hnone, if_pos (by simp [hy])]
    · have hall : (if x.1 ∈ l.map (·.1) then [] else [x]).filter (·.1 ≠ y.1) =
          if x.1 ∈ l.map (·.1) then [] else [x] := by
        split <;> simp [hy]
      have hiff : x.1 ∈ (y :: l).map (·.1) ↔ x.1 ∈ l.map (·.1) := by simp [hy]
      rw [hall]
      simp only [hiff]

/-- Renaming the targets changes nothing, if different targets get different names. -/
theorem firstPerTarget_map (f : Nat → Nat) (l : List (Nat × β))
    (hf : ∀ x ∈ l, ∀ y ∈ l, f x.1 = f y.1 → x.1 = y.1) :
    firstPerTarget (l.map fun x ↦ (f x.1, x.2)) =
      (firstPerTarget l).map fun x ↦ (f x.1, x.2) := by
  induction l with
  | nil => rfl
  | cons x l ih =>
    rw [List.map_cons, firstPerTarget, firstPerTarget, List.map_cons,
      ih fun y hy z hz ↦ hf y (List.mem_cons_of_mem _ hy) z (List.mem_cons_of_mem _ hz),
      List.filter_map]
    refine congrArg (_ :: List.map _ ·) (List.filter_congr fun y hy ↦ ?_)
    have hmem : y ∈ x :: l := List.mem_cons_of_mem _ (mem_of_mem_firstPerTarget hy)
    have hiff : f y.1 = f x.1 ↔ y.1 = x.1 :=
      ⟨hf y hmem x List.mem_cons_self, congrArg f⟩
    simp [hiff]

/-- A search that succeeds or fails with the target finds nothing more in the pairs left out. -/
theorem findSome?_firstPerTarget (f : Nat → β → Option γ) (l : List (Nat × β))
    (h : ∀ target x x', f target x = none → f target x' = none) :
    (firstPerTarget l).findSome? (fun x ↦ f x.1 x.2) = l.findSome? fun x ↦ f x.1 x.2 := by
  have hfilter (target : Nat) (x : β) (hnone : f target x = none) (l : List (Nat × β)) :
      (l.filter (·.1 ≠ target)).findSome? (fun x ↦ f x.1 x.2) = l.findSome? fun x ↦ f x.1 x.2 := by
    induction l with
    | nil => rfl
    | cons y l ih =>
      by_cases hy : y.1 = target
      · have hynone : f y.1 y.2 = none := hy ▸ h target x y.2 hnone
        rw [List.filter_cons_of_neg (by simpa using hy), ih, List.findSome?_cons, hynone]
      · rw [List.filter_cons_of_pos (by simpa using hy), List.findSome?_cons, List.findSome?_cons, ih]
  induction l with
  | nil => rfl
  | cons x l ih =>
    rw [firstPerTarget, List.findSome?_cons, List.findSome?_cons]
    cases hx : f x.1 x.2 with
    | some r => rfl
    | none => exact (hfilter x.1 x.2 hx _).trans ih

end

end Lockstep
