import Lockstep.Proofs.Closure.Paths

/-!
# Pruned lists of paths

A path is of no use if an earlier one ends in the same node and asks for nothing that it does not ask
for itself. Leaving out such paths does not change which path to a target counts, whatever
assertions hold.
-/

namespace Lockstep

universe u

variable {α : Type u} {nodes : Array (Node α)}

/-- Whatever assertions hold, `q` may be taken to the target where `p` may. -/
structure Path.Covers (nodes : Array (Node α)) (q p : Path) : Prop where
  target : q.target = p.target
  allows : ∀ truth, allows truth (p.work nodes) = true → allows truth (q.work nodes) = true

/-- The paths `kept` are `all` the paths but for some that earlier ones cover. -/
inductive Pruned (nodes : Array (Node α)) : (all kept : List Path) → Prop where
  | nil : Pruned nodes [] []
  | keep {all kept : List Path} (h : Pruned nodes all kept) (p : Path) :
      Pruned nodes (all ++ [p]) (kept ++ [p])
  | drop {all kept : List Path} (h : Pruned nodes all kept) {p q : Path} (hq : q ∈ all)
      (hcovers : q.Covers nodes p) : Pruned nodes (all ++ [p]) kept

namespace Pruned

variable {all kept : List Path}

theorem subset (h : Pruned nodes all kept) : kept ⊆ all := by
  induction h with
  | nil => exact fun _ hp ↦ hp
  | keep h p ih =>
    exact List.append_subset.mpr ⟨fun _ hp ↦ List.mem_append_left _ (ih hp),
      List.subset_append_right _ _⟩
  | drop h hq hcovers ih => exact fun _ hp ↦ List.mem_append_left _ (ih hp)

/-- Paths that earlier ones cover may all be left out. -/
theorem drop_all (h : Pruned nodes all kept) {ps : List Path}
    (hps : ∀ p ∈ ps, ∃ q ∈ all, q.Covers nodes p) : Pruned nodes (all ++ ps) kept := by
  induction ps generalizing all with
  | nil => rwa [List.append_nil]
  | cons p ps ih =>
    obtain ⟨q, hq, hcovers⟩ := hps p List.mem_cons_self
    rw [← List.singleton_append, ← List.append_assoc]
    apply ih (h.drop hq hcovers)
    intro p' hp'
    obtain ⟨q', hq', hcovers'⟩ := hps p' (List.mem_cons_of_mem _ hp')
    exact ⟨q', List.mem_append_left _ hq', hcovers'⟩

/-- Leaving out covered paths changes neither the first path to a target nor the order of the
targets. -/
theorem firstPerTarget_taken (h : Pruned nodes all kept) (truth : Nat → Bool) :
    firstPerTarget (taken truth (all.map (Path.outline nodes))) =
      firstPerTarget (taken truth (kept.map (Path.outline nodes))) := by
  induction h with
  | nil => rfl
  | @keep all kept h p ih =>
    have htargets : p.target ∈ (taken truth (all.map (Path.outline nodes))).map (·.1) ↔
        p.target ∈ (taken truth (kept.map (Path.outline nodes))).map (·.1) := by
      rw [← mem_targets_firstPerTarget, ih, mem_targets_firstPerTarget]
    rw [List.map_append, List.map_append, List.map_singleton, taken_concat, taken_concat]
    by_cases hp : allows truth (p.outline nodes).2 = true
    · rw [if_pos hp, firstPerTarget_concat, firstPerTarget_concat, ih]
      exact congrArg _ (ite_congr (propext htargets) (fun _ ↦ rfl) fun _ ↦ rfl)
    · rw [if_neg hp, List.append_nil, List.append_nil, ih]
  | @drop all kept h p q hq hcovers ih =>
    rw [List.map_append, List.map_singleton, taken_concat]
    by_cases hp : allows truth (p.outline nodes).2 = true
    · have hway : q.outline nodes ∈ all.map (Path.outline nodes) := List.mem_map_of_mem hq
      have hmem := mem_targets_taken hway (hcovers.allows truth hp)
      have htarget : (p.outline nodes).1 = (q.outline nodes).1 := hcovers.target.symm
      rw [if_pos hp, firstPerTarget_concat, if_pos (htarget ▸ hmem), List.append_nil, ih]
    · rw [if_neg hp, List.append_nil, ih]

end Pruned

end Lockstep
