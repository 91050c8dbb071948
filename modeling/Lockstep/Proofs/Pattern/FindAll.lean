import Lockstep.Proofs.Pattern.Backtrack
import Lockstep.Proofs.Pattern.Find

/-!
# All matches of a pattern

The automaton of a pattern whose loops consume something finds in a string what a backtracking matcher
over the pattern finds, with the same groups.
-/

namespace Lockstep

universe u

variable {α : Type u} [Atom α]

open Ahead (IsPlace)

namespace Pattern

variable {limit : Nat} {p : Pattern α} {nfa : Nfa α} {bs : Ahead}

/-- What is found at the end of the expression: the match stops at a boundary. -/
def accept : Ahead → Option (Ahead × List Mark)
  | [] => none
  | b :: rest => some (b :: rest, [])

theorem evaluates_accept (nodes : Array (Node α)) (bs : Ahead) :
    Graph.Evaluates nodes Graph.final bs (accept bs) := by
  cases bs with
  | nil => exact .nil nodes Graph.final
  | cons b rest => exact .final nodes b rest

/-- Nothing fails after the end of the expression, so the first success counts. -/
theorem firstOnward_accept {l : List (Ahead × List Mark)} (h : ∀ r ∈ l, r.1 ≠ []) :
    firstOnward accept l = l.head? := by
  cases l with
  | nil => rfl
  | cons r l =>
    obtain ⟨stop, marks⟩ := r
    obtain ⟨b, rest, rfl⟩ := List.exists_cons_of_ne_nil (h (stop, marks) List.mem_cons_self)
    rw [firstOnward_cons]
    simp [accept, Graph.withMarks]

/-- An attempt in a string finds the first success of the pattern. -/
theorem attempt_eq_head?_results (h : p.compile limit = .ok nfa) (hloops : p.loopsConsume = true)
    {s : String} (hbs : IsPlace s bs) : nfa.attempt bs = (p.results bs).head? := by
  obtain ⟨g, haccepted, hsearch⟩ := exists_graph_of_compile h
  obtain ⟨root, hentry, hwired⟩ := haccepted.entry
  have htries := hwired.tries haccepted.exists_final hloops bs accept fun r _ ↦
    evaluates_accept g.nodes r.1
  have hstops : ∀ r ∈ p.results bs, r.1 ≠ [] := fun r hr ↦
    (isPlace_of_matches hbs (matches_of_mem_results hr)).ne_nil
  rw [hsearch, ← firstOnward_accept hstops]
  exact Graph.search_eq_of_evaluates haccepted.exists_final haccepted.wellFormed.entry_ne hentry rfl
    htries

variable [LawfulAtom α]

/-- The matches found in a string are those of a backtracking matcher over the pattern, in order and
with their groups. -/
theorem findAll_eq_backtracking (h : p.compile limit = .ok nfa) (hloops : p.loopsConsume = true)
    (s : String) :
    nfa.findAll s.toUTF8.data .utf8 {} =
      (sequential (fun bs ↦ (p.results bs).head?) (Ahead.ofString s)).map
        (Found.captures p.groups s.toUTF8.data) := by
  rw [Nfa.findAll_eq (sound_of_compile h) s rfl, groups_of_compile h]
  refine congrArg (List.map _) (sequential_congr (P := IsPlace s) ?_ ?_ ?_ (Ahead.isPlace_ofString s))
  · exact fun b rest hplace hne ↦ hplace.of_suffix (List.suffix_cons b rest) hne
  · exact fun bs stop marks hplace hattempt ↦
      isPlace_of_matches hplace (matches_of_attempt h hattempt)
  · exact fun bs hplace ↦ attempt_eq_head?_results h hloops hplace

/-- The matches of `(a|(ab))*?c` in `aabc`, where the second group is that of the last iteration. -/
theorem findAll_eq_backtracking_of_lazy_loop :
    let p : Pattern Char := .concat (.zeroOrMore false
      (.alternate (.atom 'a') (.group (some 1) (.concat (.atom 'a') (.atom 'b'))))) (.atom 'c')
    ∃ nfa, p.compile 10 = .ok nfa ∧ p.loopsConsume = true ∧
      nfa.findAll "aabc".toUTF8.data .utf8 {} =
        (sequential (fun bs ↦ (p.results bs).head?) (Ahead.ofString "aabc")).map
          (Found.captures p.groups "aabc".toUTF8.data) := by
  intro p
  obtain ⟨nfa, h⟩ : ∃ nfa, p.compile 10 = .ok nfa := ⟨_, rfl⟩
  exact ⟨nfa, h, rfl, findAll_eq_backtracking h rfl "aabc"⟩

end Pattern

end Lockstep
